import RsTenant.CacheInvariant

/-! # The memory cache as a sharded LRU map

Calls on one handle are made one after the other, with time passing in between.
`LruShards` says what the cache is for: one list for each shard, from the least
to the most recently used entry. Call by call the shards and the lists stay the
same (`Simulates`), so what the lists lose is what the cache loses: entries that
have expired, that were invalidated, or that were the least recently used of a
full shard (`memory_cache_lru`).
-/

namespace RsTenant

open Interact

open CacheState (expiredAt)

instance Invalidation.decidableCovers (subject : AuthSubject) :
    (inv : Invalidation) → Decidable (inv.Covers subject)
  | .principal t p => inferInstanceAs (Decidable (subject.tenant = t ∧ subject.principal = p))
  | .role t _ => inferInstanceAs (Decidable (subject.tenant = t))
  | .tenant t => inferInstanceAs (Decidable (subject.tenant = t))
  | .all => .isTrue trivial

/-- An invalidation keeps the other entries in their order. -/
theorem CacheState.invalidate_spec {state : CacheState} (h : state.Paired) (inv : Invalidation) :
    (inv.act.run state).2.Paired ∧ (inv.act.run state).2.listing =
      Lru.invalidate (fun k => decide (inv.Covers k.subject)) state.listing := by
  have hretain : ∀ p : CacheKey → CacheEntry → Bool,
      (∀ key entry, p key entry = true ↔ ¬ inv.Covers key.subject) →
      (state.retain p).Paired ∧ (state.retain p).listing =
        Lru.invalidate (fun k => decide (inv.Covers k.subject)) state.listing := by
    intro p hp
    obtain ⟨hpaired, hlisting⟩ := retain_spec h p
    refine ⟨hpaired, hlisting.trans (List.filter_congr fun x _ => ?_)⟩
    rw [Bool.eq_iff_iff, hp, Bool.not_eq_true', decide_eq_false_iff_not]
  cases inv with
  | principal t p =>
    apply hretain
    intro key _
    simp [Invalidation.Covers, CacheKey.subject]
    tauto
  | role t r =>
    apply hretain
    intro key _
    simp [Invalidation.Covers, CacheKey.subject]
  | tenant t =>
    apply hretain
    intro key _
    simp [Invalidation.Covers, CacheKey.subject]
  | all =>
    refine ⟨paired_empty, ?_⟩
    symm
    apply List.filter_eq_nil_iff.mpr
    intro x _
    have hcovered : decide (Invalidation.all.Covers x.1.subject) = true := decide_eq_true trivial
    simp [hcovered]

/-! ## Calls in sequence -/

/-- A call on the cache, or time passing. -/
inductive CacheCall where
  | get (key : CacheKey)
  | set (key : CacheKey) (grants : List EffectiveGrant)
  | invalidate (inv : Invalidation)
  | advance (d : Duration)

section

variable [DefaultHasher]

def MemoryCache.invalidate (cache : MemoryCache) : Invalidation → Prog WorldSig Unit
  | .principal t p => cache.invalidatePrincipal t p
  | .role t r => cache.invalidateRole t r
  | .tenant t => cache.invalidateTenant t
  | .all => cache.invalidateAll

/-- The world after a call has returned. -/
def CacheCall.run (cache : MemoryCache) (w : World) : CacheCall → World
  | .get key => ((cache.getEffectiveGrants key).exec World.handle w).2
  | .set key grants => ((cache.setEffectiveGrants key grants).exec World.handle w).2
  | .invalidate inv => ((cache.invalidate inv).exec World.handle w).2
  | .advance d => (World.handle (.advance d) w).2

def afterCalls (cache : MemoryCache) (w : World) (calls : List CacheCall) : World :=
  calls.foldl (fun w call => call.run cache w) w

variable {cache : MemoryCache}

omit [DefaultHasher] in
theorem MemoryCache.invalidate_eq (cache : MemoryCache) (inv : Invalidation) :
    cache.invalidate inv = eachShard inv.act (List.range cache.shardCount) := by
  cases inv <;> rfl

omit [DefaultHasher] in
/-- A section that leaves its shard as it is leaves the world as it is. -/
theorem World.handle_locked_of_run {w : World} {i : ℕ} (act : Section) {r : act.Resp}
    (h : act.run (w.shards i) = (r, w.shards i)) : World.handle (.locked i act) w = (r, w) := by
  show ((act.run (w.shards i)).1,
    ({ w with shards := Function.update w.shards i (act.run (w.shards i)).2 } : World)) = (r, w)
  rw [h, Function.update_eq_self]

/-- A lookup with nothing in between is its write-lock phase: where the read
lock decides it, the write lock would decide the same and change nothing. -/
theorem exec_getEffectiveGrants (hcapacity : cache.capacity ≠ 0) (key : CacheKey) (w : World) :
    (cache.getEffectiveGrants key).exec World.handle w =
      World.handle (.locked (cache.shardIndex key) (.getWrite key cache.ttl w.clock)) w := by
  have hspec := (w.shards (cache.shardIndex key)).getRead_spec key cache.ttl w.clock
  have hnow : (Prog.perform (S := WorldSig) .now).exec World.handle w = (w.clock, w) := rfl
  have hread : ∀ phase,
      (w.shards (cache.shardIndex key)).getRead key cache.ttl w.clock = phase →
      (MemoryCache.lockShard (cache.shardIndex key) (.getRead key cache.ttl w.clock)).exec
        World.handle w = (phase, w) := by
    rintro phase rfl
    exact World.handle_locked_of_run (.getRead key cache.ttl w.clock) rfl
  unfold MemoryCache.getEffectiveGrants
  rw [if_neg hcapacity, Prog.exec_bind, hnow, Prog.exec_bind]
  cases hphase : (w.shards (cache.shardIndex key)).getRead key cache.ttl w.clock with
  | hit grants =>
    simp only [hphase] at hspec
    rw [hread _ hphase, World.handle_locked_of_run (.getWrite key cache.ttl w.clock) hspec]
    rfl
  | miss =>
    simp only [hphase] at hspec
    rw [hread _ hphase, World.handle_locked_of_run (.getWrite key cache.ttl w.clock) hspec]
    rfl
  | locked =>
    rw [hread _ hphase]
    rfl

theorem exec_setEffectiveGrants (hcapacity : cache.capacity ≠ 0) (key : CacheKey)
    (grants : List EffectiveGrant) (w : World) :
    (cache.setEffectiveGrants key grants).exec World.handle w =
      World.handle (.locked (cache.shardIndex key)
        (.set key grants cache.ttl w.clock (cache.shardCapacity key))) w := by
  unfold MemoryCache.setEffectiveGrants
  rw [if_neg hcapacity]
  rfl

omit [DefaultHasher] in
/-- A section on each of some shards changes these shards only, each once. -/
theorem exec_eachShard (act : Section) {shards : List ℕ} (h : shards.Nodup) (w : World) :
    ((MemoryCache.eachShard act shards).exec World.handle w).2 =
      { w with shards := fun i =>
          if i ∈ shards then (act.run (w.shards i)).2 else w.shards i } := by
  induction shards generalizing w with
  | nil =>
    simp [MemoryCache.eachShard]
    rfl
  | cons j shards ih =>
    rw [List.nodup_cons] at h
    have hstep : ((MemoryCache.eachShard act (j :: shards)).exec World.handle w).2 =
        ((MemoryCache.eachShard act shards).exec World.handle
          (World.handle (.locked j act) w).2).2 := rfl
    rw [hstep, ih h.2]
    show ({ w with shards := _ } : World) = { w with shards := _ }
    congr 1
    funext i
    show (if i ∈ shards then (act.run (Function.update w.shards j _ i)).2
      else Function.update w.shards j _ i) = _
    -- no other section of the sequence is on this shard
    by_cases hij : i = j
    · subst hij
      simp [h.1]
    · simp [hij]

/-! ## The reference -/

end

/-- The cache as it is meant: for each shard a list of entries, the least
recently used first, and the time. -/
structure LruShards where
  lists : ℕ → List (CacheKey × CacheEntry)
  clock : Instant

namespace LruShards

variable [DefaultHasher]

/-- The list that the key belongs to. -/
def listOf (cache : MemoryCache) (ref : LruShards) (key : CacheKey) :
    List (CacheKey × CacheEntry) :=
  ref.lists (cache.shardIndex key)

def withList (cache : MemoryCache) (ref : LruShards) (key : CacheKey)
    (xs : List (CacheKey × CacheEntry)) : LruShards :=
  { ref with lists := Function.update ref.lists (cache.shardIndex key) xs }

/-- What a lookup answers. -/
def answer (cache : MemoryCache) (ref : LruShards) (key : CacheKey) :
    Option (List EffectiveGrant) :=
  (Lru.get (expiredAt cache.ttl ref.clock) (ref.listOf cache key) key).1.map CacheEntry.grants

def step (cache : MemoryCache) (ref : LruShards) : CacheCall → LruShards
  | .get key =>
    ref.withList cache key
      (Lru.get (expiredAt cache.ttl ref.clock) (ref.listOf cache key) key).2
  | .set key grants =>
    ref.withList cache key
      (Lru.set (expiredAt cache.ttl ref.clock) (cache.shardCapacity key) (ref.listOf cache key) key
        ⟨grants, ref.clock⟩)
  | .invalidate inv =>
    { ref with
      lists := fun i => Lru.invalidate (fun k => decide (inv.Covers k.subject)) (ref.lists i) }
  | .advance d => { ref with clock := ref.clock + d }

/-- The reference after these calls, starting empty. -/
def after (cache : MemoryCache) (start : Instant) (calls : List CacheCall) : LruShards :=
  calls.foldl (step cache) ⟨fun _ => [], start⟩

variable {cache : MemoryCache} {ref : LruShards} {key : CacheKey}

theorem after_append (start : Instant) (calls : List CacheCall) (call : CacheCall) :
    after cache start (calls ++ [call]) = (after cache start calls).step cache call := by
  simp [after]

@[simp] theorem withList_self (xs : List (CacheKey × CacheEntry)) :
    (ref.withList cache key xs).lists (cache.shardIndex key) = xs := by
  simp [withList]

@[simp] theorem withList_ne {i : ℕ} (hi : i ≠ cache.shardIndex key)
    (xs : List (CacheKey × CacheEntry)) : (ref.withList cache key xs).lists i = ref.lists i := by
  simp [withList, hi]

end LruShards

/-! ## The shards follow the reference -/

section

variable [DefaultHasher] {cache : MemoryCache} {w : World} {ref : LruShards}

/-- The shards, read in the order of their queues, are the lists. -/
structure Simulates (cache : MemoryCache) (w : World) (ref : LruShards) : Prop where
  clock : w.clock = ref.clock
  paired : ∀ i, (w.shards i).Paired
  listing : ∀ i < cache.shardCount, (w.shards i).listing = ref.lists i

/-- A section on the shard of a key, and what it does to the list. -/
theorem Simulates.locked (h : Simulates cache w ref) {key : CacheKey} {act : Section}
    {xs : List (CacheKey × CacheEntry)}
    (hact : (act.run (w.shards (cache.shardIndex key))).2.listing = xs) :
    Simulates cache (World.handle (.locked (cache.shardIndex key) act) w).2
      (ref.withList cache key xs) := by
  refine ⟨h.clock, fun i => ?_, fun i hi => ?_⟩
  · show (Function.update w.shards _ (act.run _).2 i).Paired
    by_cases hkey : i = cache.shardIndex key
    · subst hkey
      rw [Function.update_self]
      exact act.run_paired (h.paired _)
    · rw [Function.update_of_ne hkey]
      exact h.paired i
  · show (Function.update w.shards _ (act.run _).2 i).listing = _
    by_cases hkey : i = cache.shardIndex key
    · subst hkey
      rw [Function.update_self, hact, LruShards.withList_self]
    · rw [Function.update_of_ne hkey, LruShards.withList_ne hkey]
      exact h.listing i hi

/-- One call. -/
theorem Simulates.step (hcapacity : cache.capacity ≠ 0) (h : Simulates cache w ref)
    (call : CacheCall) : Simulates cache (call.run cache w) (ref.step cache call) := by
  have hlist : ∀ key, (w.shards (cache.shardIndex key)).listing = ref.listOf cache key :=
    fun key => h.listing _ (cache.shardIndex_lt key)
  cases call with
  | get key =>
    have hget := (CacheState.getWrite_spec (h.paired (cache.shardIndex key)) key cache.ttl
      w.clock).2.1
    show Simulates cache ((cache.getEffectiveGrants key).exec World.handle w).2 _
    -- the read-lock phase drops out, and the write lock follows the list
    rw [exec_getEffectiveGrants hcapacity]
    rw [hlist, h.clock] at hget
    rw [h.clock]
    exact h.locked hget
  | set key grants =>
    have hset := (CacheState.set_spec (h.paired (cache.shardIndex key)) key grants cache.ttl
      w.clock (cache.shardCapacity key)).2
    show Simulates cache ((cache.setEffectiveGrants key grants).exec World.handle w).2 _
    rw [exec_setEffectiveGrants hcapacity]
    rw [hlist, h.clock] at hset
    rw [h.clock]
    exact h.locked hset
  | invalidate inv =>
    show Simulates cache ((cache.invalidate inv).exec World.handle w).2 _
    -- every shard is visited once, with nothing in between
    rw [cache.invalidate_eq, exec_eachShard _ List.nodup_range]
    refine ⟨h.clock, fun i => ?_, fun i hi => ?_⟩
    · show (if i ∈ List.range cache.shardCount then _ else _ : CacheState).Paired
      split
      · exact inv.act.run_paired (h.paired i)
      · exact h.paired i
    · show (if i ∈ List.range cache.shardCount then _ else _ : CacheState).listing = _
      rw [if_pos (List.mem_range.mpr hi), (CacheState.invalidate_spec (h.paired i) inv).2,
        h.listing i hi]
      rfl
  | advance d => exact ⟨congrArg (· + d) h.clock, h.paired, h.listing⟩

/-- Any sequence of calls. -/
theorem simulates_after (hcapacity : cache.capacity ≠ 0) (hw : w.Fresh) (calls : List CacheCall) :
    Simulates cache (afterCalls cache w calls) (LruShards.after cache w.clock calls) := by
  induction calls using List.reverseRecOn with
  | nil =>
    -- a fresh cache has empty shards, the reference empty lists
    refine ⟨rfl, fun i => ?_, fun i _ => ?_⟩
    · show (w.shards i).Paired
      rw [hw i]
      exact CacheState.paired_empty
    · show (w.shards i).listing = []
      rw [hw i, CacheState.listing_empty]
  | append_singleton calls call ih =>
    rw [LruShards.after_append]
    have hrun : afterCalls cache w (calls ++ [call]) =
        call.run cache (afterCalls cache w calls) := by
      simp [afterCalls]
    rw [hrun]
    exact ih.step hcapacity call

/-- The answer of a lookup. -/
theorem Simulates.answer (hcapacity : cache.capacity ≠ 0) (h : Simulates cache w ref)
    (key : CacheKey) :
    ((cache.getEffectiveGrants key).exec World.handle w).1 = ref.answer cache key := by
  have hget := (CacheState.getWrite_spec (h.paired (cache.shardIndex key)) key cache.ttl
    w.clock).2.2
  rw [exec_getEffectiveGrants hcapacity]
  rw [h.listing _ (cache.shardIndex_lt key), h.clock] at hget
  rw [h.clock]
  exact hget

omit [DefaultHasher] in
/-- The queue and the map of a shard, by the list. -/
theorem Simulates.shard (h : Simulates cache w ref) {i : ℕ} (hi : i < cache.shardCount) :
    (w.shards i).order = (ref.lists i).map Prod.fst ∧
      ∀ k, (w.shards i).entries.get k = Lru.lookup (ref.lists i) k := by
  rw [← h.listing i hi]
  exact ⟨(h.paired i).keys_listing.symm, fun k => ((h.paired i).lookup_listing k).symm⟩

end

/-! ## What the reference loses -/

/-- The call looks the key up or sets it. -/
def CacheCall.Uses (k : CacheKey) : CacheCall → Prop
  | .get key => key = k
  | .set key _ => key = k
  | _ => False

/-- Some call has used `b`, and no call from that one on has used `a`. -/
def UsedSince (calls : List CacheCall) (a b : CacheKey) : Prop :=
  ∃ pre call post, calls = pre ++ call :: post ∧ call.Uses b ∧ ∀ c ∈ call :: post, ¬ c.Uses a

theorem UsedSince.ne {calls : List CacheCall} {a b : CacheKey} (h : UsedSince calls a b) :
    a ≠ b := by
  rcases h with ⟨pre, call, post, -, hb, hno⟩
  rintro rfl
  exact hno call List.mem_cons_self hb

theorem UsedSince.snoc {calls : List CacheCall} {a b : CacheKey} (h : UsedSince calls a b)
    {call : CacheCall} (ha : ¬ call.Uses a) : UsedSince (calls ++ [call]) a b := by
  rcases h with ⟨pre, c, post, rfl, hb, hno⟩
  refine ⟨pre, c, post ++ [call], by simp, hb, fun c' hc' => ?_⟩
  rcases List.mem_append.mp (show c' ∈ (c :: post) ++ [call] from hc') with hc' | hc'
  · exact hno c' hc'
  · rw [List.mem_singleton.mp hc']
    exact ha

theorem usedSince_snoc (calls : List CacheCall) {call : CacheCall} {a b : CacheKey}
    (hb : call.Uses b) (ha : ¬ call.Uses a) : UsedSince (calls ++ [call]) a b :=
  ⟨calls, call, [], rfl, hb, by simpa using ha⟩

/-- Later entries, looked at earlier, have not expired either. -/
theorem CacheEntry.live_of_le {e e' : CacheEntry} {ttl : Option Duration} {now now' : Instant}
    (h : e.isExpiredFor ttl now' = false) (hat : e.updatedAt ≤ e'.updatedAt) (hnow : now ≤ now') :
    e'.isExpiredFor ttl now = false := by
  cases ttl with
  | none => rfl
  | some ttl =>
    simp only [CacheEntry.isExpiredFor, CacheEntry.isExpired, Option.any_some,
      decide_eq_false_iff_not, not_lt] at h ⊢
    have hage : now - e'.updatedAt ≤ now' - e.updatedAt := tsub_le_tsub hnow hat
    exact hage.trans h

namespace LruShards

variable [DefaultHasher] {cache : MemoryCache} {ref : LruShards} {calls : List CacheCall}

/-- The keys of each list belong there and are ordered by their latest use; the
list is within its capacity, and nothing in it is from the future. -/
structure Invariant (cache : MemoryCache) (calls : List CacheCall) (ref : LruShards) : Prop where
  placed : ∀ i, ∀ x ∈ ref.lists i, cache.shardIndex x.1 = i
  bounded : ∀ i, (ref.lists i).length ≤ cache.shardCapacities.getD i 0
  stamped : ∀ i, ∀ x ∈ ref.lists i, x.2.updatedAt ≤ ref.clock
  recent : ∀ i, ((ref.lists i).map Prod.fst).Pairwise (UsedSince calls)

theorem Invariant.distinct (h : ref.Invariant cache calls) (i : ℕ) : Lru.Distinct (ref.lists i) :=
  (h.recent i).imp fun hab => hab.ne

/-- A call that uses one key, and changes the list of this key only. -/
theorem Invariant.withList (h : ref.Invariant cache calls) {call : CacheCall} {key : CacheKey}
    (huses : ∀ k, call.Uses k → k = key) {xs : List (CacheKey × CacheEntry)}
    (hmem : ∀ x ∈ xs, x ∈ ref.listOf cache key ∨ x.1 = key ∧ x.2.updatedAt = ref.clock)
    (hlength : xs.length ≤ cache.shardCapacity key)
    (hrecent : (xs.map Prod.fst).Pairwise (UsedSince (calls ++ [call]))) :
    (ref.withList cache key xs).Invariant cache (calls ++ [call]) := by
  refine ⟨fun i x hx => ?_, fun i => ?_, fun i x hx => ?_, fun i => ?_⟩
  all_goals by_cases hi : i = cache.shardIndex key
  · subst hi
    rw [withList_self] at hx
    rcases hmem x hx with hx | ⟨hkey, -⟩
    · exact h.placed _ x hx
    · rw [hkey]
  · rw [withList_ne hi] at hx
    exact h.placed i x hx
  · subst hi
    rw [withList_self, cache.getD_shardIndex]
    exact hlength
  · rw [withList_ne hi]
    exact h.bounded i
  · subst hi
    rw [withList_self] at hx
    rcases hmem x hx with hx | ⟨-, hat⟩
    · exact h.stamped _ x hx
    · exact hat.le
  · rw [withList_ne hi] at hx
    exact h.stamped i x hx
  · subst hi
    rw [withList_self]
    exact hrecent
  · rw [withList_ne hi]
    -- the key is none of those of another list
    refine (h.recent i).imp_of_mem fun ha _ hab => hab.snoc fun huse => ?_
    rcases List.mem_map.mp ha with ⟨x, hx, rfl⟩
    rw [← huses _ huse, h.placed i x hx] at hi
    exact hi rfl

theorem Invariant.step (h : ref.Invariant cache calls) (call : CacheCall) :
    (ref.step cache call).Invariant cache (calls ++ [call]) := by
  -- what is moved to the end has just been used, and nothing else has
  have hkeep : ∀ key, (∀ k, call.Uses k → k = key) →
      ∀ a b, a ≠ key → UsedSince calls a b → UsedSince (calls ++ [call]) a b :=
    fun key huses a b ha hab => hab.snoc fun huse => ha (huses a huse)
  cases call with
  | get key =>
    have huses : ∀ k, (CacheCall.get key).Uses k → k = key := fun k hk => hk.symm
    apply h.withList huses
    · exact fun x hx => .inl (Lru.mem_of_mem_get hx)
    · have hbounded := h.bounded (cache.shardIndex key)
      rw [cache.getD_shardIndex] at hbounded
      exact Lru.length_get_le.trans hbounded
    · exact Lru.pairwise_get (h.recent _) (hkeep key huses)
        fun a ha => usedSince_snoc calls rfl fun huse => ha (huses a huse)
  | set key grants =>
    have huses : ∀ k, (CacheCall.set key grants).Uses k → k = key := fun k hk => hk.symm
    apply h.withList huses
    · intro x hx
      rcases Lru.mem_of_mem_set hx with hx | rfl
      · exact .inl hx
      · exact .inr ⟨rfl, rfl⟩
    · exact Lru.length_set_le
    · exact Lru.pairwise_set (h.recent _) (hkeep key huses)
        fun a ha => usedSince_snoc calls rfl fun huse => ha (huses a huse)
  | invalidate inv =>
    have hsub : ∀ i, ((ref.step cache (.invalidate inv)).lists i).Sublist (ref.lists i) :=
      fun i => List.filter_sublist
    -- an invalidation only takes entries away
    refine ⟨fun i x hx => h.placed i x ((hsub i).subset hx),
      fun i => (hsub i).length_le.trans (h.bounded i),
      fun i x hx => h.stamped i x ((hsub i).subset hx), fun i => ?_⟩
    have hrecent := (h.recent i).sublist ((hsub i).map Prod.fst)
    exact hrecent.imp fun hab => hab.snoc id
  | advance d =>
    refine ⟨h.placed, h.bounded, fun i x hx => ?_, fun i => ?_⟩
    · have hat : x.2.updatedAt ≤ ref.clock := h.stamped i x hx
      exact hat.trans (Nat.le_add_right _ d)
    · exact (h.recent i).imp fun hab => hab.snoc id

theorem invariant_after (start : Instant) (calls : List CacheCall) :
    (after cache start calls).Invariant cache calls := by
  induction calls using List.reverseRecOn with
  | nil =>
    have hnone : ∀ i, (after cache start []).lists i = [] := fun i => rfl
    refine ⟨fun i x hx => ?_, fun i => ?_, fun i x hx => ?_, fun i => ?_⟩
    · rw [hnone] at hx
      exact absurd hx List.not_mem_nil
    · rw [hnone]
      exact Nat.zero_le _
    · rw [hnone] at hx
      exact absurd hx List.not_mem_nil
    · rw [hnone]
      exact List.Pairwise.nil
  | append_singleton calls call ih =>
    rw [after_append]
    exact ih.step call

/-- The call, coming after these calls, sets another key of the shard while the
shard is full of entries that have not expired, of which that of `key` is the
least recently used. The shard is full afterwards too, and each of the distinct
keys that are in it then has been used since `key` was. -/
structure Evicts (cache : MemoryCache) (calls : List CacheCall) (ref : LruShards)
    (call : CacheCall) (key : CacheKey) : Prop where
  sets : ∃ key' grants, call = .set key' grants ∧ key' ≠ key ∧
    cache.shardIndex key' = cache.shardIndex key
  oldest : (Lru.live (expiredAt cache.ttl ref.clock) (ref.listOf cache key)).head?.map Prod.fst =
    some key
  full : (Lru.live (expiredAt cache.ttl ref.clock) (ref.listOf cache key)).length =
    cache.shardCapacity key
  distinct : Lru.Distinct ((ref.step cache call).listOf cache key)
  refilled : ((ref.step cache call).listOf cache key).length = cache.shardCapacity key
  used : ∀ x ∈ (ref.step cache call).listOf cache key, UsedSince (calls ++ [call]) key x.1

/-- A set, as the list of another key of its shard sees it. -/
theorem listOf_step_set (ref : LruShards) {key key' : CacheKey}
    (hi : cache.shardIndex key' = cache.shardIndex key) (grants : List EffectiveGrant) :
    (ref.step cache (.set key' grants)).listOf cache key =
      Lru.set (expiredAt cache.ttl ref.clock) (cache.shardCapacity key) (ref.listOf cache key) key'
        ⟨grants, ref.clock⟩ := by
  have hshare : cache.shardCapacity key' = cache.shardCapacity key := by
    rw [← cache.getD_shardIndex, ← cache.getD_shardIndex, hi]
  have hstep : (ref.step cache (.set key' grants)).lists (cache.shardIndex key') =
      Lru.set (expiredAt cache.ttl ref.clock) (cache.shardCapacity key') (ref.listOf cache key')
        key' ⟨grants, ref.clock⟩ :=
    withList_self _
  unfold listOf at hstep ⊢
  rw [← hi, hstep, hshare]

/-- A set that loses the live entry of another key evicts it. -/
theorem Invariant.evicts (h : ref.Invariant cache calls) {key key' : CacheKey} {e : CacheEntry}
    {grants : List EffectiveGrant} (hi : cache.shardIndex key' = cache.shardIndex key)
    (hkey : key' ≠ key) (he : (key, e) ∈ ref.listOf cache key)
    (hlive : e.isExpiredFor cache.ttl ref.clock = false)
    (hlost : (key, e) ∉ (ref.step cache (.set key' grants)).listOf cache key) :
    Evicts cache calls ref (.set key' grants) key := by
  have hbounded : (ref.listOf cache key).length ≤ cache.shardCapacity key := by
    have hb := h.bounded (cache.shardIndex key)
    rwa [cache.getD_shardIndex] at hb
  have hstep := listOf_step_set ref hi grants
  rw [hstep] at hlost
  rcases Lru.dropped_by_set hbounded he hlive (Ne.symm hkey) hlost with ⟨holdest, hfull, -, hset⟩
  rw [hset] at hstep
  refine ⟨⟨key', grants, rfl, hkey, hi⟩, ?_, hfull, (h.step _).distinct _, ?_, ?_⟩
  · rw [holdest]
    rfl
  -- one goes at the front, one comes at the back
  · have hpos : 0 < (Lru.live (expiredAt cache.ttl ref.clock) (ref.listOf cache key)).length :=
      List.length_pos_of_mem (Lru.mem_live.mpr ⟨he, hlive⟩)
    rw [hstep, List.length_append, List.length_tail, List.length_singleton]
    omega
  · -- the others were used after the key, and the new one just now
    intro x hx
    have hnot : ¬ (CacheCall.set key' grants).Uses key := hkey
    rw [hstep] at hx
    rcases List.mem_append.mp hx with hx | hx
    · have hrecent : ((Lru.live (expiredAt cache.ttl ref.clock)
          (ref.listOf cache key)).map Prod.fst).Pairwise (UsedSince calls) :=
        (h.recent (cache.shardIndex key)).sublist (List.filter_sublist.map Prod.fst)
      rw [← List.cons_head?_tail (Option.mem_def.mpr holdest), List.map_cons,
        List.pairwise_cons] at hrecent
      exact (hrecent.1 x.1 (List.mem_map_of_mem hx)).snoc hnot
    · rw [List.mem_singleton.mp hx]
      exact usedSince_snoc calls rfl hnot

/-- What one call does to an entry that has not expired: its key has an entry at
least as new afterwards, unless the call invalidates or evicts it. -/
theorem Invariant.kept_or_lost (h : ref.Invariant cache calls) (hcapacity : cache.capacity ≠ 0)
    {key : CacheKey} {e : CacheEntry} (he : (key, e) ∈ ref.listOf cache key)
    (hlive : e.isExpiredFor cache.ttl ref.clock = false) (call : CacheCall) :
    (∃ e', (key, e') ∈ (ref.step cache call).listOf cache key ∧ e.updatedAt ≤ e'.updatedAt) ∨
      (∃ inv, call = .invalidate inv ∧ inv.Covers key.subject) ∨
      Evicts cache calls ref call key := by
  cases call with
  | get key' =>
    refine .inl ⟨e, ?_, le_rfl⟩
    show (key, e) ∈ (ref.withList cache key' _).lists (cache.shardIndex key)
    -- a lookup moves entries, and removes only expired ones
    by_cases hi : cache.shardIndex key = cache.shardIndex key'
    · rw [hi, withList_self]
      have he' : (key, e) ∈ ref.listOf cache key' := by
        unfold listOf at he ⊢
        rwa [← hi]
      exact Lru.mem_get (h.distinct _) he' hlive
    · rw [withList_ne hi]
      exact he
  | set key' grants =>
    by_cases hi : cache.shardIndex key' = cache.shardIndex key
    · by_cases hkey : key' = key
      · -- the new entry takes its place
        subst hkey
        refine .inl ⟨⟨grants, ref.clock⟩, ?_, h.stamped _ _ he⟩
        rw [listOf_step_set _ rfl]
        exact List.mem_of_getLast? (Lru.getLast?_set (cache.shardCapacity_pos hcapacity key'))
      · by_cases hkept : (key, e) ∈ (ref.step cache (.set key' grants)).listOf cache key
        · exact .inl ⟨e, hkept, le_rfl⟩
        · exact .inr (.inr (h.evicts hi hkey he hlive hkept))
    -- a set of another shard
    · refine .inl ⟨e, ?_, le_rfl⟩
      show (key, e) ∈ (ref.withList cache key' _).lists (cache.shardIndex key)
      rw [withList_ne (Ne.symm hi)]
      exact he
  | invalidate inv =>
    by_cases hcovers : inv.Covers key.subject
    · exact .inr (.inl ⟨inv, rfl, hcovers⟩)
    · refine .inl ⟨e, ?_, le_rfl⟩
      exact List.mem_filter.mpr ⟨he, by simpa using hcovers⟩
  | advance d => exact .inl ⟨e, he, le_rfl⟩

theorem clock_step (ref : LruShards) (call : CacheCall) :
    ref.clock ≤ (ref.step cache call).clock := by
  cases call with
  | advance d => exact Nat.le_add_right _ d
  | _ => exact le_rfl

theorem clock_after (start : Instant) (calls later : List CacheCall) :
    (after cache start calls).clock ≤ (after cache start (calls ++ later)).clock := by
  induction later using List.reverseRecOn with
  | nil => rw [List.append_nil]
  | append_singleton later call ih =>
    rw [← List.append_assoc, after_append]
    exact ih.trans (clock_step _ call)

/-- An entry that would not have expired yet and is missing was lost in one of
the calls since. -/
theorem lost_of_missing (hcapacity : cache.capacity ≠ 0) {start : Instant}
    {calls later : List CacheCall} {key : CacheKey} {e : CacheEntry}
    (he : (key, e) ∈ (after cache start calls).listOf cache key)
    (hlive : e.isExpiredFor cache.ttl (after cache start (calls ++ later)).clock = false)
    (hmissing : ∀ e', (key, e') ∉ (after cache start (calls ++ later)).listOf cache key) :
    ∃ mid call rest, later = mid ++ call :: rest ∧
      ((∃ inv, call = .invalidate inv ∧ inv.Covers key.subject) ∨
        Evicts cache (calls ++ mid) (after cache start (calls ++ mid)) call key) := by
  induction later generalizing calls e with
  | nil =>
    rw [List.append_nil] at hmissing
    exact absurd he (hmissing e)
  | cons call later ih =>
    have hnow : e.isExpiredFor cache.ttl (after cache start calls).clock = false :=
      CacheEntry.live_of_le hlive le_rfl (clock_after start calls (call :: later))
    have hsplit : calls ++ call :: later = calls ++ [call] ++ later := by
      simp
    -- either this call has lost the entry, or a later one loses what it has become
    rcases (invariant_after start calls).kept_or_lost hcapacity he hnow call with
      ⟨e', he', hat⟩ | hlost
    · rw [hsplit] at hlive hmissing
      rw [← after_append] at he'
      rcases ih he' (CacheEntry.live_of_le hlive hat le_rfl) hmissing with
        ⟨mid, call', rest, rfl, hlost⟩
      refine ⟨call :: mid, call', rest, rfl, ?_⟩
      rwa [List.append_cons]
    · refine ⟨[], call, later, rfl, ?_⟩
      rwa [List.append_nil]

end LruShards

/-- For any sequence of calls on an enabled cache: each shard, read in the order
of its queue, is the list that the reference has for it, and lookups answer as
the reference does. The read-lock phase of a lookup decides nothing that its
write-lock phase would decide otherwise. A key just set is at the recent end
with what was set. And an entry that is missing before it has expired was
invalidated, or evicted: by a set of another key in a full shard, all of whose
keys have been used since the entry was. -/
theorem memory_cache_lru [DefaultHasher] (cache : MemoryCache) (hcapacity : 0 < cache.capacity)
    (w : World) (hw : w.Fresh) (calls : List CacheCall) :
    let now := afterCalls cache w calls
    let ref := LruShards.after cache w.clock calls
    now.clock = ref.clock ∧
    (∀ i < cache.shardCount, (now.shards i).listing = ref.lists i ∧
      (now.shards i).order = (ref.lists i).map Prod.fst ∧
      ∀ k, (now.shards i).entries.get k = Lru.lookup (ref.lists i) k) ∧
    (∀ key, ((cache.getEffectiveGrants key).exec World.handle now).1 = ref.answer cache key) ∧
    (∀ key, match (now.shards (cache.shardIndex key)).getRead key cache.ttl now.clock with
      | .hit grants => (now.shards (cache.shardIndex key)).getWrite key cache.ttl now.clock =
          (some grants, now.shards (cache.shardIndex key))
      | .miss => (now.shards (cache.shardIndex key)).getWrite key cache.ttl now.clock =
          (none, now.shards (cache.shardIndex key))
      | .locked => True) ∧
    (∀ key grants, ((afterCalls cache w (calls ++ [.set key grants])).shards
      (cache.shardIndex key)).listing.getLast? = some (key, ⟨grants, now.clock⟩)) ∧
    ∀ later key e, (now.shards (cache.shardIndex key)).entries.get key = some e →
      e.isExpiredFor cache.ttl (afterCalls cache w (calls ++ later)).clock = false →
      ((afterCalls cache w (calls ++ later)).shards (cache.shardIndex key)).entries.get key = none →
      ∃ mid call rest, later = mid ++ call :: rest ∧
        ((∃ inv, call = .invalidate inv ∧ inv.Covers key.subject) ∨
          LruShards.Evicts cache (calls ++ mid) (LruShards.after cache w.clock (calls ++ mid)) call
            key) := by
  intro now ref
  have hne : cache.capacity ≠ 0 := by
    omega
  have hsim : ∀ calls', Simulates cache (afterCalls cache w calls')
      (LruShards.after cache w.clock calls') := simulates_after hne hw
  refine ⟨(hsim calls).clock, fun i hi => ⟨(hsim calls).listing i hi, (hsim calls).shard hi⟩,
    (hsim calls).answer hne, fun key => CacheState.getRead_spec _ key cache.ttl now.clock,
    fun key grants => ?_, fun later key e hentry hlive hmissing => ?_⟩
  · rw [(hsim _).listing _ (cache.shardIndex_lt key), LruShards.after_append, (hsim calls).clock]
    have hlast : ((ref.step cache (.set key grants)).listOf cache key).getLast? =
        some (key, ⟨grants, ref.clock⟩) := by
      rw [LruShards.listOf_step_set _ rfl]
      exact Lru.getLast?_set (cache.shardCapacity_pos hne key)
    exact hlast
  · have hlookup : ∀ calls' : List CacheCall, _ :=
      fun calls' => ((hsim calls').shard (cache.shardIndex_lt key)).2 key
    rw [hlookup] at hentry hmissing
    rw [(hsim _).clock] at hlive
    exact LruShards.lost_of_missing hne (Lru.mem_of_lookup hentry) hlive
      fun e' he' => Lru.not_mem_of_lookup hmissing _ he' rfl

namespace Sample

/-- The clerk's entry under another configuration. -/
def keyFor (c : Char) : CacheKey := { key with configSignature := [c] }

/-- Two keys fill the cache, and the older one is looked up. -/
def filled : List CacheCall :=
  [.set (keyFor 'a') grants, .set (keyFor 'b') grants, .get (keyFor 'a')]

end Sample

/-- Setting a third key then evicts the other. -/
theorem memory_cache_lru_sample :
    ∃ mid call rest, [CacheCall.set (Sample.keyFor 'c') Sample.grants] = mid ++ call :: rest ∧
      ((∃ inv, call = .invalidate inv ∧ inv.Covers (Sample.keyFor 'b').subject) ∨
        @LruShards.Evicts Sample.hasher Sample.cache (Sample.filled ++ mid)
          (@LruShards.after Sample.hasher Sample.cache Sample.world.clock (Sample.filled ++ mid))
          call (Sample.keyFor 'b')) :=
  (@memory_cache_lru Sample.hasher Sample.cache (by decide) Sample.world (fun _ => rfl)
    Sample.filled).2.2.2.2.2 [.set (Sample.keyFor 'c') Sample.grants] (Sample.keyFor 'b')
    ⟨Sample.grants, 0⟩ rfl rfl rfl

end RsTenant
