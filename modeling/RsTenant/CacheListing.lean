import RsTenant.CacheState
import RsTenant.Lib.Lru

/-! # What a shard holds, in the order of its queue

A shard keeps a map and a queue in step by hand. Each of its operations keeps
the queue a list of the map's keys (`Paired`), and does to the entries, read in
the order of the queue, what the reference list does: one specification lemma
for each operation, and from them one for each lock section.
-/

namespace RsTenant

namespace CacheState

/-- The entries from the least to the most recently used. -/
def listing (state : CacheState) : List (CacheKey × CacheEntry) := state.entries.listing state.order

/-- The queue has the keys of the map, each once. -/
abbrev Paired (state : CacheState) : Prop := state.entries.Listed state.order

/-- Whether an entry has expired, for a handle with this TTL at this time. -/
abbrev expiredAt (ttl : Option Duration) (now : Instant) : CacheEntry → Bool :=
  fun entry => entry.isExpiredFor ttl now

/-- The loop of `evict_if_needed` finds the queue empty while there are too many
entries, and breaks off. -/
def EvictLoopBreaks (shardCapacity : ℕ) (entries : HashMap CacheKey CacheEntry) :
    List CacheKey → Prop
  | [] => shardCapacity < entries.len
  | key :: order =>
    shardCapacity < entries.len ∧ EvictLoopBreaks shardCapacity (entries.remove key) order

/-- What a set passes to `evict_if_needed`. -/
def beforeEvict (state : CacheState) (key : CacheKey) (grants : List EffectiveGrant)
    (ttl : Option Duration) (now : Instant) : CacheState :=
  let pruned := match ttl with
    | some ttl => state.pruneExpired ttl now
    | none => state
  let inserted := { pruned with entries := pruned.entries.insert key ⟨grants, now⟩ }
  inserted.touch key

theorem set_eq (state : CacheState) (key : CacheKey) (grants : List EffectiveGrant)
    (ttl : Option Duration) (now : Instant) (shardCapacity : ℕ) :
    state.set key grants ttl now shardCapacity =
      (state.beforeEvict key grants ttl now).evictIfNeeded shardCapacity := rfl

theorem paired_empty : CacheState.empty.Paired := HashMap.Listed.empty

@[simp] theorem listing_empty : CacheState.empty.listing = [] := rfl

variable {state : CacheState} {key : CacheKey} {entry : CacheEntry} {grants : List EffectiveGrant}
  {ttl : Option Duration} {now : Instant} {shardCapacity : ℕ}

/-! ## One lemma for each operation -/

/-- In a queue without repetition, touching moves the key to the end even when
it finds it there and does nothing. -/
theorem order_touch (h : state.order.Nodup) (key : CacheKey) :
    (state.touch key).order = (state.order.filter fun existing => existing ≠ key) ++ [key] := by
  unfold touch
  split
  · rename_i hlast
    rcases List.getLast?_eq_some_iff.mp hlast with ⟨front, hfront⟩
    rw [hfront] at h ⊢
    have hnot : ∀ k ∈ front, k ≠ key := by
      rintro k hk rfl
      exact (List.nodup_append.mp h).2.2 k hk k (List.mem_singleton_self k) rfl
    have hkept : (front.filter fun existing => existing ≠ key) = front :=
      List.filter_eq_self.mpr fun k hk => by simpa using hnot k hk
    rw [List.filter_append, hkept]
    simp
  · rfl

/-- A touched entry moves to the recent end. -/
theorem touch_spec (h : state.Paired) (hentry : state.entries.get key = some entry) :
    (state.touch key).Paired ∧
      (state.touch key).listing = Lru.remove state.listing key ++ [(key, entry)] := by
  unfold Paired listing
  rw [get_touch, order_touch h.nodup]
  exact h.move hentry

/-- A removed key leaves the listing. -/
theorem removeKey_spec (h : state.Paired) (hentry : state.entries.get key = some entry) :
    (state.removeKey key).Paired ∧
      (state.removeKey key).listing = Lru.remove state.listing key := by
  have hcontains : state.entries.containsKey key = true :=
    (HashMap.containsKey_iff _ _).mpr ⟨entry, hentry⟩
  unfold removeKey
  rw [if_pos hcontains]
  exact h.remove key

/-- A filtered shard lists what the filter keeps. -/
theorem retain_spec (h : state.Paired) (p : CacheKey → CacheEntry → Bool) :
    (state.retain p).Paired ∧
      (state.retain p).listing = state.listing.filter fun x => p x.1 x.2 :=
  HashMap.Listed.retain h p

/-- Setting an entry drops the expired ones and puts it at the recent end. -/
theorem beforeEvict_spec (h : state.Paired) (key : CacheKey) (grants : List EffectiveGrant)
    (ttl : Option Duration) (now : Instant) :
    (state.beforeEvict key grants ttl now).Paired ∧
      (state.beforeEvict key grants ttl now).listing =
        Lru.remove (Lru.live (expiredAt ttl now) state.listing) key ++ [(key, ⟨grants, now⟩)] := by
  have hpruned : ∀ pruned : CacheState, pruned.Paired →
      pruned.listing = Lru.live (expiredAt ttl now) state.listing →
      let inserted := { pruned with entries := pruned.entries.insert key ⟨grants, now⟩ }
      (inserted.touch key).Paired ∧ (inserted.touch key).listing =
        Lru.remove (Lru.live (expiredAt ttl now) state.listing) key ++
          [(key, ⟨grants, now⟩)] := by
    intro pruned hp hlisting inserted
    have horder : (inserted.touch key).order =
        (pruned.order.filter fun existing => existing ≠ key) ++ [key] :=
      order_touch (show inserted.order.Nodup from hp.nodup) key
    rw [← hlisting]
    unfold Paired listing
    rw [get_touch, horder]
    exact hp.insert key ⟨grants, now⟩
  cases ttl with
  | none =>
    apply hpruned state h
    -- without a TTL nothing expires
    unfold Lru.live
    simp [expiredAt, CacheEntry.isExpiredFor]
  | some ttl =>
    obtain ⟨hp, hlisting⟩ := retain_spec h fun _ entry => !entry.isExpired ttl now
    exact hpruned _ hp hlisting

/-- Evicting takes from the front of the queue what is over the capacity, and
never finds the queue empty too early. -/
theorem evictLoop_spec {entries : HashMap CacheKey CacheEntry} {order : List CacheKey}
    (h : entries.Listed order) (shardCapacity : ℕ) :
    (evictLoop shardCapacity entries order).Paired ∧
      (evictLoop shardCapacity entries order).listing =
        (entries.listing order).drop (entries.len - shardCapacity) ∧
      ¬ EvictLoopBreaks shardCapacity entries order := by
  -- on the queue: what is left of it lists what is left of the map
  induction order generalizing entries with
  | nil =>
    have hlen : entries.len = 0 := h.len_eq
    refine ⟨h, by simp [evictLoop, listing, HashMap.listing], ?_⟩
    show ¬ shardCapacity < entries.len
    omega
  | cons key order ih =>
    obtain ⟨hrest, hlen, v, hcons⟩ := h.uncons
    unfold evictLoop EvictLoopBreaks
    by_cases hover : shardCapacity < entries.len
    · rw [if_pos hover]
      obtain ⟨hpaired, hlisting, hbreak⟩ := ih hrest
      refine ⟨hpaired, ?_, fun hb => hbreak hb.2⟩
      -- the front entry is the first one over the capacity
      have hdrop : entries.len - shardCapacity =
          ((entries.remove key).len - shardCapacity) + 1 := by
        omega
      rw [hlisting, hcons, hdrop, List.drop_succ_cons]
    · rw [if_neg hover]
      have hzero : entries.len - shardCapacity = 0 := by
        omega
      refine ⟨h, ?_, fun hb => hover hb.1⟩
      rw [hzero, List.drop_zero]
      rfl

/-- Where the read lock decides a lookup, the write lock would decide the same
and leave the shard as it is. -/
theorem getRead_spec (state : CacheState) (key : CacheKey) (ttl : Option Duration)
    (now : Instant) :
    match state.getRead key ttl now with
    | .hit grants => state.getWrite key ttl now = (some grants, state)
    | .miss => state.getWrite key ttl now = (none, state)
    | .locked => True := by
  unfold getRead getWrite
  cases hentry : state.entries.get key with
  | none => simp
  | some entry =>
    by_cases hexpired : entry.isExpiredFor ttl now = true
    · simp [hexpired]
    · by_cases hlast : state.order.getLast? = some key
      · -- the key is at the recent end already, so the slow path would not move it
        simp [hexpired, hlast, touch]
      · simp [hexpired, hlast]

/-- The lookup under the write lock is that of the list. -/
theorem getWrite_spec (h : state.Paired) (key : CacheKey) (ttl : Option Duration)
    (now : Instant) :
    (state.getWrite key ttl now).2.Paired ∧
      (state.getWrite key ttl now).2.listing =
        (Lru.get (expiredAt ttl now) state.listing key).2 ∧
      (state.getWrite key ttl now).1 =
        (Lru.get (expiredAt ttl now) state.listing key).1.map CacheEntry.grants := by
  unfold getWrite Lru.get
  have hlookup : Lru.lookup state.listing key = state.entries.get key :=
    HashMap.Listed.lookup_listing h key
  rw [hlookup]
  cases hentry : state.entries.get key with
  | none => exact ⟨h, rfl, rfl⟩
  | some entry =>
    by_cases hexpired : entry.isExpiredFor ttl now = true
    -- an expired entry is removed, any other moved to the end
    · obtain ⟨hpaired, hlisting⟩ := removeKey_spec h hentry
      simp only [expiredAt, hexpired, if_true]
      exact ⟨hpaired, hlisting, rfl⟩
    · obtain ⟨hpaired, hlisting⟩ := touch_spec h hentry
      simp only [expiredAt, hexpired]
      exact ⟨hpaired, hlisting, rfl⟩

/-- So is a set. -/
theorem set_spec (h : state.Paired) (key : CacheKey) (grants : List EffectiveGrant)
    (ttl : Option Duration) (now : Instant) (shardCapacity : ℕ) :
    (state.set key grants ttl now shardCapacity).Paired ∧
      (state.set key grants ttl now shardCapacity).listing =
        Lru.set (expiredAt ttl now) shardCapacity state.listing key ⟨grants, now⟩ := by
  obtain ⟨hpaired, hlisting⟩ := beforeEvict_spec h key grants ttl now
  have hlen : (state.beforeEvict key grants ttl now).listing.length =
      (state.beforeEvict key grants ttl now).entries.len := hpaired.length_listing
  have hset : Lru.set (expiredAt ttl now) shardCapacity state.listing key ⟨grants, now⟩ =
      (state.beforeEvict key grants ttl now).listing.drop
        ((state.beforeEvict key grants ttl now).entries.len - shardCapacity) := by
    rw [← hlen, hlisting]
    rfl
  rw [set_eq, hset]
  unfold evictIfNeeded
  by_cases hzero : shardCapacity = 0
  -- without room everything goes
  · rw [if_pos hzero, hzero, Nat.sub_zero, ← hlen, List.drop_length]
    exact ⟨paired_empty, listing_empty⟩
  · rw [if_neg hzero]
    obtain ⟨hevicted, hdrop, _⟩ := evictLoop_spec hpaired shardCapacity
    exact ⟨hevicted, hdrop⟩

end CacheState

/-! ## Lock sections -/

namespace Section

variable {act : Section} {state : CacheState}

/-- Every section leaves the queue and the map in step. -/
theorem run_paired (act : Section) (h : state.Paired) : (act.run state).2.Paired := by
  cases act with
  | getRead key ttl now => exact h
  | getWrite key ttl now => exact (CacheState.getWrite_spec h key ttl now).1
  | set key grants ttl now shardCapacity =>
    exact (CacheState.set_spec h key grants ttl now shardCapacity).1
  | invalidatePrincipal tenant principal => exact (CacheState.retain_spec h _).1
  | invalidateTenant tenant => exact (CacheState.retain_spec h _).1
  | invalidateAll => exact CacheState.paired_empty

/-- A section adds no entry to those there were, unless it is a set, which keeps
to its capacity. -/
theorem run_len_le {n : ℕ} (h : state.Paired) (hlen : state.entries.len ≤ n)
    (hset : ∀ key grants ttl now shardCapacity,
      act = .set key grants ttl now shardCapacity → shardCapacity ≤ n) :
    (act.run state).2.entries.len ≤ n := by
  cases act with
  | set key grants ttl now shardCapacity =>
    obtain ⟨hpaired, hlisting⟩ := CacheState.set_spec h key grants ttl now shardCapacity
    have hle : (state.set key grants ttl now shardCapacity).listing.length ≤ shardCapacity := by
      rw [hlisting]
      exact Lru.length_set_le
    have heq : (state.set key grants ttl now shardCapacity).listing.length =
        (state.set key grants ttl now shardCapacity).entries.len := hpaired.length_listing
    have hcapacity : shardCapacity ≤ n := hset key grants ttl now shardCapacity rfl
    show (state.set key grants ttl now shardCapacity).entries.len ≤ n
    omega
  | _ =>
    refine le_trans (HashMap.len_le fun k e he => ?_) hlen
    rcases Section.entry_after he with ⟨ttl, shardCapacity, hact⟩ | ⟨hbefore, _, _⟩
    · cases hact
    · exact hbefore

end Section

end RsTenant
