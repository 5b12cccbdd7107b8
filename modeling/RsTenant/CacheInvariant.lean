import RsTenant.CacheHistory
import RsTenant.CacheListing

/-! # The representation invariant of the memory cache

However the calls on clones of a cache take turns, after every lock section
each shard has its keys in the queue, each once, all of them keys that hash to
this shard, and no more of them than its share of the capacity
(`memory_cache_invariant`). So indexing a shard stays in bounds, and eviction
never takes one of its two emergency exits.
-/

namespace RsTenant

open Interact

/-! ## The split of the capacity -/

theorem sum_range_lt (r n : ℕ) :
    ((List.range n).map fun i => if i < r then 1 else 0).sum = min r n := by
  induction n with
  | zero => simp
  | succ n ih =>
    rw [List.range_succ, List.map_append, List.sum_append, ih]
    by_cases h : n < r
    · simp [h]
      omega
    · simp [h]
      omega

/-- The shares add up to the capacity. -/
theorem sum_shardCapacitiesOf (capacity : ℕ) {shardCount : ℕ} (h : 0 < shardCount) :
    (shardCapacitiesOf capacity shardCount).sum = capacity := by
  have hshare : ((List.range shardCount).map fun _ => capacity / shardCount).sum =
      shardCount * (capacity / shardCount) := by
    simp
  have hrest : ((List.range shardCount).map fun i =>
      if i < capacity % shardCount then 1 else 0).sum = capacity % shardCount := by
    rw [sum_range_lt]
    have hlt : capacity % shardCount < shardCount := Nat.mod_lt _ h
    omega
  unfold shardCapacitiesOf
  rw [List.sum_map_add, hshare, hrest]
  exact Nat.div_add_mod capacity shardCount

namespace MemoryCache

variable (cache : MemoryCache)

/-- Every shard has a capacity of its own. -/
theorem length_shardCapacities : cache.shardCapacities.length = cache.shardCount := by
  rw [cache.shardCapacities_eq, shardCapacitiesOf, List.length_map, List.length_range]

/-- Together they make the capacity of the cache. -/
theorem sum_shardCapacities : cache.shardCapacities.sum = cache.capacity := by
  rw [cache.shardCapacities_eq]
  exact sum_shardCapacitiesOf cache.capacity cache.shardCount_pos

/-- There are no more shards than entries to keep. -/
theorem one_le_of_mem_shardCapacities (h : cache.capacity ≠ 0) :
    ∀ c ∈ cache.shardCapacities, 1 ≤ c := by
  intro c hc
  rw [cache.shardCapacities_eq, shardCapacitiesOf, List.mem_map] at hc
  rcases hc with ⟨i, -, rfl⟩
  have hshare : 1 ≤ cache.capacity / cache.shardCount :=
    (Nat.one_le_div_iff cache.shardCount_pos).mpr (cache.shardCount_le h)
  omega

variable [DefaultHasher]

theorem getD_shardIndex (key : CacheKey) :
    cache.shardCapacities.getD (cache.shardIndex key) 0 = cache.shardCapacity key := by
  unfold shardCapacity
  have hlt := cache.shardIndex_lt_length key
  rw [List.getD_eq_getElem?_getD, List.getElem?_eq_getElem hlt]
  rfl

/-- And none of them is zero, unless the cache holds nothing. -/
theorem shardCapacity_pos (h : cache.capacity ≠ 0) (key : CacheKey) :
    0 < cache.shardCapacity key :=
  cache.one_le_of_mem_shardCapacities h _ (List.get_mem _ _)

end MemoryCache

/-! ## The invariant -/

section

variable [DefaultHasher] {cache : MemoryCache}

/-- The queue and the map of the shard are in step, its keys belong here, and
they are within its capacity. -/
structure ShardInvariant (cache : MemoryCache) (i : ℕ) (state : CacheState) : Prop where
  paired : state.Paired
  placed : ∀ k ∈ state.order, cache.shardIndex k = i
  bounded : state.entries.len ≤ cache.shardCapacities.getD i 0

/-- A fresh shard meets the invariant. -/
theorem shardInvariant_empty (cache : MemoryCache) (i : ℕ) :
    ShardInvariant cache i CacheState.empty where
  paired := CacheState.paired_empty
  placed _ hk := absurd hk List.not_mem_nil
  bounded := Nat.zero_le _

theorem MemoryCache.Performs.lt_shardCount {i : ℕ} {act : Section}
    (h : cache.Performs (.locked i act)) : i < cache.shardCount := by
  cases h with
  | getRead key ttl now => exact cache.shardIndex_lt key
  | getWrite key ttl now => exact cache.shardIndex_lt key
  | set hcapacity key grants ttl now => exact cache.shardIndex_lt key
  | invalidate hi inv => exact hi

/-- A set is only performed with room for its entry, on the shard of its key. -/
theorem MemoryCache.Performs.of_set {i : ℕ} {key : CacheKey} {grants : List EffectiveGrant}
    {ttl : Option Duration} {now : Instant} {shardCapacity : ℕ}
    (h : cache.Performs (.locked i (.set key grants ttl now shardCapacity))) :
    i = cache.shardIndex key ∧ shardCapacity = cache.shardCapacities.getD i 0 ∧
      0 < shardCapacity := by
  generalize hact : Section.set key grants ttl now shardCapacity = act at h
  cases h with
  | getRead key ttl now => cases hact
  | getWrite key ttl now => cases hact
  | set hcapacity key grants ttl now =>
    cases hact
    exact ⟨rfl, (cache.getD_shardIndex key).symm, cache.shardCapacity_pos hcapacity key⟩
  | invalidate hi inv => cases inv <;> cases hact

/-- A lock section keeps the invariant of its shard. -/
theorem shardInvariant_run {i : ℕ} {act : Section} (hop : cache.Performs (.locked i act))
    {state : CacheState} (h : ShardInvariant cache i state) :
    ShardInvariant cache i (act.run state).2 := by
  have hpaired := act.run_paired h.paired
  refine ⟨hpaired, fun k hk => ?_, ?_⟩
  · have hkey : k ∈ (act.run state).2.entries.keys := (hpaired.mem_iff k).mp hk
    rcases Option.isSome_iff_exists.mp (((act.run state).2.entries.mem_keys k).mp hkey) with
      ⟨e, he⟩
    -- either this section has set the key, or it was here before
    rcases Section.entry_after he with ⟨ttl, shardCapacity, rfl⟩ | ⟨hbefore, -, -⟩
    · exact hop.of_set.1.symm
    · apply h.placed k
      rw [h.paired.mem_iff, state.entries.mem_keys, hbefore]
      rfl
  -- only a set adds an entry, and it evicts down to the share of this shard
  · apply act.run_len_le h.paired h.bounded
    rintro key grants ttl now shardCapacity rfl
    exact hop.of_set.2.1.le

/-- All shards meet it. -/
def CacheInvariant (cache : MemoryCache) (w : World) : Prop :=
  ∀ i, ShardInvariant cache i (w.shards i)

/-- No step of a call, change of the data or passing of time breaks the
invariant. -/
theorem cacheInvariant_step {op : WorldOp}
    (hop : cache.Performs op ∨ ∀ i act, op ≠ .locked i act) {w : World}
    (h : CacheInvariant cache w) : CacheInvariant cache (World.handle op w).2 := by
  intro j
  cases op with
  | locked i act =>
    have hlocked : cache.Performs (.locked i act) := hop.resolve_right fun hno => hno i act rfl
    show ShardInvariant cache j (Function.update w.shards i (act.run (w.shards i)).2 j)
    -- the other shards are not touched
    by_cases hj : j = i
    · subst hj
      rw [Function.update_self]
      exact shardInvariant_run hlocked (h j)
    · rw [Function.update_of_ne hj]
      exact h j
  | _ => exact h j

theorem cacheInvariant_fresh {w : World} (hw : w.Fresh) : CacheInvariant cache w := by
  intro i
  rw [hw i]
  exact shardInvariant_empty cache i

/-! ## Runs -/

variable {w : World} {parties : ℕ → Party} {sched : List ℕ}

/-- Every lock that is taken is one of the calls'. -/
theorem performs_after {o : Occ WorldSig World} (ho : o ∈ (after cache w parties sched).hist) :
    cache.Performs o.event.op ∨ ∀ i act, o.event.op ≠ .locked i act := by
  have hpath := (after_history cache w parties sched).2.1 o.thread
  have honly : ((parties o.thread).prog cache).Only fun op : WorldOp =>
      cache.Performs op ∨ ∀ i act, op ≠ .locked i act :=
    prog_only (fun op hop => .inl hop) (fun _ => .inr fun _ _ => WorldOp.noConfusion)
      (fun _ => .inr fun _ _ => WorldOp.noConfusion) _
  exact (hpath.only honly).1 _ (mem_trail.mpr ⟨o, ho, rfl, rfl⟩)

/-- So it holds in every state that can be reached. -/
theorem cacheInvariant_after (hw : w.Fresh) :
    CacheInvariant cache (after cache w parties sched).shared :=
  (after_history cache w parties sched).1.invariant (cacheInvariant_fresh hw)
    fun _ ho => cacheInvariant_step (performs_after ho)

/-- The invariant holds whenever a step is about to be taken, too. -/
theorem cacheInvariant_before (hw : w.Fresh) {o : Occ WorldSig World}
    (ho : o ∈ (after cache w parties sched).hist) : CacheInvariant cache o.pre :=
  (after_history cache w parties sched).1.invariant_at (cacheInvariant_fresh hw)
    (fun _ ho => cacheInvariant_step (performs_after ho)) o ho

/-- Together the shards hold no more than the capacity. -/
theorem CacheInvariant.len_le_capacity (h : CacheInvariant cache w) :
    ((List.range cache.shardCount).map fun i => (w.shards i).entries.len).sum ≤
      cache.capacity := by
  have hshares : (List.range cache.shardCount).map (fun i => cache.shardCapacities.getD i 0) =
      cache.shardCapacities := by
    rw [← cache.length_shardCapacities]
    apply List.ext_getElem
    · simp
    · intro i h₁ h₂
      simp [List.getElem?_eq_getElem h₂]
  calc ((List.range cache.shardCount).map fun i => (w.shards i).entries.len).sum
      ≤ ((List.range cache.shardCount).map fun i => cache.shardCapacities.getD i 0).sum :=
        List.sum_le_sum fun i _ => (h i).bounded
    _ = cache.shardCapacities.sum := by rw [hshares]
    _ = cache.capacity := cache.sum_shardCapacities

end

/-- Whatever the capacity, the number of shards and the TTL of each handle:
after every step of any interleaving of calls, the queue of each shard has the
keys of its map, each once; they all hash to this shard and are within its
share of the capacity. The shares add up to the capacity, so the cache as a
whole keeps to it, and none is zero unless the cache is disabled. Every lock is
that of an existing shard, and when a set evicts, its share is not zero and the
queue never runs out first. -/
theorem memory_cache_invariant [DefaultHasher] (cache : MemoryCache) (w : World) (hw : w.Fresh)
    (parties : ℕ → Party) (sched : List ℕ) :
    let pool := after cache w parties sched
    (∀ i, (pool.shared.shards i).order.Nodup ∧
      (∀ k, k ∈ (pool.shared.shards i).order ↔
        ((pool.shared.shards i).entries.get k).isSome) ∧
      (∀ k, ((pool.shared.shards i).entries.get k).isSome → cache.shardIndex k = i) ∧
      (pool.shared.shards i).entries.len ≤ cache.shardCapacities.getD i 0) ∧
    cache.shardCapacities.sum = cache.capacity ∧
    (cache.capacity ≠ 0 → ∀ c ∈ cache.shardCapacities, 1 ≤ c) ∧
    ((List.range cache.shardCount).map fun i => (pool.shared.shards i).entries.len).sum ≤
      cache.capacity ∧
    0 < cache.shardCount ∧ cache.shardCapacities.length = cache.shardCount ∧
    (∀ key, cache.shardIndex key < cache.shardCount) ∧
    ∀ o ∈ pool.hist, ∀ i act, o.event.op = .locked i act → i < cache.shardCount ∧
      ∀ key grants ttl now shardCapacity, act = .set key grants ttl now shardCapacity →
        shardCapacity = cache.shardCapacities.getD i 0 ∧ shardCapacity ≠ 0 ∧
          ¬ CacheState.EvictLoopBreaks shardCapacity
            ((o.pre.shards i).beforeEvict key grants ttl now).entries
            ((o.pre.shards i).beforeEvict key grants ttl now).order := by
  intro pool
  have hafter : CacheInvariant cache pool.shared := cacheInvariant_after hw
  refine ⟨fun i => ?_, cache.sum_shardCapacities, cache.one_le_of_mem_shardCapacities,
    hafter.len_le_capacity, cache.shardCount_pos, cache.length_shardCapacities,
    cache.shardIndex_lt, fun o ho i act hop => ?_⟩
  · have hkeys : ∀ k, k ∈ (pool.shared.shards i).order ↔
        ((pool.shared.shards i).entries.get k).isSome := by
      intro k
      rw [(hafter i).paired.mem_iff, HashMap.mem_keys]
    refine ⟨(hafter i).paired.nodup, hkeys, fun k hk => ?_, (hafter i).bounded⟩
    exact (hafter i).placed k ((hkeys k).mpr hk)
  · have hperforms : cache.Performs (.locked i act) := by
      rcases performs_after ho with h | h
      · exact hop ▸ h
      · exact absurd hop (h i act)
    refine ⟨hperforms.lt_shardCount, ?_⟩
    rintro key grants ttl now shardCapacity rfl
    rcases hperforms.of_set with ⟨-, hshare, hpos⟩
    -- the lock was taken on a shard in which the queue and the map were in step
    have hpaired := (cacheInvariant_before hw ho i).paired
    have hbefore := (CacheState.beforeEvict_spec hpaired key grants ttl now).1
    exact ⟨hshare, by omega, (CacheState.evictLoop_spec hbefore shardCapacity).2.2⟩

/-- After somebody has set the clerk's grants and somebody else has found them. -/
theorem memory_cache_invariant_sample :
    let shards := (@after Sample.hasher Sample.cache Sample.world Sample.readers
      [0, 1, 0, 1]).shared.shards
    (shards 0).order.Nodup ∧ (∀ k, k ∈ (shards 0).order ↔ ((shards 0).entries.get k).isSome) ∧
      (∀ k, ((shards 0).entries.get k).isSome →
        @MemoryCache.shardIndex Sample.hasher Sample.cache k = 0) ∧
      (shards 0).entries.len ≤ 2 :=
  (@memory_cache_invariant Sample.hasher Sample.cache Sample.world (fun _ => rfl) Sample.readers
    [0, 1, 0, 1]).1 0

end RsTenant
