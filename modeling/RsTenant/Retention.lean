import RsTenant.LruRefinement

/-! # What the memory cache keeps

An entry stays in the cache for as long as it is neither invalidated, replaced
nor looked at after it has expired, and fewer other keys of its shard than there
are places are used after it. This is so over every interleaving
(`lru_retention`): the queue has the entry with nothing but entries of these
keys behind it (`Lru.Recent`), so no eviction reaches it.
-/

namespace RsTenant

open Interact

open CacheState (expiredAt)

section

variable [DefaultHasher] {cache : MemoryCache} {ks : List CacheKey} {key : CacheKey}
  {entry : CacheEntry}

/-- What may happen to the entry's shard: lookups of the key while it is alive,
lookups that find one of the keys `ks`, sets of these keys by handles for which
the entry has not expired, and invalidations that do not concern it. -/
def Spares (ks : List CacheKey) (key : CacheKey) (entry : CacheEntry) : Event WorldSig → Prop
  | ⟨.locked _ (.getWrite k ttl now), found⟩ =>
    (k = key → entry.isExpiredFor ttl now = false) ∧ (found.isSome → k = key ∨ k ∈ ks)
  | ⟨.locked _ (.set k _ ttl now _), _⟩ =>
    entry.isExpiredFor ttl now = false ∧ k ≠ key ∧ k ∈ ks
  | ⟨.locked _ act, _⟩ => ¬ act.Drops key
  | _ => True

/-- One section on the shard. -/
theorem recent_run {state : CacheState} {act : Section} {i : ℕ}
    (hperforms : cache.Performs (.locked i act)) (hi : i = cache.shardIndex key)
    (hks : ks.length < cache.shardCapacity key) (hpaired : state.Paired)
    (h : Lru.Recent ks key entry state.listing)
    (hspares : Spares ks key entry ⟨.locked i act, (act.run state).1⟩) :
    Lru.Recent ks key entry (act.run state).2.listing := by
  have hdistinct : Lru.Distinct state.listing := hpaired.distinct
  have hinvalidate : ∀ inv : Invalidation, ¬ inv.act.Drops key →
      Lru.Recent ks key entry (inv.act.run state).2.listing := by
    intro inv hdrops
    rw [(CacheState.invalidate_spec hpaired inv).2]
    refine h.filter ?_
    rw [Bool.not_eq_true', decide_eq_false_iff_not]
    exact fun hcovers => hdrops ((inv.drops_iff key).mpr hcovers)
  cases act with
  | getRead k ttl now => exact h
  | getWrite k ttl now =>
    obtain ⟨-, hlisting, hanswer⟩ := CacheState.getWrite_spec hpaired k ttl now
    show Lru.Recent ks key entry (state.getWrite k ttl now).2.listing
    rw [hlisting]
    refine h.get hdistinct hspares.1 fun hfound => hspares.2 ?_
    show (state.getWrite k ttl now).1.isSome = true
    rw [hanswer, Option.isSome_map]
    exact hfound
  | set k grants ttl now shardCapacity =>
    obtain ⟨-, hshare, -⟩ := hperforms.of_set
    have hcapacity : shardCapacity = cache.shardCapacity key := by
      rw [hshare, hi, cache.getD_shardIndex]
    obtain ⟨hlive, hne, hmem⟩ := hspares
    show Lru.Recent ks key entry (state.set k grants ttl now shardCapacity).listing
    rw [(CacheState.set_spec hpaired k grants ttl now shardCapacity).2, hcapacity]
    exact h.set hdistinct hks hlive hne hmem _
  | invalidatePrincipal t p => exact hinvalidate (.principal t p) hspares
  | invalidateTenant t => exact hinvalidate (.tenant t) hspares
  | invalidateAll => exact hinvalidate .all hspares

/-- One step of anyone. -/
theorem recent_step {w : World} {ev : Event WorldSig}
    (hperforms : cache.Performs ev.op ∨ ∀ i act, ev.op ≠ .locked i act)
    (hresp : ev.resp = (World.handle ev.op w).1) (hks : ks.length < cache.shardCapacity key)
    (hinv : CacheInvariant cache w) (hspares : ∀ act, ev.op = .locked (cache.shardIndex key) act →
      Spares ks key entry ev)
    (h : Lru.Recent ks key entry (w.shards (cache.shardIndex key)).listing) :
    Lru.Recent ks key entry
      ((World.handle ev.op w).2.shards (cache.shardIndex key)).listing := by
  obtain ⟨op, r⟩ := ev
  cases op with
  | locked i act =>
    have hlocked : cache.Performs (.locked i act) :=
      hperforms.resolve_right fun hno => hno i act rfl
    show Lru.Recent ks key entry
      (Function.update w.shards i (act.run (w.shards i)).2 (cache.shardIndex key)).listing
    by_cases hi : cache.shardIndex key = i
    · subst hi
      rw [Function.update_self]
      have hspares' := hspares act rfl
      have hr : r = (act.run (w.shards (cache.shardIndex key))).1 := hresp
      rw [hr] at hspares'
      exact recent_run hlocked rfl hks (hinv _).paired h hspares'
    · rw [Function.update_of_ne hi]
      exact h
  | _ => exact h

end

/-- Over every interleaving: once an entry is written, it stays for as long as
what happens to its shard spares it and the other keys used there are fewer
than the places. -/
theorem lru_retention [DefaultHasher] (cache : MemoryCache) (w : World) (hw : w.Fresh)
    (parties : ℕ → Party) (sched : List ℕ) (l m : List (Occ WorldSig World))
    (s : Occ WorldSig World) (hhist : (after cache w parties sched).hist = l ++ s :: m)
    (key : CacheKey) (entry : CacheEntry) (hwrites : s.event.op.Writes cache key entry)
    (ks : List CacheKey) (hks : ks.length < cache.shardCapacity key)
    (hspares : ∀ o ∈ m, ∀ act, o.event.op = .locked (cache.shardIndex key) act →
      Spares ks key entry o.event) :
    (after cache w parties sched).shared.entry (cache.shardIndex key) key = some entry := by
  have hrecords := (after_history cache w parties sched).1
  have hall : ∀ o ∈ s :: m, o ∈ (after cache w parties sched).hist := by
    intro o ho
    rw [hhist]
    exact List.mem_append_right _ ho
  have hs : s ∈ (after cache w parties sched).hist := hall s List.mem_cons_self
  rw [hhist] at hrecords
  obtain ⟨_, -, rfl, -, hlater⟩ := records_append.mp hrecords
  -- right after the write the entry is the most recently used one
  have hstart : Lru.Recent ks key entry
      ((World.handle s.event.op s.pre).2.shards (cache.shardIndex key)).listing := by
    obtain ⟨ttl, shardCapacity, hop⟩ := hwrites
    rw [hop]
    show Lru.Recent ks key entry (Function.update s.pre.shards _ _ (cache.shardIndex key)).listing
    rw [Function.update_self]
    show Lru.Recent ks key entry (CacheState.set _ _ _ _ _ _).listing
    rw [(CacheState.set_spec ((cacheInvariant_before hw hs) _).paired _ _ _ _ _).2]
    have hperforms := (performs_after hs).resolve_right fun hno => hno _ _ hop
    rw [hop] at hperforms
    exact Lru.recent_set hperforms.of_set.2.2 entry
  have hend : Lru.Recent ks key entry
      ((after cache w parties sched).shared.shards (cache.shardIndex key)).listing := by
    refine hlater.invariant
      (P := fun w' : World => Lru.Recent ks key entry (w'.shards (cache.shardIndex key)).listing)
      hstart fun o ho h => ?_
    have hmem := hall o (List.mem_cons_of_mem _ ho)
    exact recent_step (performs_after hmem) (hlater.resp o ho) hks (cacheInvariant_before hw hmem)
      (hspares o ho) h
  -- the list has the entries of the map
  have hinv : CacheInvariant cache (after cache w parties sched).shared := cacheInvariant_after hw
  have hpaired := (hinv (cache.shardIndex key)).paired
  have hlookup := Lru.lookup_of_mem hpaired.distinct hend.mem
  rw [hpaired.lookup_listing] at hlookup
  exact hlookup

namespace Sample

/-- Two parties set two keys of one shard. -/
def writers (k : ℕ) : Party :=
  if k = 0 then .set none (keyFor 'a') grants else .set none (keyFor 'b') grants

end Sample

theorem lru_retention_sample :
    (@after Sample.hasher Sample.cache Sample.world Sample.writers [0, 0, 1, 1]).shared.entry 0
      (Sample.keyFor 'a') = some ⟨Sample.grants, 0⟩ := by
  refine @lru_retention Sample.hasher Sample.cache Sample.world (fun _ => rfl) Sample.writers
    [0, 0, 1, 1] [_] [_, _] _ rfl (Sample.keyFor 'a') ⟨Sample.grants, 0⟩ ⟨none, 2, rfl⟩
    [Sample.keyFor 'b'] (by decide) ?_
  intro o ho act hop
  simp only [List.mem_cons, List.not_mem_nil, or_false] at ho
  rcases ho with rfl | rfl
  · cases hop
  · exact ⟨rfl, by decide, List.mem_cons_self⟩

end RsTenant
