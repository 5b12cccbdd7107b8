import RsTenant.CacheState
import RsTenant.Lib.Pool
import RsTenant.Queries

/-! # The memory cache next to its users

A `MemoryCache` handle says how the shards are laid out; the shards themselves
are part of the `World`, with the source and the clock. The calls of the
`Cache` trait are programs whose steps are a clock reading and lock sections,
so anything may happen between two sections of one call.

`lower` puts the cache under an engine. A `Party` is one call that someone
makes, and the parties of a pool share one world.
-/

namespace RsTenant

open Interact

/-! ## The world -/

/-- One step of a call: a source read, a clock reading or a lock section; or a
change of the stored data, or time passing. -/
inductive WorldOp where
  | read (r : SourceRead)
  | now
  | locked (shardIndex : ℕ) (act : Section)
  | mutate (change : AuthorizationSource → AuthorizationSource)
  | advance (d : Duration)

abbrev WorldOp.Resp : WorldOp → Type
  | .read r => Except SourceError r.Answer
  | .now => Instant
  | .locked _ act => act.Resp
  | .mutate _ => Unit
  | .advance _ => Unit

/-- The world answers the reads, the clock and the lock sections. -/
abbrev WorldSig : Sig where
  Op := WorldOp
  Resp := WorldOp.Resp

/-- What the calls share: the source, the shards of the cache and the clock. -/
structure World where
  source : AuthorizationSource
  shards : ℕ → CacheState
  clock : Instant

namespace World

/-- What a step returns and leaves behind. -/
def handle : Handler WorldSig World
  | .read r, w => (w.source.answer r, w)
  | .now, w => (w.clock, w)
  | .locked i act, w =>
    ((act.run (w.shards i)).1,
      { w with shards := Function.update w.shards i (act.run (w.shards i)).2 })
  | .mutate change, w => ((), { w with source := change w.source })
  | .advance d, w => ((), { w with clock := w.clock + d })

/-- The entry of a key, in the shard it is kept in. -/
def entry (w : World) (i : ℕ) (key : CacheKey) : Option CacheEntry := (w.shards i).entries.get key

/-- A lock section does to its shard what it does alone. -/
theorem entry_locked_self (w : World) (i : ℕ) (act : Section) (key : CacheKey) :
    (handle (.locked i act) w).2.entry i key = (act.run (w.shards i)).2.entries.get key := by
  show (Function.update w.shards i (act.run (w.shards i)).2 i).entries.get key = _
  rw [Function.update_self]

/-- And nothing to the others. -/
theorem entry_locked_ne (w : World) {i j : ℕ} (h : j ≠ i) (act : Section) (key : CacheKey) :
    (handle (.locked i act) w).2.entry j key = w.entry j key := by
  show (Function.update w.shards i (act.run (w.shards i)).2 j).entries.get key = _
  rw [Function.update_of_ne h]
  rfl

/-- No shard has an entry. -/
def Fresh (w : World) : Prop := ∀ i, w.shards i = CacheState.empty

end World

/-! ## Handles -/

/-- `DefaultHasher`, as what `finish` returns for a key; its algorithm is not
specified. -/
class DefaultHasher where
  finish : CacheKey → ℕ

/-- `shard_capacities`: the capacity spread over the shards, the first ones
taking the remainder. -/
def shardCapacitiesOf (capacity shardCount : ℕ) : List ℕ :=
  (List.range shardCount).map fun i =>
    capacity / shardCount + if i < capacity % shardCount then 1 else 0

/-- A handle on a cache. Clones share their shards, and differ at most in the
time to live that `with_ttl` gives them. -/
structure MemoryCache where
  shardCapacities : List ℕ
  shardCount : ℕ
  capacity : ℕ
  ttl : Option Duration
  shardCount_pos : 0 < shardCount
  shardCount_le : capacity ≠ 0 → shardCount ≤ capacity
  shardCapacities_eq : shardCapacities = shardCapacitiesOf capacity shardCount

namespace MemoryCache

def smallCacheShardThreshold : ℕ := 128

def maxDefaultShards : ℕ := 16

/-- At least one shard, and no more than there is capacity. -/
def normalizeShards (capacity requested : ℕ) : ℕ :=
  if capacity = 0 then 1 else min (max requested 1) capacity

/-- There is always a shard to put an entry into. -/
theorem normalizeShards_pos (capacity requested : ℕ) : 0 < normalizeShards capacity requested := by
  unfold normalizeShards
  split <;> omega

theorem normalizeShards_le {capacity : ℕ} (h : capacity ≠ 0) (requested : ℕ) :
    normalizeShards capacity requested ≤ capacity := by
  unfold normalizeShards
  split <;> omega

/-- `available` is what `available_parallelism` returns, if it does. -/
def defaultShardCount (available : Option ℕ) (capacity : ℕ) : ℕ :=
  if capacity < smallCacheShardThreshold then
    1
  else
    normalizeShards capacity (min (available.getD 4) maxDefaultShards)

theorem defaultShardCount_pos (available : Option ℕ) (capacity : ℕ) :
    0 < defaultShardCount available capacity := by
  unfold defaultShardCount
  split
  · exact Nat.one_pos
  · exact normalizeShards_pos _ _

theorem defaultShardCount_le (available : Option ℕ) {capacity : ℕ} (h : capacity ≠ 0) :
    defaultShardCount available capacity ≤ capacity := by
  unfold defaultShardCount
  split
  · exact Nat.one_le_iff_ne_zero.mpr h
  · exact normalizeShards_le h _

def new (available : Option ℕ) (capacity : ℕ) : MemoryCache where
  shardCapacities := shardCapacitiesOf capacity (defaultShardCount available capacity)
  shardCount := defaultShardCount available capacity
  capacity := capacity
  ttl := none
  shardCount_pos := defaultShardCount_pos available capacity
  shardCount_le := defaultShardCount_le available
  shardCapacities_eq := rfl

/-- A handle on as many new shards as asked for. -/
def withShards (cache : MemoryCache) (shards : ℕ) : MemoryCache where
  shardCapacities :=
    shardCapacitiesOf cache.capacity (normalizeShards cache.capacity shards)
  shardCount := normalizeShards cache.capacity shards
  capacity := cache.capacity
  ttl := cache.ttl
  shardCount_pos := normalizeShards_pos _ _
  shardCount_le h := normalizeShards_le h _
  shardCapacities_eq := rfl

def withTtl (cache : MemoryCache) (ttl : Duration) : MemoryCache := { cache with ttl := some ttl }

/-- A handle on the same shards that has its own time to live, or none. -/
def cloneWith (cache : MemoryCache) (ttl : Option Duration) : MemoryCache :=
  { cache with ttl := ttl }

variable [DefaultHasher]

def shardIndex (cache : MemoryCache) (key : CacheKey) : ℕ :=
  DefaultHasher.finish key % cache.shardCount

/-- Every key has a shard. -/
theorem shardIndex_lt (cache : MemoryCache) (key : CacheKey) :
    cache.shardIndex key < cache.shardCount :=
  Nat.mod_lt _ cache.shardCount_pos

theorem shardIndex_lt_length (cache : MemoryCache) (key : CacheKey) :
    cache.shardIndex key < cache.shardCapacities.length := by
  rw [cache.shardCapacities_eq, shardCapacitiesOf, List.length_map, List.length_range]
  exact cache.shardIndex_lt key

/-- The capacity of the shard that keeps the key. -/
def shardCapacity (cache : MemoryCache) (key : CacheKey) : ℕ :=
  cache.shardCapacities.get ⟨cache.shardIndex key, cache.shardIndex_lt_length key⟩

/-! ## The calls of the cache -/

/-- One lock section. -/
def lockShard (i : ℕ) (act : Section) : Prog WorldSig act.Resp :=
  Prog.perform (S := WorldSig) (.locked i act)

/-- The read lock is enough for a miss and for the newest entry; an entry that has
expired, or has to become the newest, takes the write lock. -/
def getEffectiveGrants (cache : MemoryCache) (key : CacheKey) :
    Prog WorldSig (Option (List EffectiveGrant)) :=
  if cache.capacity = 0 then
    return none
  else do
    -- sampled before either lock is taken
    let now ← Prog.perform (S := WorldSig) .now
    let phase ← lockShard (cache.shardIndex key) (.getRead key cache.ttl now)
    match phase with
    | .hit grants => return some grants
    | .miss => return none
    | .locked => lockShard (cache.shardIndex key) (.getWrite key cache.ttl now)

/-- One insertion under the write lock of the key's shard. -/
def setEffectiveGrants (cache : MemoryCache) (key : CacheKey) (grants : List EffectiveGrant) :
    Prog WorldSig Unit :=
  if cache.capacity = 0 then
    return ()
  else do
    let now ← Prog.perform (S := WorldSig) .now
    lockShard (cache.shardIndex key)
      (.set key grants cache.ttl now (cache.shardCapacity key))

/-- The steps of a lookup: it reads the clock, and takes the lock of its key's
shard at most twice. -/
theorem getEffectiveGrants_only (cache : MemoryCache) (key : CacheKey) {P : WorldOp → Prop}
    (hnow : P .now)
    (hread : ∀ now, P (.locked (cache.shardIndex key) (.getRead key cache.ttl now)))
    (hwrite : ∀ now, P (.locked (cache.shardIndex key) (.getWrite key cache.ttl now))) :
    (cache.getEffectiveGrants key).Only P := by
  unfold getEffectiveGrants
  split
  · trivial
  · refine ⟨hnow, fun now => ⟨hread now, fun phase => ?_⟩⟩
    cases phase with
    | hit grants => trivial
    | miss => trivial
    | locked => exact ⟨hwrite now, fun _ => trivial⟩

/-- The ways in which a lookup returns. -/
theorem getEffectiveGrants_cases {cache : MemoryCache} {key : CacheKey} {tr : List (Event WorldSig)}
    {cached : Option (List EffectiveGrant)}
    (h : Prog.Path (cache.getEffectiveGrants key) tr (.ret cached)) :
    (tr = [] ∧ cached = none) ∨
      ∃ now,
        (∃ grants, cached = some grants ∧ tr = [⟨.now, now⟩,
          ⟨.locked (cache.shardIndex key) (.getRead key cache.ttl now), .hit grants⟩]) ∨
        (cached = none ∧ tr = [⟨.now, now⟩,
          ⟨.locked (cache.shardIndex key) (.getRead key cache.ttl now), .miss⟩]) ∨
        tr = [⟨.now, now⟩,
          ⟨.locked (cache.shardIndex key) (.getRead key cache.ttl now), .locked⟩,
          ⟨.locked (cache.shardIndex key) (.getWrite key cache.ttl now), cached⟩] := by
  unfold getEffectiveGrants at h
  split at h
  · rcases h.of_ret with ⟨rfl, hret⟩
    cases hret
    exact .inl ⟨rfl, rfl⟩
  · cases h with
    | step now h =>
      refine .inr ⟨now, ?_⟩
      cases h with
      | step phase h =>
        cases phase with
        | hit grants =>
          rcases h.of_ret with ⟨rfl, hret⟩
          cases hret
          exact .inl ⟨grants, rfl, rfl⟩
        | miss =>
          rcases h.of_ret with ⟨rfl, hret⟩
          cases hret
          exact .inr (.inl ⟨rfl, rfl⟩)
        | locked =>
          cases h with
          | step found h =>
            rcases h.of_ret with ⟨rfl, hret⟩
            cases hret
            exact .inr (.inr rfl)

/-- The steps of a set: it reads the clock and takes one lock, unless the cache is
disabled. -/
theorem setEffectiveGrants_only (cache : MemoryCache) (key : CacheKey)
    (grants : List EffectiveGrant) {P : WorldOp → Prop} (hnow : P .now)
    (hset : cache.capacity ≠ 0 → ∀ now, P (.locked (cache.shardIndex key)
      (.set key grants cache.ttl now (cache.shardCapacity key)))) :
    (cache.setEffectiveGrants key grants).Only P := by
  unfold setEffectiveGrants
  split
  · trivial
  · rename_i hcapacity
    exact ⟨hnow, fun now => ⟨hset hcapacity now, fun _ => trivial⟩⟩

/-- One section on each of the shards, in this order. -/
def eachShard (act : Section) : List ℕ → Prog WorldSig Unit
  | [] => return ()
  | i :: shards => do
    let _ ← lockShard i act
    eachShard act shards

omit [DefaultHasher] in
theorem eachShard_only {act : Section} {shards : List ℕ} {P : WorldOp → Prop}
    (h : ∀ i ∈ shards, P (.locked i act)) : (eachShard act shards).Only P := by
  induction shards with
  | nil => trivial
  | cons i shards ih =>
    rw [List.forall_mem_cons] at h
    exact ⟨h.1, fun _ => ih h.2⟩

def invalidatePrincipal (cache : MemoryCache) (tenant : TenantId) (principal : PrincipalId) :
    Prog WorldSig Unit :=
  eachShard (.invalidatePrincipal tenant principal) (List.range cache.shardCount)

def invalidateTenant (cache : MemoryCache) (tenant : TenantId) : Prog WorldSig Unit :=
  eachShard (.invalidateTenant tenant) (List.range cache.shardCount)

/-- Which principals have the role is not known, so the whole tenant goes. -/
def invalidateRole (cache : MemoryCache) (tenant : TenantId) (_role : RoleId) :
    Prog WorldSig Unit :=
  cache.invalidateTenant tenant

def invalidateAll (cache : MemoryCache) : Prog WorldSig Unit :=
  eachShard .invalidateAll (List.range cache.shardCount)

/-- What the engine's operations do with this cache under it. -/
def lower (cache : MemoryCache) : (op : EngineSig.Op) → Prog WorldSig (EngineSig.Resp op)
  | .read r => Prog.perform (S := WorldSig) (.read r)
  | .getEffectiveGrants t p sig => cache.getEffectiveGrants ⟨t, p, sig⟩
  | .setEffectiveGrants t p sig grants => cache.setEffectiveGrants ⟨t, p, sig⟩ grants
  | .invalidatePrincipal t p => cache.invalidatePrincipal t p
  | .invalidateRole t r => cache.invalidateRole t r
  | .invalidateTenant t => cache.invalidateTenant t
  | .invalidateAll => cache.invalidateAll

end MemoryCache

/-! ## Invalidations -/

/-- A call of one of the four invalidation methods. -/
inductive Invalidation where
  | principal (tenant : TenantId) (principal : PrincipalId)
  | role (tenant : TenantId) (role : RoleId)
  | tenant (tenant : TenantId)
  | all

namespace Invalidation

/-- The invalidation is meant for the grants of the subject. -/
def Covers (subject : AuthSubject) : Invalidation → Prop
  | .principal t p => subject.tenant = t ∧ subject.principal = p
  | .role t _ => subject.tenant = t
  | .tenant t => subject.tenant = t
  | .all => True

/-- What the invalidation does to each shard. -/
def act : Invalidation → Section
  | .principal t p => .invalidatePrincipal t p
  | .role t _ => .invalidateTenant t
  | .tenant t => .invalidateTenant t
  | .all => .invalidateAll

/-- It drops the entries of the subjects it covers, and no others. -/
theorem drops_iff (inv : Invalidation) (key : CacheKey) :
    inv.act.Drops key ↔ inv.Covers key.subject := by
  cases inv <;> rfl

end Invalidation

def Engine.invalidate (engine : Engine) : Invalidation → Prog EngineSig Unit
  | .principal t p => engine.invalidatePrincipal t p
  | .role t r => engine.invalidateRole t r
  | .tenant t => engine.invalidateTenant t
  | .all => engine.invalidateAll

/-- With this cache under it, an engine's invalidation is one section on every
shard. -/
theorem Engine.invalidate_lower [DefaultHasher] (engine : Engine) (cache : MemoryCache)
    (inv : Invalidation) :
    (engine.invalidate inv).subst cache.lower =
      MemoryCache.eachShard inv.act (List.range cache.shardCount) := by
  cases inv <;> exact bind_pure _

/-! ## Parties -/

/-- One call that someone makes, on a handle with its own time to live. -/
inductive Party where
  | get (ttl : Option Duration) (key : CacheKey)
  | set (ttl : Option Duration) (key : CacheKey) (grants : List EffectiveGrant)
  | query (ttl : Option Duration) (engine : Engine) (request : Request)
  | invalidate (ttl : Option Duration) (engine : Engine) (inv : Invalidation)
  | mutate (change : AuthorizationSource → AuthorizationSource)
  | advance (d : Duration)

/-- What a party has when it is done. -/
inductive Returned where
  | lookup (cached : Option (List EffectiveGrant))
  | result (res : Except Error Reply)
  | done

def Party.prog [DefaultHasher] (cache : MemoryCache) : Party → Prog WorldSig Returned
  | .get ttl key => do
    let cached ← (cache.cloneWith ttl).getEffectiveGrants key
    return .lookup cached
  | .set ttl key grants => do
    (cache.cloneWith ttl).setEffectiveGrants key grants
    return .done
  | .query ttl engine request => do
    let res ← (engine.serve request).run.subst (cache.cloneWith ttl).lower
    return .result res
  | .invalidate ttl engine inv => do
    (engine.invalidate inv).subst (cache.cloneWith ttl).lower
    return .done
  | .mutate change => do
    Prog.perform (S := WorldSig) (.mutate change)
    return .done
  | .advance d => do
    Prog.perform (S := WorldSig) (.advance d)
    return .done

/-- The parties before any of them has taken a step. -/
def launch [DefaultHasher] (cache : MemoryCache) (w : World) (parties : ℕ → Party) :
    Pool WorldSig World Returned where
  shared := w
  threads i := (parties i).prog cache
  hist := []

/-- The state after the parties have taken turns in the order of the schedule. -/
def after [DefaultHasher] (cache : MemoryCache) (w : World) (parties : ℕ → Party)
    (sched : List ℕ) : Pool WorldSig World Returned :=
  (launch cache w parties).run World.handle sched

end RsTenant
