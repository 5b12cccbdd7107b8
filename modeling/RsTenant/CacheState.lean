import RsTenant.Lib.HashMap
import RsTenant.Source

/-! # One shard of the memory cache

A shard is only ever touched inside a lock section, and `Section` lists all of
them: the two phases of a lookup, the write of a set, and the part of each
invalidation that concerns one shard. `Section.entry_after` says once what any
section can do to an entry: it is the one just set, or it was there before and
the section neither sets nor drops its key.
-/

namespace RsTenant

/-- A reading of the monotonic clock. -/
abbrev Instant : Type := ℕ

/-- A length of time, in the unit of the clock. -/
abbrev Duration : Type := ℕ

/-- What an entry is for: a principal in a tenant, under an engine's signature. -/
structure CacheKey where
  tenant : TenantId
  principal : PrincipalId
  configSignature : Str
deriving DecidableEq

/-- The grants of an entry and when they were written. -/
structure CacheEntry where
  grants : List EffectiveGrant
  updatedAt : Instant

/-- The subject whose grants are cached under the key. -/
def CacheKey.subject (key : CacheKey) : AuthSubject := ⟨key.tenant, key.principal⟩

/-- The entries of a shard and the queue of their keys, least recently used
first. -/
structure CacheState where
  entries : HashMap CacheKey CacheEntry
  order : List CacheKey

/-- How the read-lock phase of a lookup ends; `locked` is the case that goes on
under the write lock. -/
inductive ReadPhase where
  | hit (grants : List EffectiveGrant)
  | miss
  | locked

/-- An instant before the update counts as no time since it. -/
def CacheEntry.isExpired (entry : CacheEntry) (ttl : Duration) (now : Instant) : Bool :=
  ttl < now - entry.updatedAt

/-- The entry is expired for a handle with this TTL, if the handle has one. -/
def CacheEntry.isExpiredFor (entry : CacheEntry) (ttl : Option Duration) (now : Instant) : Bool :=
  ttl.any fun ttl => entry.isExpired ttl now

namespace CacheState

def empty : CacheState := ⟨.empty, []⟩

def removeKey (state : CacheState) (key : CacheKey) : CacheState :=
  if state.entries.containsKey key then
    { entries := state.entries.remove key
      order := state.order.filter fun existing => existing ≠ key }
  else
    state

/-- Move the key to the recent end of the queue. -/
def touch (state : CacheState) (key : CacheKey) : CacheState :=
  if state.order.getLast? = some key then
    state
  else
    { state with order := (state.order.filter fun existing => existing ≠ key) ++ [key] }

/-- Keep the entries that satisfy `p`, and the queue of their keys. -/
def retain (state : CacheState) (p : CacheKey → CacheEntry → Bool) : CacheState :=
  let entries := state.entries.retain p
  { entries := entries, order := state.order.filter fun key => entries.containsKey key }

/-- Remove what has outlived the TTL. -/
def pruneExpired (state : CacheState) (ttl : Duration) (now : Instant) : CacheState :=
  state.retain fun _ entry => !entry.isExpired ttl now

/-- The loop of `evict_if_needed`: drop the least recently used key while there
are too many entries and the queue is not empty. -/
def evictLoop (shardCapacity : ℕ) (entries : HashMap CacheKey CacheEntry) :
    List CacheKey → CacheState
  | [] => ⟨entries, []⟩
  | key :: order =>
    if shardCapacity < entries.len then
      evictLoop shardCapacity (entries.remove key) order
    else
      ⟨entries, key :: order⟩

/-- Evict until the shard fits its capacity; one of capacity 0 keeps nothing. -/
def evictIfNeeded (state : CacheState) (shardCapacity : ℕ) : CacheState :=
  if shardCapacity = 0 then empty else evictLoop shardCapacity state.entries state.order

/-- Remove the entries of a tenant. -/
def removeTenantEntries (state : CacheState) (tenant : TenantId) : CacheState :=
  state.retain fun key _ => key.tenant ≠ tenant

/-! ## The lock sections -/

/-- `get_effective_grants` under the read lock. -/
def getRead (state : CacheState) (key : CacheKey) (ttl : Option Duration) (now : Instant) :
    ReadPhase :=
  match state.entries.get key with
  | none => .miss
  | some entry =>
    if entry.isExpiredFor ttl now then
      -- the write lock below removes it
      .locked
    else if state.order.getLast? = some key then
      .hit entry.grants
    else
      .locked

/-- `get_effective_grants` under the write lock. -/
def getWrite (state : CacheState) (key : CacheKey) (ttl : Option Duration) (now : Instant) :
    Option (List EffectiveGrant) × CacheState :=
  match state.entries.get key with
  | none => (none, state)
  | some entry =>
    if entry.isExpiredFor ttl now then
      (none, state.removeKey key)
    else
      (some entry.grants, state.touch key)

/-- `set_effective_grants` under the write lock. -/
def set (state : CacheState) (key : CacheKey) (grants : List EffectiveGrant)
    (ttl : Option Duration) (now : Instant) (shardCapacity : ℕ) : CacheState :=
  let pruned := match ttl with
    | some ttl => state.pruneExpired ttl now
    | none => state
  let inserted := { pruned with entries := pruned.entries.insert key ⟨grants, now⟩ }
  (inserted.touch key).evictIfNeeded shardCapacity

def invalidatePrincipal (state : CacheState) (tenant : TenantId) (principal : PrincipalId) :
    CacheState :=
  state.retain fun key _ => key.tenant ≠ tenant || key.principal ≠ principal

end CacheState

/-- A lock section on one shard, with everything the call knows when it takes
the lock. -/
inductive Section where
  | getRead (key : CacheKey) (ttl : Option Duration) (now : Instant)
  | getWrite (key : CacheKey) (ttl : Option Duration) (now : Instant)
  | set (key : CacheKey) (grants : List EffectiveGrant) (ttl : Option Duration) (now : Instant)
      (shardCapacity : ℕ)
  | invalidatePrincipal (tenant : TenantId) (principal : PrincipalId)
  | invalidateTenant (tenant : TenantId)
  | invalidateAll

namespace Section

abbrev Resp : Section → Type
  | .getRead _ _ _ => ReadPhase
  | .getWrite _ _ _ => Option (List EffectiveGrant)
  | .set _ _ _ _ _ => Unit
  | .invalidatePrincipal _ _ => Unit
  | .invalidateTenant _ => Unit
  | .invalidateAll => Unit

/-- What the section returns and leaves behind. -/
def run : (act : Section) → CacheState → act.Resp × CacheState
  | .getRead key ttl now, state => (state.getRead key ttl now, state)
  | .getWrite key ttl now, state => state.getWrite key ttl now
  | .set key grants ttl now shardCapacity, state =>
    ((), state.set key grants ttl now shardCapacity)
  | .invalidatePrincipal tenant principal, state => ((), state.invalidatePrincipal tenant principal)
  | .invalidateTenant tenant, state => ((), state.removeTenantEntries tenant)
  | .invalidateAll, _ => ((), CacheState.empty)

/-- The section writes the entry of the key. -/
def Sets (k : CacheKey) : Section → Prop
  | .set key _ _ _ _ => key = k
  | _ => False

/-- The section is of an invalidation that covers the key. -/
def Drops (k : CacheKey) : Section → Prop
  | .invalidatePrincipal tenant principal => k.tenant = tenant ∧ k.principal = principal
  | .invalidateTenant tenant => k.tenant = tenant
  | .invalidateAll => True
  | _ => False

end Section

/-! ## What a section does to an entry -/

namespace CacheState

variable {state : CacheState} {k key : CacheKey} {e : CacheEntry}

@[simp] theorem get_touch : (state.touch key).entries = state.entries := by
  unfold touch
  split <;> rfl

/-- Removing a key only removes. -/
theorem get_of_removeKey (h : (state.removeKey key).entries.get k = some e) :
    state.entries.get k = some e := by
  unfold removeKey at h
  split at h
  · by_cases hk : k = key
    · subst hk
      simp at h
    · simpa [hk] using h
  · exact h

theorem get_of_retain {p : CacheKey → CacheEntry → Bool}
    (h : (state.retain p).entries.get k = some e) : state.entries.get k = some e ∧ p k e :=
  HashMap.get_of_retain h

/-- Eviction only removes. -/
theorem get_of_evictLoop {shardCapacity : ℕ} {entries : HashMap CacheKey CacheEntry}
    {order : List CacheKey}
    (h : (evictLoop shardCapacity entries order).entries.get k = some e) :
    entries.get k = some e := by
  induction order generalizing entries with
  | nil => exact h
  | cons key order ih =>
    unfold evictLoop at h
    split at h
    -- the key at the front is evicted: what is found is under another key
    · have hremoved := ih h
      by_cases hk : k = key
      · subst hk
        simp at hremoved
      · simpa [hk] using hremoved
    · exact h

theorem get_of_evictIfNeeded {shardCapacity : ℕ}
    (h : (state.evictIfNeeded shardCapacity).entries.get k = some e) :
    state.entries.get k = some e := by
  unfold evictIfNeeded at h
  split at h
  · simp [empty] at h
  · exact get_of_evictLoop h

theorem get_of_getWrite {ttl : Option Duration} {now : Instant}
    (h : (state.getWrite key ttl now).2.entries.get k = some e) : state.entries.get k = some e := by
  unfold getWrite at h
  split at h
  · exact h
  · split at h
    · exact get_of_removeKey h
    · simpa using h

/-- After a set a key has the entry just written, or the one it had. -/
theorem get_of_set {grants : List EffectiveGrant} {ttl : Option Duration} {now : Instant}
    {shardCapacity : ℕ}
    (h : (state.set key grants ttl now shardCapacity).entries.get k = some e) :
    (k = key ∧ e = ⟨grants, now⟩) ∨ (k ≠ key ∧ state.entries.get k = some e) := by
  have hinserted := get_of_evictIfNeeded h
  rw [get_touch] at hinserted
  by_cases hk : k = key
  · subst hk
    rw [HashMap.get_insert_self] at hinserted
    exact .inl ⟨rfl, (Option.some.inj hinserted).symm⟩
  · rw [HashMap.get_insert_ne _ _ hk] at hinserted
    -- pruning only removes entries
    refine .inr ⟨hk, ?_⟩
    cases ttl with
    | none => exact hinserted
    | some ttl => exact (get_of_retain hinserted).1

end CacheState

/-- An entry found after a section was written by it, or was there before and
the section neither writes nor drops its key. -/
theorem Section.entry_after {act : Section} {state : CacheState} {k : CacheKey} {e : CacheEntry}
    (h : (act.run state).2.entries.get k = some e) :
    (∃ ttl shardCapacity, act = .set k e.grants ttl e.updatedAt shardCapacity) ∨
      (state.entries.get k = some e ∧ ¬ act.Sets k ∧ ¬ act.Drops k) := by
  cases act with
  | getRead key ttl now => exact .inr ⟨h, id, id⟩
  | getWrite key ttl now => exact .inr ⟨CacheState.get_of_getWrite h, id, id⟩
  | set key grants ttl now shardCapacity =>
    rcases CacheState.get_of_set h with ⟨rfl, rfl⟩ | ⟨hk, hstate⟩
    · exact .inl ⟨ttl, shardCapacity, rfl⟩
    · exact .inr ⟨hstate, fun hsets => hk hsets.symm, id⟩
  | invalidatePrincipal tenant principal =>
    rcases CacheState.get_of_retain h with ⟨hstate, hkeep⟩
    refine .inr ⟨hstate, id, fun hdrops => ?_⟩
    simp [hdrops.1, hdrops.2] at hkeep
  | invalidateTenant tenant =>
    rcases CacheState.get_of_retain h with ⟨hstate, hkeep⟩
    refine .inr ⟨hstate, id, fun hdrops => ?_⟩
    simp [show k.tenant = tenant from hdrops] at hkeep
  | invalidateAll => simp [Section.run, CacheState.empty] at h

/-! ## What a lookup finds -/

namespace CacheState

variable {state : CacheState} {key : CacheKey} {ttl : Option Duration} {now : Instant}
  {grants : List EffectiveGrant}

/-- A hit under the read lock is an entry that has not expired. -/
theorem getRead_hit (h : state.getRead key ttl now = .hit grants) :
    ∃ e, state.entries.get key = some e ∧ e.grants = grants ∧ e.isExpiredFor ttl now = false := by
  unfold getRead at h
  split at h
  · cases h
  · next entry hentry =>
    split at h
    · cases h
    · next hexpired =>
      split at h
      · cases h
        exact ⟨entry, hentry, rfl, Bool.eq_false_iff.mpr hexpired⟩
      · cases h

/-- So is a hit under the write lock. -/
theorem getWrite_some (h : (state.getWrite key ttl now).1 = some grants) :
    ∃ e, state.entries.get key = some e ∧ e.grants = grants ∧ e.isExpiredFor ttl now = false := by
  unfold getWrite at h
  split at h
  · cases h
  · next entry hentry =>
    split at h
    · cases h
    · next hexpired =>
      cases h
      exact ⟨entry, hentry, rfl, Bool.eq_false_iff.mpr hexpired⟩

/-- All that the write lock of a lookup removes is an expired entry of its key. -/
theorem getWrite_entries (state : CacheState) (key : CacheKey) (ttl : Option Duration)
    (now : Instant) (k : CacheKey) :
    (state.getWrite key ttl now).2.entries.get k = state.entries.get k ∨
      (k = key ∧ (state.getWrite key ttl now).2.entries.get k = none ∧
        ∃ e, state.entries.get k = some e ∧ e.isExpiredFor ttl now = true) := by
  unfold getWrite
  split
  · exact .inl rfl
  · next entry hentry =>
    split
    · next hexpired =>
      have hcontains : state.entries.containsKey key = true :=
        (HashMap.containsKey_iff _ _).mpr ⟨entry, hentry⟩
      rw [removeKey, if_pos hcontains]
      by_cases hk : k = key
      · subst hk
        exact .inr ⟨rfl, HashMap.get_remove_self _ _, entry, hentry, hexpired⟩
      · exact .inl (HashMap.get_remove_ne _ hk)
    · exact .inl (by rw [get_touch])

end CacheState

/-- An entry that has not expired is at most as old as the TTL. -/
theorem CacheEntry.age_le {entry : CacheEntry} {ttl : Option Duration} {now : Instant}
    (h : entry.isExpiredFor ttl now = false) {d : Duration} (hd : ttl = some d) :
    now - entry.updatedAt ≤ d := by
  subst hd
  simpa [CacheEntry.isExpiredFor, CacheEntry.isExpired] using h

end RsTenant
