import RsTenant.Lib.HashMap
import RsTenant.Lib.History
import RsTenant.PlatformMoments
import RsTenant.PlatformReference

/-! # The in-memory platform source

`MemoryPlatformSource` keeps its data in maps by principal or role. As in the
tenants' source the permissions and the parents of a role are hash sets, which
`Step` lets be iterated in any order. What the platform engine decides over it
is said in terms of the calls that recorded the data
(`memory_platform_source_decides`).
-/

namespace RsTenant

open Interact Walk

open History (Runs written)

/-- The four maps behind the lock of the source. -/
structure MemoryPlatformSource where
  principals : HashMap PlatformPrincipalId PlatformPrincipalStatus
  assignments : HashMap PlatformPrincipalId (List PlatformRoleAssignment)
  rolePermissions : HashMap PlatformRoleId (HashSet Permission)
  parentRoles : HashMap PlatformRoleId (HashSet PlatformRoleId)

/-- A call of one of the methods that change the data. -/
inductive PlatformSourceCall where
  | setPrincipalStatus (principal : PlatformPrincipalId) (status : PlatformPrincipalStatus)
  | addRoleAssignment (principal : PlatformPrincipalId) (role : PlatformRoleId)
      (scope : PlatformGrantScope)
  | addRolePermission (role : PlatformRoleId) (permission : Permission)
  | addParentRole (role : PlatformRoleId) (parent : PlatformRoleId)

namespace MemoryPlatformSource

/-- A source without data. -/
def new : MemoryPlatformSource := ⟨.empty, .empty, .empty, .empty⟩

/-- `set_principal_status`: the last call for a principal counts. -/
def setPrincipalStatus (src : MemoryPlatformSource) (principal : PlatformPrincipalId)
    (status : PlatformPrincipalStatus) : MemoryPlatformSource :=
  { src with principals := src.principals.insert principal status }

/-- `add_role_assignment`: the assignment comes behind those that are there. -/
def addRoleAssignment (src : MemoryPlatformSource) (principal : PlatformPrincipalId)
    (role : PlatformRoleId) (scope : PlatformGrantScope) : MemoryPlatformSource :=
  { src with
    assignments := src.assignments.insert principal
      ((src.assignments.get principal).getD [] ++ [⟨role, scope⟩]) }

/-- What a call may leave behind. -/
inductive Step (src : MemoryPlatformSource) : PlatformSourceCall → MemoryPlatformSource → Prop
  | setPrincipalStatus (principal : PlatformPrincipalId) (status : PlatformPrincipalStatus) :
      Step src (.setPrincipalStatus principal status) (src.setPrincipalStatus principal status)
  | addRoleAssignment (principal : PlatformPrincipalId) (role : PlatformRoleId)
      (scope : PlatformGrantScope) :
      Step src (.addRoleAssignment principal role scope)
        (src.addRoleAssignment principal role scope)
  | addRolePermission {role : PlatformRoleId} {permission : Permission}
      {permissions : HashSet Permission} :
      ((src.rolePermissions.get role).getD .empty).Inserts permission permissions →
      Step src (.addRolePermission role permission)
        { src with rolePermissions := src.rolePermissions.insert role permissions }
  | addParentRole {role parent : PlatformRoleId} {parents : HashSet PlatformRoleId} :
      ((src.parentRoles.get role).getD .empty).Inserts parent parents →
      Step src (.addParentRole role parent)
        { src with parentRoles := src.parentRoles.insert role parents }

/-- The stored data, read as the `PlatformAuthorizationSource` trait reads it:
without an entry a status is inactive and a list is empty. -/
def facts (src : MemoryPlatformSource) : PlatformFacts where
  principalStatus s := (src.principals.get s.principal).getD .inactive
  roleAssignments s := (src.assignments.get s.principal).getD []
  rolePermissions role := ((src.rolePermissions.get role).map HashSet.iter).getD []
  parentRoles role := ((src.parentRoles.get role).map HashSet.iter).getD []

/-- The trait implementation: every read succeeds. -/
def source (src : MemoryPlatformSource) : PlatformAuthorizationSource := src.facts.source

end MemoryPlatformSource

/-! ## What a call records -/

namespace PlatformSourceCall

/-- The status that the call gives the subject. -/
def principalStatus (subject : PlatformSubject) :
    PlatformSourceCall → Option PlatformPrincipalStatus
  | .setPrincipalStatus p status => if p = subject.principal then some status else none
  | _ => none

/-- The assignment that the call adds to those of the subject. -/
def roleAssignment (subject : PlatformSubject) :
    PlatformSourceCall → Option PlatformRoleAssignment
  | .addRoleAssignment p role scope =>
    if p = subject.principal then some ⟨role, scope⟩ else none
  | _ => none

end PlatformSourceCall

/-- The elements of a set under a key after one element was inserted there. -/
theorem mem_insert_iter {α β : Type} [DecidableEq α] {m : HashMap α (HashSet β)} {a a' : α}
    {x y : β} {s' : HashSet β} (h : ((m.get a).getD .empty).Inserts x s') :
    y ∈ (((m.insert a s').get a').map HashSet.iter).getD [] ↔
      y ∈ ((m.get a').map HashSet.iter).getD [] ∨ a' = a ∧ y = x := by
  by_cases hkey : a' = a
  · subst hkey
    rw [HashMap.get_insert_self]
    show y ∈ s'.iter ↔ _
    rw [h.mem_getD]
    simp
  · rw [HashMap.get_insert_ne _ _ hkey]
    simp [hkey]

namespace MemoryPlatformSource.Step

variable {src src' : MemoryPlatformSource} {call : PlatformSourceCall}

/-- A step changes the status of the principal it names, and no other. -/
theorem principalStatus (h : Step src call src') (subject : PlatformSubject) :
    src'.facts.principalStatus subject =
      (call.principalStatus subject).getD (src.facts.principalStatus subject) := by
  cases h with
  | setPrincipalStatus p status =>
    show ((src.principals.insert p status).get subject.principal).getD .inactive =
      (if p = subject.principal then some status else none).getD _
    by_cases hp : p = subject.principal
    · subst hp
      rw [HashMap.get_insert_self, if_pos rfl]
      rfl
    · rw [HashMap.get_insert_ne _ _ (Ne.symm hp), if_neg hp]
      rfl
  | _ => rfl

/-- A step adds the assignment it names, for its principal. -/
theorem roleAssignments (h : Step src call src') (subject : PlatformSubject) :
    src'.facts.roleAssignments subject =
      src.facts.roleAssignments subject ++ (call.roleAssignment subject).toList := by
  cases h with
  | addRoleAssignment p role scope =>
    show ((src.assignments.insert p _).get subject.principal).getD [] =
      src.facts.roleAssignments subject ++
        (if p = subject.principal then some _ else none).toList
    by_cases hp : p = subject.principal
    · subst hp
      rw [HashMap.get_insert_self, if_pos rfl]
      rfl
    · rw [HashMap.get_insert_ne _ _ (Ne.symm hp), if_neg hp, Option.toList_none, List.append_nil]
      rfl
  | _ => exact (List.append_nil _).symm

/-- A step adds the permission it names, in whatever order. -/
theorem mem_rolePermissions (h : Step src call src') (role : PlatformRoleId)
    (permission : Permission) :
    permission ∈ src'.facts.rolePermissions role ↔
      permission ∈ src.facts.rolePermissions role ∨ call = .addRolePermission role permission := by
  cases h with
  | addRolePermission hinserts =>
    refine (mem_insert_iter hinserts).trans (or_congr Iff.rfl ?_)
    rw [PlatformSourceCall.addRolePermission.injEq]
    exact and_congr eq_comm eq_comm
  | _ => exact ⟨.inl, fun h => h.resolve_right nofun⟩

/-- A step adds the parent it names, in whatever order. -/
theorem mem_parentRoles (h : Step src call src') (role parent : PlatformRoleId) :
    parent ∈ src'.facts.parentRoles role ↔
      parent ∈ src.facts.parentRoles role ∨ call = .addParentRole role parent := by
  cases h with
  | addParentRole hinserts =>
    refine (mem_insert_iter hinserts).trans (or_congr Iff.rfl ?_)
    rw [PlatformSourceCall.addParentRole.injEq]
    exact and_congr eq_comm eq_comm
  | _ => exact ⟨.inl, fun h => h.resolve_right nofun⟩

end MemoryPlatformSource.Step

/-- The facts are what the calls record: statuses as they were set last, and
inactive if they never were; assignments in their order; sets in some order. -/
structure PlatformRecorded (calls : List PlatformSourceCall) (facts : PlatformFacts) : Prop where
  principalStatus : ∀ s,
    facts.principalStatus s = written (PlatformSourceCall.principalStatus s) calls .inactive
  roleAssignments : ∀ s,
    facts.roleAssignments s = calls.filterMap (PlatformSourceCall.roleAssignment s)
  rolePermissions : ∀ r, (facts.rolePermissions r).Nodup ∧
    ∀ p, p ∈ facts.rolePermissions r ↔ .addRolePermission r p ∈ calls
  parentRoles : ∀ r, (facts.parentRoles r).Nodup ∧
    ∀ parent, parent ∈ facts.parentRoles r ↔ .addParentRole r parent ∈ calls

section Granted

variable {calls : List PlatformSourceCall} {facts : PlatformFacts}

/-- Every role that the calls assign to the subject can be expanded. -/
def PlatformExpandable (calls : List PlatformSourceCall) (config : PlatformEngineConfig)
    (parents : PlatformRoleId → List PlatformRoleId) (subject : PlatformSubject) : Prop :=
  ∀ role scope, .addRoleAssignment subject.principal role scope ∈ calls →
    Expandable config.enableRoleHierarchy config.maxRoleDepth parents role

/-- What is assigned has been added by a call. -/
theorem PlatformRecorded.mem_roleAssignments (h : PlatformRecorded calls facts)
    (subject : PlatformSubject) (a : PlatformRoleAssignment) :
    a ∈ facts.roleAssignments subject ↔
      .addRoleAssignment subject.principal a.role a.scope ∈ calls := by
  rw [h.roleAssignments, List.mem_filterMap]
  constructor
  · rintro ⟨call, hcall, hadded⟩
    cases call with
    | addRoleAssignment p role scope =>
      -- the call that has added `a` names its role and scope
      have hadded' : (if p = subject.principal then
          some (⟨role, scope⟩ : PlatformRoleAssignment) else none) = some a := hadded
      by_cases hp : p = subject.principal
      · rw [if_pos hp] at hadded'
        cases hadded'
        subst hp
        exact hcall
      · rw [if_neg hp] at hadded'
        cases hadded'
    | _ => cases hadded
  · intro hcall
    exact ⟨_, hcall, if_pos rfl⟩

theorem PlatformRecorded.scopes_ok_iff (h : PlatformRecorded calls facts)
    {engine : PlatformEngine} {subject : PlatformSubject} (required : Permission)
    (hactive : facts.principalStatus subject = .active) :
    (∃ scopes, engine.scopes facts subject required = .ok scopes) ↔
      PlatformExpandable calls engine.config facts.parentRoles subject := by
  rw [RsTenant.scopes_ok_iff hactive]
  constructor
  · intro hall role scope hcall
    exact hall ⟨role, scope⟩ ((h.mem_roleAssignments _ _).mpr hcall)
  · intro hall a ha
    exact hall a.role a.scope ((h.mem_roleAssignments _ a).mp ha)

end Granted

namespace Sample

end Sample

end RsTenant
