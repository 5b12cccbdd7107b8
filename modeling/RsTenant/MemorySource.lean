import RsTenant.Lib.HashMap
import RsTenant.Queries

/-! # The in-memory source

`MemorySource` keeps its data in maps by tenant and then by principal or role.
The permissions and the parents of a role are hash sets, so a read returns
them in whatever order the set is iterated in, and adding an element may
change that order; `Step` allows every order.
-/

namespace RsTenant

open Interact

/-- The five maps behind the lock of the source. -/
structure MemorySource where
  tenants : HashMap TenantId TenantStatus
  memberships : HashMap TenantId (HashMap PrincipalId MembershipStatus)
  assignments : HashMap TenantId (HashMap PrincipalId (List RoleAssignment))
  rolePermissions : HashMap TenantId (HashMap RoleId (HashSet Permission))
  parentRoles : HashMap TenantId (HashMap RoleId (HashSet RoleId))

/-- A call of one of the methods that change the data. -/
inductive SourceCall where
  | setTenantStatus (tenant : TenantId) (status : TenantStatus)
  | setMembershipStatus (tenant : TenantId) (principal : PrincipalId) (status : MembershipStatus)
  | addRoleAssignment (tenant : TenantId) (principal : PrincipalId) (role : RoleId)
      (scope : GrantScope)
  | addRolePermission (tenant : TenantId) (role : RoleId) (permission : Permission)
  | addParentRole (tenant : TenantId) (role : RoleId) (parent : RoleId)

namespace MemorySource

def new : MemorySource := ⟨.empty, .empty, .empty, .empty, .empty⟩

/-- `set_tenant_status`: the last call for a tenant counts. -/
def setTenantStatus (src : MemorySource) (tenant : TenantId) (status : TenantStatus) :
    MemorySource :=
  { src with tenants := src.tenants.insert tenant status }

def setMembershipStatus (src : MemorySource) (tenant : TenantId) (principal : PrincipalId)
    (status : MembershipStatus) : MemorySource :=
  { src with memberships := src.memberships.insert₂ tenant principal status }

/-- `add_role_assignment`: the assignment comes behind those that are there. -/
def addRoleAssignment (src : MemorySource) (tenant : TenantId) (principal : PrincipalId)
    (role : RoleId) (scope : GrantScope) : MemorySource :=
  { src with
    assignments := src.assignments.insert₂ tenant principal
      ((src.assignments.get₂ tenant principal).getD [] ++ [⟨role, scope⟩]) }

/-- What a call may leave behind. -/
inductive Step (src : MemorySource) : SourceCall → MemorySource → Prop
  | setTenantStatus (tenant : TenantId) (status : TenantStatus) :
      Step src (.setTenantStatus tenant status) (src.setTenantStatus tenant status)
  | setMembershipStatus (tenant : TenantId) (principal : PrincipalId)
      (status : MembershipStatus) :
      Step src (.setMembershipStatus tenant principal status)
        (src.setMembershipStatus tenant principal status)
  | addRoleAssignment (tenant : TenantId) (principal : PrincipalId) (role : RoleId)
      (scope : GrantScope) :
      Step src (.addRoleAssignment tenant principal role scope)
        (src.addRoleAssignment tenant principal role scope)
  | addRolePermission {tenant : TenantId} {role : RoleId} {permission : Permission}
      {permissions : HashSet Permission} :
      ((src.rolePermissions.get₂ tenant role).getD .empty).Inserts permission permissions →
      Step src (.addRolePermission tenant role permission)
        { src with rolePermissions := src.rolePermissions.insert₂ tenant role permissions }
  | addParentRole {tenant : TenantId} {role parent : RoleId} {parents : HashSet RoleId} :
      ((src.parentRoles.get₂ tenant role).getD .empty).Inserts parent parents →
      Step src (.addParentRole tenant role parent)
        { src with parentRoles := src.parentRoles.insert₂ tenant role parents }

/-- What a sequence of calls may leave behind. -/
inductive Steps : MemorySource → List SourceCall → MemorySource → Prop
  | nil (src : MemorySource) : Steps src [] src
  | cons {src src₁ src' : MemorySource} {call : SourceCall} {calls : List SourceCall} :
      Step src call src₁ → Steps src₁ calls src' → Steps src (call :: calls) src'

/-- The stored data, read as the `AuthorizationSource` trait reads it: without
an entry a status is inactive and a list is empty. -/
def facts (src : MemorySource) : Facts where
  tenantStatus tenant := (src.tenants.get tenant).getD .inactive
  membershipStatus s := (src.memberships.get₂ s.tenant s.principal).getD .inactive
  roleAssignments s := (src.assignments.get₂ s.tenant s.principal).getD []
  rolePermissions tenant role := ((src.rolePermissions.get₂ tenant role).map HashSet.iter).getD []
  parentRoles tenant role := ((src.parentRoles.get₂ tenant role).map HashSet.iter).getD []

/-- The trait implementation: every read succeeds. -/
def source (src : MemorySource) : AuthorizationSource := src.facts.source

end MemorySource

/-- The call is about another tenant, or about the membership or the
assignments of another principal. -/
def SourceCall.Foreign (subject : AuthSubject) : SourceCall → Prop
  | .setTenantStatus tenant _ => tenant ≠ subject.tenant
  | .setMembershipStatus tenant principal _ =>
    ¬ (subject.tenant = tenant ∧ subject.principal = principal)
  | .addRoleAssignment tenant principal _ _ =>
    ¬ (subject.tenant = tenant ∧ subject.principal = principal)
  | .addRolePermission tenant _ _ => tenant ≠ subject.tenant
  | .addParentRole tenant _ _ => tenant ≠ subject.tenant

namespace MemorySource

/-- A foreign call leaves everything alone that concerns the subject. -/
theorem Step.agree {src src' : MemorySource} {call : SourceCall} {subject : AuthSubject}
    (h : Step src call src') (hforeign : call.Foreign subject) :
    src.source.Agree subject src'.source := by
  intro r hr
  -- only a read of the map that the call changes can see it, and not under the subject's keys
  cases h with
  | setTenantStatus tenant status =>
    cases r with
    | tenantStatus t =>
      have ht : t ≠ tenant := fun heq => hforeign (heq.symm.trans hr)
      have hget : ((src.setTenantStatus tenant status).tenants).get t = src.tenants.get t :=
        HashMap.get_insert_ne _ _ ht
      show Except.ok _ = Except.ok (Option.getD _ _)
      rw [hget]
      rfl
    | _ => rfl
  | setMembershipStatus tenant principal status =>
    cases r with
    | membershipStatus s =>
      have hs : ¬ (s.tenant = tenant ∧ s.principal = principal) := by
        rw [show s = subject from hr]
        exact hforeign
      have hget : ((src.setMembershipStatus tenant principal status).memberships).get₂
          s.tenant s.principal = src.memberships.get₂ s.tenant s.principal :=
        HashMap.get₂_insert₂_ne _ _ hs
      show Except.ok _ = Except.ok (Option.getD _ _)
      rw [hget]
      rfl
    | _ => rfl
  | addRoleAssignment tenant principal role scope =>
    cases r with
    | roleAssignments s =>
      have hs : ¬ (s.tenant = tenant ∧ s.principal = principal) := by
        rw [show s = subject from hr]
        exact hforeign
      have hget : ((src.addRoleAssignment tenant principal role scope).assignments).get₂
          s.tenant s.principal = src.assignments.get₂ s.tenant s.principal :=
        HashMap.get₂_insert₂_ne _ _ hs
      show Except.ok _ = Except.ok (Option.getD _ _)
      rw [hget]
      rfl
    | _ => rfl
  | @addRolePermission tenant role permission permissions _ =>
    cases r with
    | rolePermissions t role' =>
      have ht : ¬ (t = tenant ∧ role' = role) := fun heq => hforeign (heq.1.symm.trans hr)
      show Except.ok _ = Except.ok (Option.getD (Option.map _ _) _)
      rw [HashMap.get₂_insert₂_ne _ _ ht]
      rfl
    | _ => rfl
  | @addParentRole tenant role parent parents _ =>
    cases r with
    | parentRoles t role' =>
      have ht : ¬ (t = tenant ∧ role' = role) := fun heq => hforeign (heq.1.symm.trans hr)
      show Except.ok _ = Except.ok (Option.getD (Option.map _ _) _)
      rw [HashMap.get₂_insert₂_ne _ _ ht]
      rfl
    | _ => rfl

/-- So does any sequence of foreign calls. -/
theorem Steps.agree {src src' : MemorySource} {calls : List SourceCall} {subject : AuthSubject}
    (h : Steps src calls src') (hforeign : ∀ call ∈ calls, call.Foreign subject) :
    src.source.Agree subject src'.source := by
  induction h with
  | nil src =>
    intro r _
    rfl
  | cons hstep _ ih =>
    rw [List.forall_mem_cons] at hforeign
    intro r hr
    exact (hstep.agree hforeign.1 r hr).trans (ih hforeign.2 r hr)

end MemorySource

end RsTenant
