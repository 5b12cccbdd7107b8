import RsTenant.Grants
import RsTenant.PlatformScope

/-! # The platform engine

The second engine of the repository: roles of the platform itself, read from a
source of their own and never cached. `can_platform` looks for a platform
grant among the matching grants; the three tenant-data queries merge the
scopes of all of them.

Everything a query returns comes from `matchingGrants`, and
`eval_matchingGrants` says what that is for a source whose reads succeed.
-/

namespace RsTenant

open Interact Walk

/-! ## Requests and data -/

/-- A platform subject is a principal; it belongs to no tenant. -/
structure PlatformSubject where
  principal : PlatformPrincipalId
deriving DecidableEq

/-- Whether the principal may act at all. -/
inductive PlatformPrincipalStatus where
  | active | inactive
deriving DecidableEq, Repr

/-- May the subject act on the platform itself? -/
structure PlatformAccessRequest where
  subject : PlatformSubject
  permission : Permission

/-- Whose data may the subject see with the permission? -/
structure TenantDataScopeQuery where
  subject : PlatformSubject
  permission : Permission

/-- May it see the data of one tenant as a whole? -/
structure TenantDataAccessRequest where
  subject : PlatformSubject
  permission : Permission
  tenant : TenantId

/-- May it see the data below one path of a tenant? -/
structure TenantScopedDataAccessRequest where
  subject : PlatformSubject
  permission : Permission
  tenant : TenantId
  target : ScopePath

/-- A platform role together with the scope it is granted for. -/
abbrev PlatformRoleAssignment : Type := Assignment PlatformRoleId PlatformGrantScope

/-- One permission that a platform role grants, with the scope of the assignment. -/
abbrev PlatformEffectiveGrant : Type := ScopedGrant PlatformRoleId PlatformGrantScope

/-- The reads of the `PlatformAuthorizationSource` trait. -/
inductive PlatformRead where
  | platformPrincipalStatus (subject : PlatformSubject)
  | platformRoleAssignments (subject : PlatformSubject)
  | platformRolePermissions (role : PlatformRoleId)
  | platformParentRoles (role : PlatformRoleId)
deriving DecidableEq

/-- What a successful read returns. -/
abbrev PlatformRead.Answer : PlatformRead → Type
  | .platformPrincipalStatus _ => PlatformPrincipalStatus
  | .platformRoleAssignments _ => List PlatformRoleAssignment
  | .platformRolePermissions _ => List Permission
  | .platformParentRoles _ => List PlatformRoleId

/-- The platform engine performs nothing but reads. -/
abbrev PlatformSig : Sig where
  Op := PlatformRead
  Resp r := Except SourceError r.Answer

/-- A source whose answers do not change while it is looked at; every read may
fail. -/
structure PlatformAuthorizationSource where
  platformPrincipalStatus : PlatformSubject → Except SourceError PlatformPrincipalStatus
  platformRoleAssignments : PlatformSubject → Except SourceError (List PlatformRoleAssignment)
  platformRolePermissions : PlatformRoleId → Except SourceError (List Permission)
  platformParentRoles : PlatformRoleId → Except SourceError (List PlatformRoleId)

/-- Such a source as an answer to every read. -/
def PlatformAuthorizationSource.answer (src : PlatformAuthorizationSource) :
    (r : PlatformRead) → Except SourceError r.Answer
  | .platformPrincipalStatus s => src.platformPrincipalStatus s
  | .platformRoleAssignments s => src.platformRoleAssignments s
  | .platformRolePermissions r => src.platformRolePermissions r
  | .platformParentRoles r => src.platformParentRoles r

/-- The stored data of a platform source whose reads succeed. -/
structure PlatformFacts where
  principalStatus : PlatformSubject → PlatformPrincipalStatus
  roleAssignments : PlatformSubject → List PlatformRoleAssignment
  rolePermissions : PlatformRoleId → List Permission
  parentRoles : PlatformRoleId → List PlatformRoleId

namespace PlatformFacts

/-- The source that returns the stored data. -/
def source (facts : PlatformFacts) : PlatformAuthorizationSource where
  platformPrincipalStatus s := .ok (facts.principalStatus s)
  platformRoleAssignments s := .ok (facts.roleAssignments s)
  platformRolePermissions r := .ok (facts.rolePermissions r)
  platformParentRoles r := .ok (facts.parentRoles r)

/-- The part of the data that the role hierarchy is about. -/
def roleFacts (facts : PlatformFacts) : RoleFacts PlatformRoleId where
  parentRoles := facts.parentRoles
  rolePermissions := facts.rolePermissions

end PlatformFacts

/-- Read the platform source; a source error ends the call. -/
def readPlatform (r : PlatformRead) : Fallible PlatformSig Error r.Answer :=
  ExceptT.mk (Prog.call (S := PlatformSig) r fun a => .ret (a.mapError Error.source))

@[simp] theorem eval_readPlatform (src : PlatformAuthorizationSource) (r : PlatformRead) :
    (readPlatform r).run.eval src.answer = (src.answer r).mapError Error.source := rfl

/-! ## The engine -/

/-- The flags and the bound of the engine. -/
structure PlatformEngineConfig where
  enableRoleHierarchy : Bool
  enableWildcard : Bool
  maxRoleDepth : ℕ
deriving DecidableEq, Repr

instance : Inhabited PlatformEngineConfig :=
  ⟨{ enableRoleHierarchy := false, enableWildcard := false, maxRoleDepth := 16 }⟩

/-- The engine has a configuration and no state. -/
structure PlatformEngine where
  config : PlatformEngineConfig

/-- A Boolean as a decision. -/
def decision (allowed : Bool) : AccessDecision := if allowed then .allow else .deny

namespace PlatformEngine

/-- `PlatformRoleHierarchy`. -/
def platformRoleHierarchy (engine : PlatformEngine) : RoleHierarchy PlatformSig PlatformRoleId where
  parentRoles role := readPlatform (.platformParentRoles role)
  maxDepth := engine.config.maxRoleDepth
  cycleError role := .platformRoleCycleDetected role
  depthError role := .platformRoleDepthExceeded role engine.config.maxRoleDepth

/-- What the shared role walk needs from this engine. -/
def roleReads (engine : PlatformEngine) : RoleReads PlatformSig PlatformRoleId where
  enableRoleHierarchy := engine.config.enableRoleHierarchy
  hierarchy := engine.platformRoleHierarchy
  rolePermissions role := readPlatform (.platformRolePermissions role)

/-- The grants of all assignments, in the order in which they are stored. -/
def effectiveGrants (engine : PlatformEngine) (subject : PlatformSubject) :
    Fallible PlatformSig Error (List PlatformEffectiveGrant) := do
  let assignments ← readPlatform (.platformRoleAssignments subject)
  engine.roleReads.assignmentGrants assignments []

/-- The effective grants that cover the permission; none unless the principal is active. -/
def matchingGrants (engine : PlatformEngine) (subject : PlatformSubject) (required : Permission) :
    Fallible PlatformSig Error (List PlatformEffectiveGrant) := do
  let status : PlatformPrincipalStatus ← readPlatform (.platformPrincipalStatus subject)
  if status ≠ .active then
    return []
  else do
    let grants ← engine.effectiveGrants subject
    return grants.filter fun grant => grant.matchesPermission required engine.config.enableWildcard

/-- `can_platform`: one platform grant is enough. -/
def canPlatform (engine : PlatformEngine) (request : PlatformAccessRequest) :
    Fallible PlatformSig Error AccessDecision := do
  let grants ← engine.matchingGrants request.subject request.permission
  return decision (grants.any fun grant => grant.scope = .platform)

/-- `accessible_tenants`: the merge may fail on scopes that conflict. -/
def accessibleTenants (engine : PlatformEngine) (query : TenantDataScopeQuery) :
    Fallible PlatformSig Error TenantDataAccessScope := do
  let grants ← engine.matchingGrants query.subject query.permission
  ExceptT.mk (pure (TenantDataAccessScope.merge (grants.map ScopedGrant.scope)))

/-- `can_access_tenant`: the merged scope allows the tenant as a whole. -/
def canAccessTenant (engine : PlatformEngine) (request : TenantDataAccessRequest) :
    Fallible PlatformSig Error AccessDecision := do
  let scope ← engine.accessibleTenants ⟨request.subject, request.permission⟩
  return decision (scope.allowsTenant request.tenant)

/-- `can_access_tenant_scope`: the merged scope allows the target. -/
def canAccessTenantScope (engine : PlatformEngine) (request : TenantScopedDataAccessRequest) :
    Fallible PlatformSig Error AccessDecision := do
  let scope ← engine.accessibleTenants ⟨request.subject, request.permission⟩
  return decision (scope.allowsPath request.tenant request.target)

end PlatformEngine

/-! ## What a query returns -/

/-- Only a true Boolean is an `allow`. -/
theorem decision_eq_allow {allowed : Bool} : decision allowed = .allow ↔ allowed = true := by
  cases allowed <;> simp [decision]

section Eval

variable (engine : PlatformEngine) (facts : PlatformFacts)

/-- The source of the stored data serves the role walk. -/
theorem serves_platform :
    Serves engine.roleReads facts.source.answer facts.roleFacts where
  parentRoles _ := rfl
  rolePermissions _ := rfl

/-- The grants that the engine computes from the stored data, or its error. -/
def PlatformEngine.fresh (subject : PlatformSubject) :
    Except Error (List PlatformEffectiveGrant) :=
  (engine.roleReads.assignmentGrants (facts.roleAssignments subject) []).run.eval
    facts.source.answer

/-- The scopes of the matching grants, or the error of computing them; none
for a principal that is not active. -/
def PlatformEngine.scopes (subject : PlatformSubject) (required : Permission) :
    Except Error (List PlatformGrantScope) :=
  if facts.principalStatus subject ≠ .active then .ok []
  else (engine.fresh facts subject).map fun grants =>
    matchedScopes grants required engine.config.enableWildcard

variable {facts} in
/-- An inactive principal has no grants to match. -/
theorem scopes_of_inactive {subject : PlatformSubject}
    (hinactive : facts.principalStatus subject ≠ .active) (required : Permission) :
    engine.scopes facts subject required = .ok [] := by
  unfold PlatformEngine.scopes
  rw [if_pos hinactive]

/-- The matching grants, up to their scopes, are what the stored data say. -/
theorem eval_matchingGrants (subject : PlatformSubject) (required : Permission) :
    ((engine.matchingGrants subject required).run.eval facts.source.answer).map
        (fun grants => grants.map ScopedGrant.scope) = engine.scopes facts subject required := by
  unfold PlatformEngine.matchingGrants PlatformEngine.scopes
  rw [Fallible.eval_bind, eval_readPlatform]
  show Except.map _ ((if facts.principalStatus subject ≠ .active then _ else _ :
    Fallible PlatformSig Error (List PlatformEffectiveGrant)).run.eval facts.source.answer) = _
  split
  · rfl
  · have heffective : (engine.effectiveGrants subject).run.eval facts.source.answer =
        engine.fresh facts subject := by
      unfold PlatformEngine.effectiveGrants
      rw [Fallible.eval_bind]
      rfl
    rw [Fallible.eval_bind, heffective]
    cases engine.fresh facts subject <;> rfl

/-- `can_platform` looks for a platform grant among the matching scopes. -/
theorem eval_canPlatform (request : PlatformAccessRequest) :
    (engine.canPlatform request).run.eval facts.source.answer =
      (engine.scopes facts request.subject request.permission).map fun scopes =>
        decision (decide (.platform ∈ scopes)) := by
  rw [← eval_matchingGrants]
  unfold PlatformEngine.canPlatform
  rw [Fallible.eval_bind]
  cases (engine.matchingGrants request.subject request.permission).run.eval
    facts.source.answer with
  | error e => rfl
  | ok grants =>
    refine congrArg Except.ok (congrArg decision ?_)
    rw [Bool.eq_iff_iff]
    simp

/-- The tenant-data queries merge the matching scopes. -/
theorem eval_accessibleTenants (query : TenantDataScopeQuery) :
    (engine.accessibleTenants query).run.eval facts.source.answer =
      engine.scopes facts query.subject query.permission >>= TenantDataAccessScope.merge := by
  rw [← eval_matchingGrants]
  unfold PlatformEngine.accessibleTenants
  rw [Fallible.eval_bind]
  cases (engine.matchingGrants query.subject query.permission).run.eval facts.source.answer <;> rfl

/-- A decision about a tenant is read off the accessible tenants. -/
theorem eval_canAccessTenant (request : TenantDataAccessRequest) :
    (engine.canAccessTenant request).run.eval facts.source.answer =
      ((engine.accessibleTenants ⟨request.subject, request.permission⟩).run.eval
        facts.source.answer).map fun s => decision (s.allowsTenant request.tenant) := by
  unfold PlatformEngine.canAccessTenant
  rw [Fallible.eval_bind]
  cases (engine.accessibleTenants ⟨request.subject, request.permission⟩).run.eval
    facts.source.answer <;> rfl

/-- A decision about a target is read off the accessible tenants, too. -/
theorem eval_canAccessTenantScope (request : TenantScopedDataAccessRequest) :
    (engine.canAccessTenantScope request).run.eval facts.source.answer =
      ((engine.accessibleTenants ⟨request.subject, request.permission⟩).run.eval
        facts.source.answer).map fun s =>
          decision (s.allowsPath request.tenant request.target) := by
  unfold PlatformEngine.canAccessTenantScope
  rw [Fallible.eval_bind]
  cases (engine.accessibleTenants ⟨request.subject, request.permission⟩).run.eval
    facts.source.answer <;> rfl

/-- The subject has the assignment, and it covers the required permission. -/
def PlatformFacts.Matched (config : PlatformEngineConfig) (subject : PlatformSubject)
    (required : Permission) (a : PlatformRoleAssignment) : Prop :=
  a ∈ facts.roleAssignments subject ∧
    RsTenant.Matched config.enableRoleHierarchy config.enableWildcard facts.roleFacts required a

variable {engine facts}

/-- The matching scopes of an active principal are those of the matched
assignments. -/
theorem mem_scopes {subject : PlatformSubject} {required : Permission}
    {scopes : List PlatformGrantScope} (hactive : facts.principalStatus subject = .active)
    (h : engine.scopes facts subject required = .ok scopes) (g : PlatformGrantScope) :
    g ∈ scopes ↔ ∃ a, facts.Matched engine.config subject required a ∧ a.scope = g := by
  unfold PlatformEngine.scopes at h
  rw [if_neg (not_not.mpr hactive)] at h
  rcases Results.map_eq_ok.mp h with ⟨grants, hfresh, rfl⟩
  rw [mem_matchedScopes (serves_platform engine facts) hfresh]
  simp only [PlatformFacts.Matched, and_assoc]
  rfl

/-- The scopes of an active principal can be computed exactly when every
assigned role can be expanded. -/
theorem scopes_ok_iff {subject : PlatformSubject} {required : Permission}
    (hactive : facts.principalStatus subject = .active) :
    (∃ scopes, engine.scopes facts subject required = .ok scopes) ↔
      ∀ a ∈ facts.roleAssignments subject, Expandable engine.config.enableRoleHierarchy
        engine.config.maxRoleDepth facts.parentRoles a.role := by
  have hiff := assignmentGrants_ok_iff (serves_platform engine facts)
    (facts.roleAssignments subject) []
  refine Iff.trans ?_ hiff
  unfold PlatformEngine.scopes
  rw [if_neg (not_not.mpr hactive)]
  exact Results.exists_map_eq_ok

end Eval

end RsTenant
