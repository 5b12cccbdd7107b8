import RsTenant.Grants

/-! # The tenant engine

`Engine` is a program over source reads and cache calls. All five queries go
through `resolveScope`: two status reads, then the subject's effective grants,
which come from the cache or are computed from the source and put into it.

A query method is that program and then a look at the scope (`serve_eq`).
-/

namespace RsTenant

open Interact Walk

/-! ## Configuration -/

/-- The flags and the bound of the engine. -/
structure EngineConfig where
  enableRoleHierarchy : Bool
  enableWildcard : Bool
  maxRoleDepth : ℕ
deriving DecidableEq, Repr

instance : Inhabited EngineConfig :=
  ⟨{ enableRoleHierarchy := false, enableWildcard := false, maxRoleDepth := 16 }⟩

namespace EngineConfig

/-- A flag as `u8::from` prints it. -/
def flag (b : Bool) : Str := if b then ['1'] else ['0']

/-- The text that tells cache entries of different configurations apart. -/
def signature (config : EngineConfig) : Str :=
  ['r', 'h', ':'] ++ flag config.enableRoleHierarchy ++ [';', 'w', 'c', ':'] ++
    flag config.enableWildcard ++ [';', 'd', 'e', 'p', 't', 'h', ':'] ++
    Nat.toDigits 10 config.maxRoleDepth

theorem flag_injective : Function.Injective flag := by
  intro a b h
  cases a <;> cases b <;> simp_all [flag]

theorem toDigits_injective : Function.Injective (Nat.toDigits 10) := by
  intro m n h
  have hm : Nat.ofDigitChars 10 (Nat.toDigits 10 m) 0 = m := Nat.ofDigitChars_ten_toDigits
  have hn : Nat.ofDigitChars 10 (Nat.toDigits 10 n) 0 = n := Nat.ofDigitChars_ten_toDigits
  rw [← hm, h, hn]

/-- Different configurations have different signatures. -/
theorem signature_injective : Function.Injective signature := by
  have hlen : ∀ b, (flag b).length = 1 := by
    intro b
    cases b <;> rfl
  rintro ⟨rh, wc, depth⟩ ⟨rh', wc', depth'⟩ h
  simp only [signature, List.append_assoc] at h
  -- the two flags have one character each, so the parts line up
  have h1 := List.append_cancel_left h
  obtain ⟨hrh, h2⟩ := List.append_inj h1 ((hlen rh).trans (hlen rh').symm)
  have h3 := List.append_cancel_left h2
  obtain ⟨hwc, h4⟩ := List.append_inj h3 ((hlen wc).trans (hlen wc').symm)
  have hdepth := List.append_cancel_left h4
  rw [flag_injective hrh, flag_injective hwc, toDigits_injective hdepth]

end EngineConfig

/-- An engine; its source and its cache are what answers its operations. -/
structure Engine where
  config : EngineConfig
  configSignature : Str
  signature_eq : configSignature = config.signature

/-- `EngineBuilder::build`. -/
def Engine.build (config : EngineConfig) : Engine where
  config := config
  configSignature := config.signature
  signature_eq := rfl

/-- The signature tells engines apart. -/
theorem Engine.eq_of_signature {e e' : Engine} (h : e.configSignature = e'.configSignature) :
    e = e' := by
  have hconfig : e.config = e'.config := by
    apply EngineConfig.signature_injective
    rw [← e.signature_eq, ← e'.signature_eq, h]
  cases e
  cases e'
  cases hconfig
  cases h
  rfl

/-! ## Queries -/

/-- The call `get_effective_grants` of the cache. -/
def getEffectiveGrants (tenant : TenantId) (principal : PrincipalId) (configSignature : Str) :
    Fallible EngineSig Error (Option (List EffectiveGrant)) :=
  liftM (Prog.perform (S := EngineSig) (.getEffectiveGrants tenant principal configSignature))

/-- The call `set_effective_grants` of the cache. -/
def setEffectiveGrants (tenant : TenantId) (principal : PrincipalId) (configSignature : Str)
    (grants : List EffectiveGrant) : Fallible EngineSig Error Unit :=
  liftM (Prog.perform (S := EngineSig)
    (.setEffectiveGrants tenant principal configSignature grants))

namespace Engine

/-- `TenantRoleHierarchy`. -/
def tenantRoleHierarchy (engine : Engine) (tenant : TenantId) : RoleHierarchy EngineSig RoleId where
  parentRoles role := readSource (.parentRoles tenant role)
  maxDepth := engine.config.maxRoleDepth
  cycleError role := .roleCycleDetected tenant role
  depthError role := .roleDepthExceeded tenant role engine.config.maxRoleDepth

/-- What the shared role walk needs from this engine. -/
def roleReads (engine : Engine) (tenant : TenantId) : RoleReads EngineSig RoleId where
  enableRoleHierarchy := engine.config.enableRoleHierarchy
  hierarchy := engine.tenantRoleHierarchy tenant
  rolePermissions role := readSource (.rolePermissions tenant role)

/-- The part of `effective_grants` after a cache miss. -/
def computeGrants (engine : Engine) (subject : AuthSubject) :
    Fallible EngineSig Error (List EffectiveGrant) := do
  let assignments ← readSource (.roleAssignments subject)
  (engine.roleReads subject.tenant).assignmentGrants assignments []

/-- `effective_grants`: from the cache, or computed and put there. -/
def effectiveGrants (engine : Engine) (subject : AuthSubject) :
    Fallible EngineSig Error (List EffectiveGrant) := do
  let cached ← getEffectiveGrants subject.tenant subject.principal engine.configSignature
  match cached with
  | some grants => return grants
  | none =>
    let grants ← engine.computeGrants subject
    setEffectiveGrants subject.tenant subject.principal engine.configSignature grants
    return grants

/-- What `resolve_scope` makes of the subject's grants. -/
def decide (engine : Engine) (query : ScopeQuery) (grants : List EffectiveGrant) :
    AccessScope × Option DenyReason :=
  let scope := AccessScope.merge query.subject.tenant
    (matchedScopes grants query.permission engine.config.enableWildcard)
  let reason := match scope with
    | .none => some DenyReason.permissionMissing
    | _ => none
  (scope, reason)

/-- `resolve_scope`: the statuses, the grants and the merged scope of those that match. -/
def resolveScope (engine : Engine) (query : ScopeQuery) :
    Fallible EngineSig Error (AccessScope × Option DenyReason) := do
  let tenantStatus : TenantStatus ← readSource (.tenantStatus query.subject.tenant)
  if tenantStatus ≠ .active then
    return (.none, some .tenantInactive)
  else do
    let membershipStatus : MembershipStatus ← readSource (.membershipStatus query.subject)
    if membershipStatus ≠ .active then
      return (.none, some .principalInactive)
    else do
      let grants ← engine.effectiveGrants query.subject
      return engine.decide query grants

/-- `accessible_scope`. -/
def accessibleScope (engine : Engine) (query : ScopeQuery) : Fallible EngineSig Error AccessScope :=
  Prod.fst <$> engine.resolveScope query

/-- The decision on a target path, with the reason for a denial. -/
def explainPath (target : ScopePath) (scope : AccessScope) (reason : Option DenyReason) :
    AccessExplanation :=
  match scope with
  | .none => ⟨.deny, reason.or (some .permissionMissing), scope⟩
  | .tenant _ => ⟨.allow, none, scope⟩
  | .paths _ _ =>
    if scope.allowsPath target then ⟨.allow, none, scope⟩ else ⟨.deny, some .scopeDenied, scope⟩

/-- `explain_access_scope`. -/
def explainAccessScope (engine : Engine) (request : ScopedAccessRequest) :
    Fallible EngineSig Error AccessExplanation := do
  let (scope, reason) ← engine.resolveScope ⟨request.subject, request.permission⟩
  return explainPath request.target scope reason

/-- The tenant-level decision, with the reason for a denial. -/
def explainWholeTenant (scope : AccessScope) (reason : Option DenyReason) : AccessExplanation :=
  match scope with
  | .tenant _ => ⟨.allow, none, scope⟩
  | .paths _ _ => ⟨.deny, some .targetScopeRequired, scope⟩
  | .none => ⟨.deny, reason.or (some .permissionMissing), scope⟩

/-- `explain_tenant`. -/
def explainTenant (engine : Engine) (request : TenantAccessRequest) :
    Fallible EngineSig Error AccessExplanation := do
  let (scope, reason) ← engine.resolveScope ⟨request.subject, request.permission⟩
  return explainWholeTenant scope reason

/-- `can_access_scope` is the decision of the explanation. -/
def canAccessScope (engine : Engine) (request : ScopedAccessRequest) :
    Fallible EngineSig Error AccessDecision :=
  AccessExplanation.decision <$> engine.explainAccessScope request

/-- `can_tenant` is the decision of the explanation. -/
def canTenant (engine : Engine) (request : TenantAccessRequest) :
    Fallible EngineSig Error AccessDecision :=
  AccessExplanation.decision <$> engine.explainTenant request

/-! ## Invalidation -/

def invalidatePrincipal (_engine : Engine) (tenant : TenantId) (principal : PrincipalId) :
    Prog EngineSig Unit :=
  Prog.perform (S := EngineSig) (.invalidatePrincipal tenant principal)

def invalidateRole (_engine : Engine) (tenant : TenantId) (role : RoleId) : Prog EngineSig Unit :=
  Prog.perform (S := EngineSig) (.invalidateRole tenant role)

def invalidateTenant (_engine : Engine) (tenant : TenantId) : Prog EngineSig Unit :=
  Prog.perform (S := EngineSig) (.invalidateTenant tenant)

def invalidateAll (_engine : Engine) : Prog EngineSig Unit :=
  Prog.perform (S := EngineSig) .invalidateAll

end Engine

/-! ## The five queries as one -/

/-- A call of one of the five query methods. -/
inductive Request where
  | accessibleScope (query : ScopeQuery)
  | canAccessScope (request : ScopedAccessRequest)
  | canTenant (request : TenantAccessRequest)
  | explainAccessScope (request : ScopedAccessRequest)
  | explainTenant (request : TenantAccessRequest)

/-- What a query method returns. -/
inductive Reply where
  | scope (scope : AccessScope)
  | decision (decision : AccessDecision)
  | explanation (explanation : AccessExplanation)
deriving DecidableEq

namespace Request

/-- The query that the call resolves. -/
def query : Request → ScopeQuery
  | .accessibleScope query => query
  | .canAccessScope request => ⟨request.subject, request.permission⟩
  | .canTenant request => ⟨request.subject, request.permission⟩
  | .explainAccessScope request => ⟨request.subject, request.permission⟩
  | .explainTenant request => ⟨request.subject, request.permission⟩

def subject (request : Request) : AuthSubject := request.query.subject

/-- What the call makes of the resolved scope. -/
def reply : Request → AccessScope × Option DenyReason → Reply
  | .accessibleScope _, (scope, _) => .scope scope
  | .canAccessScope request, (scope, reason) =>
    .decision (Engine.explainPath request.target scope reason).decision
  | .canTenant _, (scope, reason) => .decision (Engine.explainWholeTenant scope reason).decision
  | .explainAccessScope request, (scope, reason) =>
    .explanation (Engine.explainPath request.target scope reason)
  | .explainTenant _, (scope, reason) => .explanation (Engine.explainWholeTenant scope reason)

end Request

/-- The scope that a reply carries; a decision carries none. -/
def Reply.dataScope : Reply → AccessScope
  | .scope s => s
  | .decision _ => .none
  | .explanation e => e.scope

/-- Serve one call of a query method. -/
def Engine.serve (engine : Engine) : Request → Fallible EngineSig Error Reply
  | .accessibleScope query => Reply.scope <$> engine.accessibleScope query
  | .canAccessScope request => Reply.decision <$> engine.canAccessScope request
  | .canTenant request => Reply.decision <$> engine.canTenant request
  | .explainAccessScope request => Reply.explanation <$> engine.explainAccessScope request
  | .explainTenant request => Reply.explanation <$> engine.explainTenant request

/-- Every query resolves a scope and then only looks at it. -/
theorem Engine.serve_eq (engine : Engine) (request : Request) :
    engine.serve request = request.reply <$> engine.resolveScope request.query := by
  cases request <;>
    simp only [Engine.serve, Engine.accessibleScope, Engine.canAccessScope, Engine.canTenant,
      Engine.explainAccessScope, Engine.explainTenant, Request.query, Request.reply,
      map_eq_pure_bind, bind_assoc, pure_bind]

end RsTenant
