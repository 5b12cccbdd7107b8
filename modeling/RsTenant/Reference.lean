import RsTenant.Queries

/-! # The reference semantics of the tenant engine

What an answer should be, said without the engine: an assignment of the
subject is matched when a role it stands for has a permission that covers the
required one, and the scope of a query is the union of the scopes of the
matched assignments. `Decides` says so; `accessible_scope_reference` is that
the engine decides just that, whenever it decides at all.
-/

namespace RsTenant

open Interact Walk Ordered

/-! ## Matched assignments -/

/-- The roles of one tenant. -/
def Facts.roleFacts (facts : Facts) (tenant : TenantId) : RoleFacts RoleId where
  parentRoles := facts.parentRoles tenant
  rolePermissions := facts.rolePermissions tenant

/-- The subject has the assignment, and it covers the required permission. -/
def Facts.Matched (facts : Facts) (config : EngineConfig) (query : ScopeQuery)
    (a : RoleAssignment) : Prop :=
  a ∈ facts.roleAssignments query.subject ∧
    RsTenant.Matched config.enableRoleHierarchy config.enableWildcard
      (facts.roleFacts query.subject.tenant) query.permission a

/-- The engine's reads of roles are served by the facts. -/
theorem serves_roleFacts (engine : Engine) (facts : Facts) (lookup : Lookup) (tenant : TenantId) :
    Serves (engine.roleReads tenant) (answers facts.source lookup) (facts.roleFacts tenant) where
  parentRoles _ := rfl
  rolePermissions _ := rfl

/-! ## Decisions -/

/-- `s` is the union of the scopes that `Granted` holds of, within `tenant`:
the whole tenant if one of them is, else the uppermost paths of all of them. -/
structure Decides (tenant : TenantId) (Granted : GrantScope → Prop) (s : AccessScope) : Prop where
  tenant_iff : s = .tenant tenant ↔ Granted .tenant
  paths : ¬ Granted .tenant → (∃ g, Granted g) → ∃ roots, s = .paths tenant roots ∧
    Ascending roots ∧
    ∀ p, p ∈ roots ↔ (∃ g, Granted g ∧ p ∈ g.roots) ∧
      ∀ q, (∃ g, Granted g ∧ q ∈ g.roots) → q.allows p → q = p
  none : (¬ ∃ g, Granted g) → s = .none

/-- Merging decides. -/
theorem merge_decides (tenant : TenantId) {Granted : GrantScope → Prop}
    {scopes : List GrantScope} (h : ∀ g, g ∈ scopes ↔ Granted g) :
    Decides tenant Granted (AccessScope.merge tenant scopes) := by
  constructor
  · rw [AccessScope.merge_eq_tenant, h]
  · intro hno hex
    rcases hex with ⟨g, hg⟩
    -- no scope is the whole tenant, so the paths of all of them are compacted
    have hne : scopes ≠ [] := List.ne_nil_of_mem ((h g).mpr hg)
    have hunion : ∀ p, p ∈ scopes.flatMap GrantScope.roots ↔ ∃ g, Granted g ∧ p ∈ g.roots := by
      intro p
      simp only [List.mem_flatMap, h]
    rw [AccessScope.merge_eq, if_neg (by rwa [h]), if_neg hne]
    refine ⟨_, rfl, ScopePath.allows_covering.roots_ascending _, fun p => ?_⟩
    rw [compactPaths_eq_roots, ScopePath.allows_covering.mem_roots]
    simp only [hunion]
  · intro hno
    rw [AccessScope.merge_eq_none, List.eq_nil_iff_forall_not_mem]
    intro g hg
    exact hno ⟨g, (h g).mp hg⟩

/-! ## The engine's decision -/

section Decision

variable {engine : Engine} {facts : Facts} {lookup : Lookup} {query : ScopeQuery}

/-- With both statuses active the grants decide. -/
theorem eval_resolveScope_active (src : AuthorizationSource) (lookup : Lookup) (query : ScopeQuery)
    (htenant : src.tenantStatus query.subject.tenant = .ok .active)
    (hmember : src.membershipStatus query.subject = .ok .active) :
    (engine.resolveScope query).run.eval (answers src lookup) =
      ((engine.effectiveGrants query.subject).run.eval (answers src lookup)).map
        (engine.decide query) := by
  rw [eval_resolveScope, htenant, hmember]
  cases (engine.effectiveGrants query.subject).run.eval (answers src lookup) <;> rfl

/-- The scopes that match among freshly computed grants are those of the
matched assignments. -/
theorem mem_fresh_scopes {grants : List EffectiveGrant}
    (h : engine.fresh facts.source query.subject = .ok grants) (g : GrantScope) :
    g ∈ matchedScopes grants query.permission engine.config.enableWildcard ↔
      ∃ a, facts.Matched engine.config query a ∧ a.scope = g := by
  have hgrants : ((engine.roleReads query.subject.tenant).assignmentGrants
      (facts.roleAssignments query.subject) []).run.eval (answers facts.source NoCache) =
        .ok grants := by
    rw [← h]
    unfold Engine.fresh Engine.computeGrants
    rw [Fallible.eval_bind]
    rfl
  rw [mem_matchedScopes (serves_roleFacts engine facts NoCache query.subject.tenant) hgrants]
  simp only [Facts.Matched, and_assoc]
  rfl

/-- Grants can be computed exactly when every assigned role can be expanded. -/
theorem fresh_ok_iff {subject : AuthSubject} :
    (∃ grants, engine.fresh facts.source subject = .ok grants) ↔
      ∀ a ∈ facts.roleAssignments subject, Expandable engine.config.enableRoleHierarchy
        engine.config.maxRoleDepth (facts.parentRoles subject.tenant) a.role := by
  have hserves := serves_roleFacts engine facts NoCache subject.tenant
  have hiff := assignmentGrants_ok_iff hserves (facts.roleAssignments subject) []
  have hfresh : engine.fresh facts.source subject =
      ((engine.roleReads subject.tenant).assignmentGrants (facts.roleAssignments subject)
        []).run.eval
        (answers facts.source NoCache) := by
    unfold Engine.fresh Engine.computeGrants
    rw [Fallible.eval_bind]
    rfl
  rw [hfresh]
  exact hiff

/-- The uncached answer of an active subject, from its grants. -/
theorem uncached_active {src : AuthorizationSource} {request : Request}
    (htenant : src.tenantStatus request.subject.tenant = .ok .active)
    (hmember : src.membershipStatus request.subject = .ok .active) :
    engine.uncached src request = (engine.fresh src request.subject).map fun grants =>
      request.reply (engine.decide request.query grants) := by
  unfold Engine.uncached
  rw [eval_serve, eval_resolveScope_active src NoCache request.query htenant hmember,
    eval_effectiveGrants]
  show Except.map _ (Except.map _ (engine.fresh src request.subject)) = _
  cases engine.fresh src request.subject <;> rfl

/-- Without both statuses active the roles are not looked at. -/
theorem uncached_inactive {request : Request}
    (h : ¬ (facts.tenantStatus request.subject.tenant = .active ∧
      facts.membershipStatus request.subject = .active)) {facts' : Facts}
    (htenant : facts'.tenantStatus = facts.tenantStatus)
    (hmember : facts'.membershipStatus = facts.membershipStatus) :
    engine.uncached facts'.source request = engine.uncached facts.source request ∧
      ∃ reply, engine.uncached facts.source request = .ok reply := by
  unfold Engine.uncached
  rw [eval_serve, eval_serve, eval_resolveScope, eval_resolveScope]
  show Except.map _ (if facts'.tenantStatus request.subject.tenant ≠ .active then _ else _) =
      Except.map _ (if facts.tenantStatus request.subject.tenant ≠ .active then _ else _) ∧
    ∃ reply, Except.map _ (if facts.tenantStatus request.subject.tenant ≠ .active then _ else _) =
      .ok reply
  rw [htenant]
  by_cases ht : facts.tenantStatus request.subject.tenant = .active
  · -- the tenant is active, so the membership is looked at and ends the call
    rw [if_neg (not_not.mpr ht), if_neg (not_not.mpr ht)]
    have hm : facts.membershipStatus request.subject ≠ .active := fun hm => h ⟨ht, hm⟩
    show Except.map _ (if facts'.membershipStatus request.subject ≠ .active then _ else _) =
        Except.map _ (if facts.membershipStatus request.subject ≠ .active then _ else _) ∧
      ∃ reply, Except.map _ (if facts.membershipStatus request.subject ≠ .active then _ else _) =
        .ok reply
    rw [hmember, if_pos hm, if_pos hm]
    exact ⟨rfl, _, rfl⟩
  · rw [if_pos ht, if_pos ht]
    exact ⟨rfl, _, rfl⟩

/-! ## Explanations -/

/-- A path check allows what the scope allows. -/
theorem explainPath_decision (target : ScopePath) (s : AccessScope) (reason : Option DenyReason) :
    (Engine.explainPath target s reason).decision = .allow ↔ s.allowsPath target = true := by
  cases s with
  | none => simp [Engine.explainPath, AccessScope.allowsPath]
  | tenant t => simp [Engine.explainPath, AccessScope.allowsPath]
  | paths t roots =>
    cases h : (AccessScope.paths t roots).allowsPath target <;> simp [Engine.explainPath, h]

/-- The explanation has the scope that was resolved. -/
theorem explainPath_scope (target : ScopePath) (s : AccessScope) (reason : Option DenyReason) :
    (Engine.explainPath target s reason).scope = s := by
  unfold Engine.explainPath
  split
  · rfl
  · rfl
  · split <;> rfl

/-- A tenant check allows the whole tenant only. -/
theorem explainWholeTenant_decision (s : AccessScope) (reason : Option DenyReason) :
    (Engine.explainWholeTenant s reason).decision = .allow ↔ ∃ t, s = .tenant t := by
  cases s <;> simp [Engine.explainWholeTenant]

theorem explainWholeTenant_scope (s : AccessScope) (reason : Option DenyReason) :
    (Engine.explainWholeTenant s reason).scope = s := by
  cases s <;> rfl

/-- A path check denies because nothing matched, or because what matched lies
elsewhere. -/
theorem explainPath_reason (target : ScopePath) (s : AccessScope) :
    (Engine.explainPath target s (if s = .none then some .permissionMissing else none)).reason =
      if s = .none then some .permissionMissing
      else if s.allowsPath target then none else some .scopeDenied := by
  cases s with
  | none => simp [Engine.explainPath]
  | tenant t => simp [Engine.explainPath, AccessScope.allowsPath]
  | paths t roots =>
    cases h : (AccessScope.paths t roots).allowsPath target <;> simp [Engine.explainPath, h]

/-- A tenant check denies because nothing matched, or because only paths
did. -/
theorem explainWholeTenant_reason (s : AccessScope) :
    (Engine.explainWholeTenant s (if s = .none then some .permissionMissing else none)).reason =
      match s with
      | .none => some .permissionMissing
      | .tenant _ => none
      | .paths _ _ => some .targetScopeRequired := by
  cases s <;> rfl

/-- Before a target is looked at, the one reason is that nothing matched. -/
theorem decide_reason (engine : Engine) (query : ScopeQuery) (grants : List EffectiveGrant) :
    (engine.decide query grants).2 =
      if (engine.decide query grants).1 = .none then some .permissionMissing else none := by
  unfold Engine.decide
  cases AccessScope.merge query.subject.tenant
    (matchedScopes grants query.permission engine.config.enableWildcard) <;> rfl

end Decision

/-! ## Sample data -/

namespace Sample

def tenant : TenantId := ⟨['t'], by decide⟩
def principal : PrincipalId := ⟨['p'], by decide⟩
def subject : AuthSubject := ⟨tenant, principal⟩
def clerk : RoleId := ⟨['c'], by decide⟩

/-- A permission on one resource. -/
def read : Permission where
  resource := ⟨['i'], by decide⟩
  action := ⟨['r'], by decide⟩

/-- One active subject with one role for the whole tenant. -/
def facts : Facts where
  tenantStatus _ := .active
  membershipStatus _ := .active
  roleAssignments s := if s = subject then [⟨clerk, .tenant⟩] else []
  rolePermissions _ r := if r = clerk then [read] else []
  parentRoles _ _ := []

/-- The clerk's assignment is taken away. -/
def dismissed : Facts :=
  { facts with roleAssignments := fun s => if s = subject then [] else facts.roleAssignments s }

def query : ScopeQuery := ⟨subject, read⟩

def manager : RoleId := ⟨['m'], by decide⟩

def north : ScopePath := ⟨['n'], by decide⟩
def northEast : ScopePath := ⟨['n', '/', 'e'], by decide⟩
def south : ScopePath := ⟨['s'], by decide⟩

/-- A grant for one place. -/
def place (p : ScopePath) : GrantScope :=
  .paths ⟨[p], List.cons_ne_nil _ _, List.pairwise_singleton _ _⟩

/-- The subject is a clerk in three places, one of them within another. What a
clerk may do comes from the manager. -/
def branches : Facts where
  tenantStatus := facts.tenantStatus
  membershipStatus := facts.membershipStatus
  roleAssignments s :=
    if s = subject then [place northEast, place south, place north].map (Assignment.mk clerk)
    else []
  rolePermissions _ r := if r = manager then [read] else []
  parentRoles _ r := if r = clerk then [manager] else []

def branching : Engine := Engine.build ⟨true, true, 16⟩

/-- A clerk stands for the manager, too. -/
theorem expand_branches :
    (expandRoles (branching.tenantRoleHierarchy tenant) clerk).run.eval
      (answers branches.source NoCache) = .ok [clerk, manager] := by
  have hf : ∀ r, ((branching.tenantRoleHierarchy tenant).parentRoles r).run.eval
      (answers branches.source NoCache) = .ok (branches.parentRoles tenant r) := fun _ => rfl
  rw [eval_expandRoles (hf clerk)]
  have hmap {x y : Except Error (Expansion RoleId)} (hxy : x = y) :
      x.map Expansion.output = y.map Expansion.output := congrArg _ hxy
  -- the manager is pushed, and then both frames are popped
  refine (hmap (eval_push hf (by decide) (by decide) (by decide))).trans ?_
  exact hmap (eval_pop.trans (eval_pop.trans eval_done))

/-- A clerk's assignments give what the manager may do, each in its scope. -/
theorem grants_branches (scopes : List GrantScope) (grants : List EffectiveGrant) :
    ((branching.roleReads tenant).assignmentGrants (scopes.map (Assignment.mk clerk)) grants).run.eval
        (answers branches.source NoCache) =
      .ok (grants ++ scopes.map (ScopedGrant.mk manager read)) := by
  induction scopes generalizing grants with
  | nil => exact congrArg Except.ok (List.append_nil grants).symm
  | cons scope scopes ih =>
    have hround : ((branching.roleReads tenant).rolesOf clerk >>= fun roles =>
        (branching.roleReads tenant).roleGrants scope roles grants).run.eval
          (answers branches.source NoCache) = .ok (grants ++ [⟨manager, read, scope⟩]) := by
      rw [Fallible.eval_bind]
      show (expandRoles (branching.tenantRoleHierarchy tenant) clerk).run.eval _ >>= _ = _
      rw [expand_branches]
      exact congrArg (fun gs => Except.ok (gs ++ [⟨manager, read, scope⟩])) (List.append_nil grants)
    rw [List.map_cons, RoleReads.assignmentGrants, ← bind_assoc, Fallible.eval_bind, hround]
    refine (ih _).trans (congrArg Except.ok ?_)
    rw [List.append_assoc]
    rfl

/-- The place within another one is gone. -/
theorem scope_branches :
    (branching.accessibleScope query).run.eval (answers branches.source NoCache) =
      .ok (.paths tenant [north, south]) := by
  have hfresh : branching.fresh branches.source subject = .ok
      ([place northEast, place south, place north].map (ScopedGrant.mk manager read)) := by
    unfold Engine.fresh Engine.computeGrants
    rw [Fallible.eval_bind]
    exact grants_branches [place northEast, place south, place north] []
  unfold Engine.accessibleScope
  rw [Fallible.run_map, Prog.eval_bind, eval_resolveScope_active branches.source NoCache query rfl rfl,
    eval_effectiveGrants]
  show Prog.eval _ (Prog.ret ((branching.fresh branches.source subject).map _ |>.map _)) = _
  rw [hfresh]
  rfl

end Sample

/-! ## The engine meets the reference -/

section Main

variable {engine : Engine} {facts : Facts} {lookup : Lookup} {query : ScopeQuery}

/-- On a miss with both statuses active, what the engine says of a scope comes
from freshly computed grants. -/
theorem resolveScope_of_ok (htenant : facts.tenantStatus query.subject.tenant = .active)
    (hmember : facts.membershipStatus query.subject = .active)
    (hmiss : lookup query.subject.tenant query.subject.principal engine.configSignature = none)
    {s : AccessScope}
    (hok : (engine.accessibleScope query).run.eval (answers facts.source lookup) = .ok s) :
    ∃ grants, engine.fresh facts.source query.subject = .ok grants ∧
      (engine.resolveScope query).run.eval (answers facts.source lookup) =
        .ok (engine.decide query grants) ∧
      s = (engine.decide query grants).1 := by
  have hresolve : (engine.resolveScope query).run.eval (answers facts.source lookup) =
      (engine.fresh facts.source query.subject).map (engine.decide query) := by
    rw [eval_resolveScope_active facts.source lookup query (congrArg Except.ok htenant)
      (congrArg Except.ok hmember), eval_effectiveGrants, hmiss]
  -- a scope is returned only if the grants could be computed
  unfold Engine.accessibleScope at hok
  rw [Fallible.run_map, Prog.eval_bind, hresolve] at hok
  rcases Results.map_eq_ok.mp hok with ⟨res, hdecide, rfl⟩
  rcases Results.map_eq_ok.mp hdecide with ⟨grants, hfresh, rfl⟩
  exact ⟨grants, hfresh, hresolve.trans hdecide, rfl⟩

section Decide

variable {ι : Type} {P : ι → Prop} {scopeOf : ι → GrantScope} {grants : List EffectiveGrant}
  (hmem : ∀ g, g ∈ matchedScopes grants query.permission engine.config.enableWildcard ↔
    ∃ a, P a ∧ scopeOf a = g)
include hmem

/-! When the scopes of the matching grants are those of the `a` with `P a`, the
decision is the union of these. -/

/-- Some `a` covers the target. -/
theorem decide_allowsPath (target : ScopePath) :
    (engine.decide query grants).1.allowsPath target = true ↔
      ∃ a, P a ∧ (scopeOf a).Covers target := by
  unfold Engine.decide
  simp only [AccessScope.allowsPath_merge, hmem]
  constructor
  · rintro ⟨g, ⟨a, ha, rfl⟩, hcov⟩
    exact ⟨a, ha, hcov⟩
  · rintro ⟨a, ha, hcov⟩
    exact ⟨scopeOf a, ⟨a, ha, rfl⟩, hcov⟩

/-- Some `a` is for the whole tenant. -/
theorem decide_tenant :
    (∃ t, (engine.decide query grants).1 = .tenant t) ↔ ∃ a, P a ∧ scopeOf a = .tenant := by
  rw [← hmem, ← AccessScope.merge_eq_tenant query.subject.tenant]
  constructor
  · rintro ⟨t, ht⟩
    -- merging keeps to the tenant of the query
    have htenant : t = query.subject.tenant := AccessScope.eq_of_merge_eq_tenant ht
    rwa [htenant] at ht
  · intro h
    exact ⟨_, h⟩

/-- There is no such `a`. -/
theorem decide_none : (engine.decide query grants).1 = .none ↔ ¬ ∃ a, P a := by
  unfold Engine.decide
  rw [AccessScope.merge_eq_none, List.eq_nil_iff_forall_not_mem]
  simp only [hmem]
  constructor
  · rintro h ⟨a, ha⟩
    exact h (scopeOf a) ⟨a, ha, rfl⟩
  · rintro h g ⟨a, ha, -⟩
    exact h ⟨a, ha⟩

end Decide

section Fresh

variable {grants : List EffectiveGrant}
  (hfresh : engine.fresh facts.source query.subject = .ok grants)
include hfresh

/-- What a path check says of freshly computed grants. -/
theorem explainPath_decide (target : ScopePath) :
    let e := Engine.explainPath target (engine.decide query grants).1
      (engine.decide query grants).2
    e.scope = (engine.decide query grants).1 ∧
      (e.decision = .allow ↔ ∃ a, facts.Matched engine.config query a ∧ a.scope.Covers target) ∧
      (e.reason = none ↔ e.decision = .allow) ∧
      (e.reason = some .permissionMissing ↔ ¬ ∃ a, facts.Matched engine.config query a) := by
  rw [decide_reason engine query grants]
  refine ⟨explainPath_scope _ _ _, ?_, ?_, ?_⟩
  · rw [explainPath_decision, decide_allowsPath (mem_fresh_scopes hfresh)]
  · rw [explainPath_decision, explainPath_reason]
    cases (engine.decide query grants).1 with
    | none => simp [AccessScope.allowsPath]
    | tenant t => simp [AccessScope.allowsPath]
    | paths t roots => simp
  · rw [explainPath_reason, ← decide_none (mem_fresh_scopes hfresh)]
    -- an empty scope is the one reason that does not depend on the target
    by_cases hnone : (engine.decide query grants).1 = .none
    · simp [hnone]
    · rw [if_neg hnone]
      split <;> simp [hnone]

/-- What a tenant check says of freshly computed grants. -/
theorem explainWholeTenant_decide :
    let e := Engine.explainWholeTenant (engine.decide query grants).1
      (engine.decide query grants).2
    e.scope = (engine.decide query grants).1 ∧
      (e.decision = .allow ↔ ∃ a, facts.Matched engine.config query a ∧ a.scope = .tenant) ∧
      (e.reason = none ↔ e.decision = .allow) ∧
      (e.reason = some .permissionMissing ↔ ¬ ∃ a, facts.Matched engine.config query a) := by
  rw [decide_reason engine query grants]
  refine ⟨explainWholeTenant_scope _ _, ?_, ?_, ?_⟩
  · rw [explainWholeTenant_decision, decide_tenant (mem_fresh_scopes hfresh)]
  · rw [explainWholeTenant_decision, explainWholeTenant_reason]
    cases (engine.decide query grants).1 <;> simp
  · rw [explainWholeTenant_reason, ← decide_none (mem_fresh_scopes hfresh)]
    cases (engine.decide query grants).1 <;> simp

end Fresh

/-- Whenever `accessible_scope` returns a scope, it is the union of the scopes
of the matched assignments, and the other four queries answer accordingly. -/
theorem accessible_scope_reference (engine : Engine) (facts : Facts) (lookup : Lookup)
    (query : ScopeQuery) (target : ScopePath)
    (htenant : facts.tenantStatus query.subject.tenant = .active)
    (hmember : facts.membershipStatus query.subject = .active)
    (hmiss : lookup query.subject.tenant query.subject.principal engine.configSignature = none)
    (s : AccessScope)
    (hok : (engine.accessibleScope query).run.eval (answers facts.source lookup) = .ok s) :
    Decides query.subject.tenant
      (fun g => ∃ a, facts.Matched engine.config query a ∧ a.scope = g) s ∧
    (∃ d, (engine.canAccessScope ⟨query.subject, query.permission, target⟩).run.eval
        (answers facts.source lookup) = .ok d ∧
      (d = .allow ↔ ∃ a, facts.Matched engine.config query a ∧ a.scope.Covers target)) ∧
    (∃ d, (engine.canTenant ⟨query.subject, query.permission⟩).run.eval
        (answers facts.source lookup) = .ok d ∧
      (d = .allow ↔ ∃ a, facts.Matched engine.config query a ∧ a.scope = .tenant)) ∧
    (∃ e, (engine.explainAccessScope ⟨query.subject, query.permission, target⟩).run.eval
        (answers facts.source lookup) = .ok e ∧ e.scope = s ∧
      (e.decision = .allow ↔ ∃ a, facts.Matched engine.config query a ∧ a.scope.Covers target) ∧
      (e.reason = none ↔ e.decision = .allow) ∧
      (e.reason = some .permissionMissing ↔ ¬ ∃ a, facts.Matched engine.config query a)) ∧
    (∃ e, (engine.explainTenant ⟨query.subject, query.permission⟩).run.eval
        (answers facts.source lookup) = .ok e ∧ e.scope = s ∧
      (e.decision = .allow ↔ ∃ a, facts.Matched engine.config query a ∧ a.scope = .tenant) ∧
      (e.reason = none ↔ e.decision = .allow) ∧
      (e.reason = some .permissionMissing ↔ ¬ ∃ a, facts.Matched engine.config query a)) := by
  -- all five queries decide on the same grants, which are computed afresh each time
  rcases resolveScope_of_ok htenant hmember hmiss hok with ⟨grants, hfresh, hresolve, rfl⟩
  have hpath := explainPath_decide hfresh target
  have hwhole := explainWholeTenant_decide hfresh
  refine ⟨merge_decides query.subject.tenant (mem_fresh_scopes hfresh), ?_, ?_, ?_, ?_⟩
  · refine ⟨_, ?_, hpath.2.1⟩
    unfold Engine.canAccessScope Engine.explainAccessScope
    rw [Fallible.run_map, Prog.eval_bind, Fallible.eval_bind, hresolve]
    rfl
  · refine ⟨_, ?_, hwhole.2.1⟩
    unfold Engine.canTenant Engine.explainTenant
    rw [Fallible.run_map, Prog.eval_bind, Fallible.eval_bind, hresolve]
    rfl
  · refine ⟨_, ?_, hpath⟩
    unfold Engine.explainAccessScope
    rw [Fallible.eval_bind, hresolve]
    rfl
  · refine ⟨_, ?_, hwhole⟩
    unfold Engine.explainTenant
    rw [Fallible.eval_bind, hresolve]
    rfl

/-- The clerk's places, as far as none of them is within another. -/
theorem accessible_scope_reference_sample :
    Decides Sample.tenant
      (fun g => ∃ a, Sample.branches.Matched Sample.branching.config Sample.query a ∧ a.scope = g)
      (.paths Sample.tenant [Sample.north, Sample.south]) ∧
    ∃ d, (Sample.branching.canAccessScope ⟨Sample.subject, Sample.read, Sample.northEast⟩).run.eval
        (answers Sample.branches.source NoCache) = .ok d ∧
      (d = .allow ↔ ∃ a, Sample.branches.Matched Sample.branching.config Sample.query a ∧
        a.scope.Covers Sample.northEast) := by
  have hreference := accessible_scope_reference Sample.branching Sample.branches NoCache Sample.query
    Sample.northEast rfl rfl rfl _ Sample.scope_branches
  exact ⟨hreference.1, hreference.2.1⟩

end Main

end RsTenant
