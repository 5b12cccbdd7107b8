import RsTenant.Reference

/-! # Which gate an explanation names

A query passes four gates: the tenant is active, the member is active, some
effective grant matches the permission, and the matching grants cover what is
asked for. The grants are those of the cache on a hit, whatever they are, and
otherwise those computed from the source. `explanations_name_first_gate` is
that the reason of a denial is the first gate that did not let the query
through, and that the three ways of asking agree.
-/

namespace RsTenant

open Interact

variable {engine : Engine} {src : AuthorizationSource} {lookup : Lookup} {query : ScopeQuery}

/-! ## The gates -/

/-- The grants that the subject's queries go by: the cached ones on a hit, else
the computed ones. -/
def Engine.effective (engine : Engine) (src : AuthorizationSource) (lookup : Lookup)
    (subject : AuthSubject) : Except Error (List EffectiveGrant) :=
  match lookup subject.tenant subject.principal engine.configSignature with
  | some grants => .ok grants
  | none => engine.fresh src subject

def AuthorizationSource.TenantActive (src : AuthorizationSource) (subject : AuthSubject) : Prop :=
  src.tenantStatus subject.tenant = .ok .active

def AuthorizationSource.MemberActive (src : AuthorizationSource) (subject : AuthSubject) : Prop :=
  src.membershipStatus subject = .ok .active

/-- The grant is an effective one that matches the permission asked for. Grants
only take effect for an active member of an active tenant. -/
def Engine.TakesEffect (engine : Engine) (src : AuthorizationSource) (lookup : Lookup)
    (query : ScopeQuery) (grant : EffectiveGrant) : Prop :=
  src.TenantActive query.subject ∧ src.MemberActive query.subject ∧
    ∃ grants, engine.effective src lookup query.subject = .ok grants ∧ grant ∈ grants ∧
      grant.matchesPermission query.permission engine.config.enableWildcard = true

/-- What every explanation says, of a path or of the whole tenant. -/
structure Engine.Explains (engine : Engine) (src : AuthorizationSource) (lookup : Lookup)
    (query : ScopeQuery) (e : AccessExplanation) : Prop where
  deny_iff : e.decision = .deny ↔ ∃ reason, e.reason = some reason
  scope_eq : (engine.accessibleScope query).run.eval (answers src lookup) = .ok e.scope
  tenantInactive_iff : e.reason = some .tenantInactive ↔ ¬ src.TenantActive query.subject
  principalInactive_iff : e.reason = some .principalInactive ↔
    src.TenantActive query.subject ∧ ¬ src.MemberActive query.subject
  permissionMissing_iff : e.reason = some .permissionMissing ↔
    src.TenantActive query.subject ∧ src.MemberActive query.subject ∧
      ¬ ∃ g, engine.TakesEffect src lookup query g
  allow_active : e.decision = .allow →
    src.TenantActive query.subject ∧ src.MemberActive query.subject

/-! ## What the query resolves to -/

/-- The gate at which a resolved query stopped. -/
inductive Engine.Resolved (engine : Engine) (src : AuthorizationSource) (lookup : Lookup)
    (query : ScopeQuery) : AccessScope × Option DenyReason → Prop
  | tenantInactive (hno : ¬ src.TenantActive query.subject) :
      Resolved engine src lookup query (.none, some .tenantInactive)
  | principalInactive (htenant : src.TenantActive query.subject)
      (hno : ¬ src.MemberActive query.subject) :
      Resolved engine src lookup query (.none, some .principalInactive)
  | decided (htenant : src.TenantActive query.subject) (hmember : src.MemberActive query.subject)
      {grants : List EffectiveGrant}
      (hgrants : engine.effective src lookup query.subject = .ok grants) :
      Resolved engine src lookup query (engine.decide query grants)

theorem resolved_of_ok {res : AccessScope × Option DenyReason}
    (h : (engine.resolveScope query).run.eval (answers src lookup) = .ok res) :
    engine.Resolved src lookup query res := by
  rw [eval_resolveScope] at h
  rcases Results.bind_eq_ok.mp h with ⟨tenantStatus, htenant, h⟩
  rw [Results.mapError_eq_ok] at htenant
  -- the gates in the order in which the engine passes them
  split at h
  · rename_i hno
    cases h
    apply Engine.Resolved.tenantInactive
    intro hactive
    exact hno (Except.ok.inj (htenant.symm.trans hactive))
  · rename_i hactive
    rw [not_not.mp hactive] at htenant
    rcases Results.bind_eq_ok.mp h with ⟨membershipStatus, hmember, h⟩
    rw [Results.mapError_eq_ok] at hmember
    split at h
    · rename_i hno
      cases h
      apply Engine.Resolved.principalInactive htenant
      intro hactive
      exact hno (Except.ok.inj (hmember.symm.trans hactive))
    · rename_i hactive
      rw [not_not.mp hactive] at hmember
      rcases Results.bind_eq_ok.mp h with ⟨grants, hgrants, h⟩
      rw [eval_effectiveGrants] at hgrants
      cases h
      exact .decided htenant hmember hgrants

section Decided

variable {grants : List EffectiveGrant} (htenant : src.TenantActive query.subject)
  (hmember : src.MemberActive query.subject)
  (hgrants : engine.effective src lookup query.subject = .ok grants)
include htenant hmember hgrants

/-- The scopes that are merged are those of the grants that take effect. -/
theorem mem_decided_scopes (scope : GrantScope) :
    scope ∈ matchedScopes grants query.permission engine.config.enableWildcard ↔
      ∃ g, engine.TakesEffect src lookup query g ∧ g.scope = scope := by
  simp only [matchedScopes, List.mem_map, List.mem_filter]
  constructor
  · rintro ⟨g, ⟨hg, hmatch⟩, hscope⟩
    exact ⟨g, ⟨htenant, hmember, grants, hgrants, hg, hmatch⟩, hscope⟩
  · rintro ⟨g, ⟨-, -, grants', hgrants', hg, hmatch⟩, hscope⟩
    have heq : grants' = grants := Except.ok.inj (hgrants'.symm.trans hgrants)
    rw [heq] at hg
    exact ⟨g, ⟨hg, hmatch⟩, hscope⟩

/-- What the decision on these grants says of them. -/
theorem decided_spec :
    ((engine.decide query grants).1 = .none ↔ ¬ ∃ g, engine.TakesEffect src lookup query g) ∧
      ((∃ t, (engine.decide query grants).1 = .tenant t) ↔
        ∃ g, engine.TakesEffect src lookup query g ∧ g.scope = .tenant) ∧
      ∀ target, (engine.decide query grants).1.allowsPath target = true ↔
        ∃ g, engine.TakesEffect src lookup query g ∧ g.scope.Covers target := by
  have hmem := mem_decided_scopes htenant hmember hgrants
  exact ⟨decide_none hmem, decide_tenant hmem, decide_allowsPath hmem⟩

end Decided

/-! ## The two explanations -/

/-- An explanation of a resolved query carries its scope, and says `deny` for
the reason that resolving gave, or for one of its own. -/
structure Faithful (explain : AccessScope → Option DenyReason → AccessExplanation) : Prop where
  scope : ∀ s reason, (explain s reason).scope = s
  deny_iff : ∀ s reason, (explain s reason).decision = .deny ↔
    ∃ r, (explain s reason).reason = some r
  none : ∀ reason, (explain .none reason).reason = reason.or (some .permissionMissing)
  own : ∀ s reason, s ≠ .none → (explain s reason).reason ≠ some .tenantInactive ∧
    (explain s reason).reason ≠ some .principalInactive ∧
    (explain s reason).reason ≠ some .permissionMissing

theorem faithful_explainPath (target : ScopePath) : Faithful (Engine.explainPath target) where
  scope := explainPath_scope target
  deny_iff s reason := by
    cases s with
    | none => cases reason <;> simp [Engine.explainPath]
    | tenant t => simp [Engine.explainPath]
    | paths t roots =>
      cases h : (AccessScope.paths t roots).allowsPath target <;> simp [Engine.explainPath, h]
  none reason := rfl
  own s reason hs := by
    cases s with
    | none => exact absurd rfl hs
    | tenant t => simp [Engine.explainPath]
    | paths t roots =>
      cases h : (AccessScope.paths t roots).allowsPath target <;> simp [Engine.explainPath, h]

theorem faithful_explainWholeTenant : Faithful Engine.explainWholeTenant where
  scope := explainWholeTenant_scope
  deny_iff s reason := by
    cases s with
    | none => cases reason <;> simp [Engine.explainWholeTenant]
    | tenant t => simp [Engine.explainWholeTenant]
    | paths t roots => simp [Engine.explainWholeTenant]
  none reason := rfl
  own s reason hs := by
    cases s with
    | none => exact absurd rfl hs
    | tenant t => simp [Engine.explainWholeTenant]
    | paths t roots => simp [Engine.explainWholeTenant]

theorem Faithful.ne_allow {explain : AccessScope → Option DenyReason → AccessExplanation}
    (hexplain : Faithful explain) {s : AccessScope} {reason : Option DenyReason} {r : DenyReason}
    (hr : (explain s reason).reason = some r) : (explain s reason).decision ≠ .allow := by
  intro hallow
  rw [(hexplain.deny_iff s reason).mpr ⟨r, hr⟩] at hallow
  cases hallow

/-- Without a scope the reason that resolving gave names the gate. -/
theorem reasons_of_none {reason : Option DenyReason}
    (hres : engine.Resolved src lookup query (.none, reason)) :
    let named := reason.or (some .permissionMissing)
    (named = some .tenantInactive ↔ ¬ src.TenantActive query.subject) ∧
      (named = some .principalInactive ↔
        src.TenantActive query.subject ∧ ¬ src.MemberActive query.subject) ∧
      (named = some .permissionMissing ↔ src.TenantActive query.subject ∧
        src.MemberActive query.subject ∧ ¬ ∃ g, engine.TakesEffect src lookup query g) := by
  intro named
  generalize hpair : ((.none : AccessScope), reason) = res at hres
  cases hres with
  | tenantInactive hno =>
    cases hpair
    simp [named, hno]
  | principalInactive htenant hno =>
    cases hpair
    simp [named, htenant, hno]
  | @decided htenant hmember grants hgrants =>
    have hnone := (decided_spec htenant hmember hgrants).1
    have hreason := decide_reason engine query grants
    rw [← hpair] at hnone hreason
    have hnamed : named = some .permissionMissing := congrArg (Option.or · _) hreason
    simp [hnamed, htenant, hmember, hnone.mp rfl]

/-- A scope is only given to an active member, and some grant takes effect. -/
theorem effect_of_resolved {s : AccessScope} {reason : Option DenyReason}
    (hres : engine.Resolved src lookup query (s, reason)) (hs : s ≠ .none) :
    src.TenantActive query.subject ∧ src.MemberActive query.subject ∧
      ∃ g, engine.TakesEffect src lookup query g := by
  generalize hpair : (s, reason) = res at hres
  cases hres with
  | tenantInactive hno =>
    cases hpair
    exact absurd rfl hs
  | principalInactive htenant hno =>
    cases hpair
    exact absurd rfl hs
  | decided htenant hmember hgrants =>
    have hnone := (decided_spec htenant hmember hgrants).1
    rw [← hpair] at hnone
    refine ⟨htenant, hmember, ?_⟩
    by_contra hno
    exact hs (hnone.mpr hno)

/-- Either explanation names the first gate that failed, as far as the gates
are the same for both. -/
theorem explains_of_resolved {explain : AccessScope → Option DenyReason → AccessExplanation}
    (hexplain : Faithful explain) {s : AccessScope} {reason : Option DenyReason}
    (hok : (engine.resolveScope query).run.eval (answers src lookup) = .ok (s, reason)) :
    engine.Explains src lookup query (explain s reason) := by
  have hscope : (engine.accessibleScope query).run.eval (answers src lookup) =
      .ok (explain s reason).scope := by
    unfold Engine.accessibleScope
    rw [Fallible.run_map, Prog.eval_bind, hok, hexplain.scope]
    rfl
  have hdeny := hexplain.deny_iff s reason
  have hres := resolved_of_ok hok
  by_cases hs : s = .none
  · -- the explanation passes on the reason for which there is no scope
    subst hs
    obtain ⟨htenant, hmember, hmissing⟩ := reasons_of_none hres
    rw [← hexplain.none] at htenant hmember hmissing
    refine ⟨hdeny, hscope, htenant, hmember, hmissing, fun hallow => ?_⟩
    exact absurd hallow (hexplain.ne_allow ((hexplain.none reason).trans Option.or_some))
  · -- the reason, if there is one, is the explanation's own
    obtain ⟨hown, hown', hown''⟩ := hexplain.own s reason hs
    obtain ⟨htenant, hmember, heffect⟩ := effect_of_resolved hres hs
    exact ⟨hdeny, hscope, by simp [hown, htenant], by simp [hown', hmember],
      by simp [hown'', heffect], fun _ => ⟨htenant, hmember⟩⟩

/-- The scope of a resolved query lists paths exactly when grants take effect
and none of them is for the whole tenant. -/
theorem paths_iff_of_resolved {s : AccessScope} {reason : Option DenyReason}
    (hres : engine.Resolved src lookup query (s, reason)) :
    (∃ t roots, s = .paths t roots) ↔ (∃ g, engine.TakesEffect src lookup query g) ∧
      ¬ ∃ g, engine.TakesEffect src lookup query g ∧ g.scope = .tenant := by
  generalize hpair : (s, reason) = res at hres
  cases hres with
  -- an inactive tenant has no scope, and no grant takes effect in it
  | tenantInactive hno =>
    cases hpair
    constructor
    · rintro ⟨t, roots, h⟩
      cases h
    · rintro ⟨⟨g, hg⟩, -⟩
      exact absurd hg.1 hno
  | principalInactive htenant hno =>
    cases hpair
    constructor
    · rintro ⟨t, roots, h⟩
      cases h
    · rintro ⟨⟨g, hg⟩, -⟩
      exact absurd hg.2.1 hno
  | decided htenant hmember hgrants =>
    obtain ⟨hnone, hwhole, _⟩ := decided_spec htenant hmember hgrants
    rw [← hpair] at hnone hwhole
    have hsome : (∃ g, engine.TakesEffect src lookup query g) ↔ s ≠ .none :=
      not_iff_not.mp (hnone.symm.trans not_not.symm)
    rw [← hwhole, hsome]
    cases s <;> simp

/-- The scope of a resolved query allows what a grant that takes effect covers. -/
theorem allowsPath_iff_of_resolved {s : AccessScope} {reason : Option DenyReason}
    (hres : engine.Resolved src lookup query (s, reason)) (target : ScopePath) :
    s.allowsPath target = true ↔
      ∃ g, engine.TakesEffect src lookup query g ∧ g.scope.Covers target := by
  generalize hpair : (s, reason) = res at hres
  cases hres with
  | tenantInactive hno =>
    cases hpair
    constructor
    · intro h
      cases h
    · rintro ⟨g, hg, -⟩
      exact absurd hg.1 hno
  | principalInactive htenant hno =>
    cases hpair
    constructor
    · intro h
      cases h
    · rintro ⟨g, hg, -⟩
      exact absurd hg.2.1 hno
  | decided htenant hmember hgrants =>
    have hallow := (decided_spec htenant hmember hgrants).2.2 target
    rw [← hpair] at hallow
    exact hallow

/-- Resolving a query names only gates that come before the scope. -/
theorem reason_of_resolved {s : AccessScope} {reason : Option DenyReason}
    (hres : engine.Resolved src lookup query (s, reason)) :
    reason ≠ some .scopeDenied ∧ reason ≠ some .targetScopeRequired := by
  generalize hpair : (s, reason) = res at hres
  cases hres with
  | tenantInactive hno =>
    cases hpair
    exact ⟨nofun, nofun⟩
  | principalInactive htenant hno =>
    cases hpair
    exact ⟨nofun, nofun⟩
  | @decided htenant hmember grants hgrants =>
    have hreason := decide_reason engine query grants
    rw [← hpair] at hreason
    change reason = _ at hreason
    rw [hreason]
    split <;> exact ⟨nofun, nofun⟩

/-- A path check denies the scope when there are paths and none of them allows
the target. -/
theorem explainPath_scopeDenied (target : ScopePath) (s : AccessScope)
    {reason : Option DenyReason} (hreason : reason ≠ some .scopeDenied ∧
      reason ≠ some .targetScopeRequired) :
    ((Engine.explainPath target s reason).reason = some .scopeDenied ↔
      (∃ t roots, s = .paths t roots) ∧ ¬ s.allowsPath target = true) ∧
      (Engine.explainPath target s reason).reason ≠ some .targetScopeRequired := by
  cases s with
  | none =>
    cases reason with
    | none => simp [Engine.explainPath]
    | some r =>
      simpa [Engine.explainPath] using hreason
  | tenant t => simp [Engine.explainPath]
  | paths t roots =>
    cases h : (AccessScope.paths t roots).allowsPath target <;> simp [Engine.explainPath, h]

/-- A tenant check asks for a target when there are only paths. -/
theorem explainWholeTenant_targetScopeRequired (s : AccessScope) {reason : Option DenyReason}
    (hreason : reason ≠ some .scopeDenied ∧ reason ≠ some .targetScopeRequired) :
    ((Engine.explainWholeTenant s reason).reason = some .targetScopeRequired ↔
      ∃ t roots, s = .paths t roots) ∧
      (Engine.explainWholeTenant s reason).reason ≠ some .scopeDenied := by
  cases s with
  | none =>
    cases reason with
    | none => simp [Engine.explainWholeTenant]
    | some r =>
      simpa [Engine.explainWholeTenant, and_comm] using hreason
  | tenant t => simp [Engine.explainWholeTenant]
  | paths t roots => simp [Engine.explainWholeTenant]

/-- Whatever the cache holds, an explanation that is returned denies exactly
when it names a reason, and the reason is the first gate that failed: an
inactive tenant, an inactive member, no grant that takes effect, or grants that
do not reach far enough. The yes-or-no answer and the scope are the ones that
the other queries give, and nothing is allowed to an inactive tenant or
member. -/
theorem explanations_name_first_gate (engine : Engine) (src : AuthorizationSource)
    (lookup : Lookup) (subject : AuthSubject) (permission : Permission) (target : ScopePath) :
    (∀ e, (engine.explainAccessScope ⟨subject, permission, target⟩).run.eval
        (answers src lookup) = .ok e →
      engine.Explains src lookup ⟨subject, permission⟩ e ∧
      (engine.canAccessScope ⟨subject, permission, target⟩).run.eval (answers src lookup) =
        .ok e.decision ∧
      (e.reason = some .scopeDenied ↔
        (∃ g, engine.TakesEffect src lookup ⟨subject, permission⟩ g) ∧
        (¬ ∃ g, engine.TakesEffect src lookup ⟨subject, permission⟩ g ∧ g.scope = .tenant) ∧
        ¬ ∃ g, engine.TakesEffect src lookup ⟨subject, permission⟩ g ∧
          ∃ root ∈ g.scope.roots, root.allows target = true) ∧
      e.reason ≠ some .targetScopeRequired) ∧
    ∀ e, (engine.explainTenant ⟨subject, permission⟩).run.eval (answers src lookup) = .ok e →
      engine.Explains src lookup ⟨subject, permission⟩ e ∧
      (engine.canTenant ⟨subject, permission⟩).run.eval (answers src lookup) = .ok e.decision ∧
      (e.reason = some .targetScopeRequired ↔
        (∃ g, engine.TakesEffect src lookup ⟨subject, permission⟩ g) ∧
        ¬ ∃ g, engine.TakesEffect src lookup ⟨subject, permission⟩ g ∧ g.scope = .tenant) ∧
      e.reason ≠ some .scopeDenied := by
  constructor
  · intro e he
    unfold Engine.explainAccessScope at he
    rw [Fallible.eval_bind] at he
    obtain ⟨⟨s, reason⟩, hok, hreturn⟩ := Results.bind_eq_ok.mp he
    have hres := resolved_of_ok hok
    obtain ⟨hdenied, hnever⟩ := explainPath_scopeDenied target s (reason_of_resolved hres)
    cases hreturn
    refine ⟨explains_of_resolved (faithful_explainPath target) hok, ?_, ?_, hnever⟩
    · unfold Engine.canAccessScope Engine.explainAccessScope
      rw [Fallible.run_map, Prog.eval_bind, Fallible.eval_bind, hok]
      rfl
    · refine hdenied.trans ?_
      rw [paths_iff_of_resolved hres, allowsPath_iff_of_resolved hres, and_assoc]
      refine and_congr_right fun _ => and_congr_right fun hno => not_congr ?_
      -- no grant is for the whole tenant, so covering is up to the roots
      refine exists_congr fun g => and_congr_right fun hg => ?_
      rw [GrantScope.covers_iff]
      exact or_iff_right fun htenant => hno ⟨g, hg, htenant⟩
  · intro e he
    unfold Engine.explainTenant at he
    rw [Fallible.eval_bind] at he
    obtain ⟨⟨s, reason⟩, hok, hreturn⟩ := Results.bind_eq_ok.mp he
    have hres := resolved_of_ok hok
    obtain ⟨hrequired, hnever⟩ :=
      explainWholeTenant_targetScopeRequired s (reason_of_resolved hres)
    cases hreturn
    refine ⟨explains_of_resolved faithful_explainWholeTenant hok, ?_, ?_, hnever⟩
    · unfold Engine.canTenant Engine.explainTenant
      rw [Fallible.run_map, Prog.eval_bind, Fallible.eval_bind, hok]
      rfl
    · exact hrequired.trans (paths_iff_of_resolved hres)

namespace Sample

/-- The clerk's tenant has been closed. -/
def closed : Facts := { facts with tenantStatus := fun _ => .inactive }

/-- A cache that still has the clerk's grants. -/
def stale : Lookup := fun _ _ _ => some [⟨clerk, read, .tenant⟩]

end Sample

/-- A cached grant for the whole of a closed tenant. -/
theorem explanations_name_first_gate_sample :
    ¬ Sample.closed.source.TenantActive Sample.subject := by
  have h := (explanations_name_first_gate (Engine.build ⟨false, true, 16⟩) Sample.closed.source
    Sample.stale Sample.subject Sample.read ⟨['x'], by decide⟩).2
    ⟨.deny, some .tenantInactive, .none⟩ rfl
  exact h.1.tenantInactive_iff.mp rfl

end RsTenant
