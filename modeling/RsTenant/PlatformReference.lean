import RsTenant.PlatformEngine
import RsTenant.Reference

/-! # The reference semantics of the platform engine

`Granted` holds of the scopes of the subject's matched assignments. The
platform check looks for the platform scope among them and for nothing else;
the tenant-data checks take the union of the others and do not see the
platform scope at all (`platform_reference`).
-/

namespace RsTenant

open Interact Walk Ordered

/-- Some matched assignment of the subject has the scope. -/
def PlatformFacts.Granted (facts : PlatformFacts) (config : PlatformEngineConfig)
    (subject : PlatformSubject) (required : Permission) (g : PlatformGrantScope) : Prop :=
  ∃ a, facts.Matched config subject required a ∧ a.scope = g

/-- What the four platform queries answer, given which scopes are granted. -/
structure PlatformDecides (engine : PlatformEngine) (src : PlatformAuthorizationSource)
    (subject : PlatformSubject) (required : Permission) (Granted : PlatformGrantScope → Prop) :
    Prop where
  platform : ∃ d, (engine.canPlatform ⟨subject, required⟩).run.eval src.answer = .ok d ∧
    (d = .allow ↔ Granted .platform)
  mixed : TenantDataAccessScope.Mixed Granted → ∀ tenant target, ∃ msg,
    (engine.accessibleTenants ⟨subject, required⟩).run.eval src.answer =
        .error (.invalidScope msg) ∧
      (engine.canAccessTenant ⟨subject, required, tenant⟩).run.eval src.answer =
        .error (.invalidScope msg) ∧
      (engine.canAccessTenantScope ⟨subject, required, tenant, target⟩).run.eval src.answer =
        .error (.invalidScope msg)
  accessible : ¬ TenantDataAccessScope.Mixed Granted → ∃ s,
    (engine.accessibleTenants ⟨subject, required⟩).run.eval src.answer = .ok s ∧
      (∀ t, s.allowsTenant t = true ↔ ∃ g, Granted g ∧ g.CoversTenant t) ∧
      ∀ t p, s.allowsPath t p = true ↔ ∃ g, Granted g ∧ g.CoversPath t p
  tenant : ¬ TenantDataAccessScope.Mixed Granted → ∀ tenant, ∃ d,
    (engine.canAccessTenant ⟨subject, required, tenant⟩).run.eval src.answer = .ok d ∧
      (d = .allow ↔ ∃ g, Granted g ∧ g.CoversTenant tenant)
  tenantScope : ¬ TenantDataAccessScope.Mixed Granted → ∀ tenant target, ∃ d,
    (engine.canAccessTenantScope ⟨subject, required, tenant, target⟩).run.eval src.answer =
        .ok d ∧
      (d = .allow ↔ ∃ g, Granted g ∧ g.CoversPath tenant target)

section Reference

variable {engine : PlatformEngine} {facts : PlatformFacts} {subject : PlatformSubject}
  {required : Permission}

/-- The answers of the four queries, from the list of granted scopes. -/
theorem platformDecides_of_scopes {scopes : List PlatformGrantScope}
    {Granted : PlatformGrantScope → Prop} (h : ∀ g, g ∈ scopes ↔ Granted g)
    (hscopes : engine.scopes facts subject required = .ok scopes) :
    PlatformDecides engine facts.source subject required Granted := by
  have haccessible : (engine.accessibleTenants ⟨subject, required⟩).run.eval facts.source.answer =
      TenantDataAccessScope.merge scopes := by
    rw [eval_accessibleTenants, hscopes]
    rfl
  -- without a conflict merging succeeds
  have hok : ¬ TenantDataAccessScope.Mixed Granted →
      ∃ s, TenantDataAccessScope.merge scopes = .ok s := by
    intro hmixed
    cases hmerge : TenantDataAccessScope.merge scopes with
    | ok s => exact ⟨s, rfl⟩
    | error e => exact absurd ((TenantDataAccessScope.merge_error_iff h).mp ⟨e, hmerge⟩) hmixed
  constructor
  · refine ⟨_, by rw [eval_canPlatform, hscopes]; rfl, ?_⟩
    rw [decision_eq_allow, decide_eq_true_eq, h]
  · intro hmixed tenant target
    have hmerge := TenantDataAccessScope.merge_of_mixed h hmixed
    refine ⟨_, haccessible.trans hmerge, ?_, ?_⟩
    · rw [eval_canAccessTenant, haccessible, hmerge]
      rfl
    · rw [eval_canAccessTenantScope, haccessible, hmerge]
      rfl
  · intro hmixed
    obtain ⟨s, hs⟩ := hok hmixed
    exact ⟨s, haccessible.trans hs, TenantDataAccessScope.allows_merge h hs⟩
  · intro hmixed tenant
    obtain ⟨s, hs⟩ := hok hmixed
    refine ⟨decision (s.allowsTenant tenant), ?_, ?_⟩
    · rw [eval_canAccessTenant, haccessible, hs]
      rfl
    · rw [decision_eq_allow]
      exact (TenantDataAccessScope.allows_merge h hs).1 tenant
  · intro hmixed tenant target
    obtain ⟨s, hs⟩ := hok hmixed
    refine ⟨decision (s.allowsPath tenant target), ?_, ?_⟩
    · rw [eval_canAccessTenantScope, haccessible, hs]
      rfl
    · rw [decision_eq_allow]
      exact (TenantDataAccessScope.allows_merge h hs).2 tenant target

/-- Expansion succeeds for every assigned role. -/
def PlatformEngine.Expands (engine : PlatformEngine) (facts : PlatformFacts)
    (subject : PlatformSubject) : Prop :=
  ∀ a ∈ facts.roleAssignments subject, ∃ roles,
    (engine.roleReads.rolesOf a.role).run.eval facts.source.answer = .ok roles

theorem scopes_of_expands (hactive : facts.principalStatus subject = .active)
    (hexpands : engine.Expands facts subject) (required : Permission) :
    ∃ scopes, engine.scopes facts subject required = .ok scopes ∧
      ∀ g, g ∈ scopes ↔ facts.Granted engine.config subject required g := by
  have hok : ∃ scopes, engine.scopes facts subject required = .ok scopes := by
    rw [scopes_ok_iff hactive]
    intro a ha
    exact (rolesOf_ok_iff (serves_platform engine facts) a.role).mp (hexpands a ha)
  rcases hok with ⟨scopes, hscopes⟩
  exact ⟨scopes, hscopes, mem_scopes hactive hscopes⟩

/-- Two queries whose matching scopes differ in the platform's own scope only are
answered alike as far as tenant data goes. -/
theorem tenantData_congr {engine' : PlatformEngine} {facts' : PlatformFacts}
    {subject' : PlatformSubject} {required required' : Permission}
    {scopes scopes' : List PlatformGrantScope}
    (h : engine.scopes facts subject required = .ok scopes)
    (h' : engine'.scopes facts' subject' required' = .ok scopes')
    (hsame : ∀ g, g ≠ .platform → (g ∈ scopes ↔ g ∈ scopes')) :
    (engine.accessibleTenants ⟨subject, required⟩).run.eval facts.source.answer =
        (engine'.accessibleTenants ⟨subject', required'⟩).run.eval facts'.source.answer ∧
      ∀ tenant target,
        (engine.canAccessTenant ⟨subject, required, tenant⟩).run.eval facts.source.answer =
            (engine'.canAccessTenant ⟨subject', required', tenant⟩).run.eval facts'.source.answer ∧
          (engine.canAccessTenantScope ⟨subject, required, tenant, target⟩).run.eval
              facts.source.answer =
            (engine'.canAccessTenantScope ⟨subject', required', tenant, target⟩).run.eval
              facts'.source.answer := by
  have haccessible : (engine.accessibleTenants ⟨subject, required⟩).run.eval facts.source.answer =
      (engine'.accessibleTenants ⟨subject', required'⟩).run.eval facts'.source.answer := by
    rw [eval_accessibleTenants, eval_accessibleTenants, h, h']
    -- merging leaves out the platform's own scope
    exact TenantDataAccessScope.merge_congr hsame
  refine ⟨haccessible, fun tenant target => ⟨?_, ?_⟩⟩
  · rw [eval_canAccessTenant, eval_canAccessTenant, haccessible]
  · rw [eval_canAccessTenantScope, eval_canAccessTenantScope, haccessible]

/-- Without matching grants everything is denied. -/
theorem denied_of_scopes {required : Permission} (h : engine.scopes facts subject required = .ok [])
    (tenant : TenantId) (target : ScopePath) :
    (engine.canPlatform ⟨subject, required⟩).run.eval facts.source.answer = .ok .deny ∧
      (engine.accessibleTenants ⟨subject, required⟩).run.eval facts.source.answer = .ok .none ∧
      (engine.canAccessTenant ⟨subject, required, tenant⟩).run.eval facts.source.answer =
        .ok .deny ∧
      (engine.canAccessTenantScope ⟨subject, required, tenant, target⟩).run.eval
        facts.source.answer = .ok .deny := by
  have haccessible : (engine.accessibleTenants ⟨subject, required⟩).run.eval facts.source.answer =
      .ok .none := by
    rw [eval_accessibleTenants, h]
    rfl
  refine ⟨?_, haccessible, ?_, ?_⟩
  · rw [eval_canPlatform, h]
    rfl
  · rw [eval_canAccessTenant, haccessible]
    rfl
  · rw [eval_canAccessTenantScope, haccessible]
    rfl

end Reference

/-- The platform engine decides its reference semantics. A platform grant
opens the platform and no tenant data: tenant-data answers are the same for
any two principals whose grants differ in the platform scope only. A principal
that is not active gets nothing. -/
theorem platform_reference (engine : PlatformEngine) (facts : PlatformFacts)
    (subject : PlatformSubject) (required : Permission)
    (hexpands : facts.principalStatus subject = .active → engine.Expands facts subject) :
    (facts.principalStatus subject = .active →
      PlatformDecides engine facts.source subject required
        (facts.Granted engine.config subject required)) ∧
    (facts.principalStatus subject = .active →
      ∀ (engine' : PlatformEngine) (facts' : PlatformFacts) (subject' : PlatformSubject)
        (required' : Permission), facts'.principalStatus subject' = .active →
        engine'.Expands facts' subject' →
        (∀ g, g ≠ .platform → (facts.Granted engine.config subject required g ↔
          facts'.Granted engine'.config subject' required' g)) →
        (engine.accessibleTenants ⟨subject, required⟩).run.eval facts.source.answer =
            (engine'.accessibleTenants ⟨subject', required'⟩).run.eval facts'.source.answer ∧
          ∀ tenant target,
            (engine.canAccessTenant ⟨subject, required, tenant⟩).run.eval facts.source.answer =
                (engine'.canAccessTenant ⟨subject', required', tenant⟩).run.eval
                  facts'.source.answer ∧
              (engine.canAccessTenantScope ⟨subject, required, tenant, target⟩).run.eval
                  facts.source.answer =
                (engine'.canAccessTenantScope ⟨subject', required', tenant, target⟩).run.eval
                  facts'.source.answer) ∧
    (facts.principalStatus subject ≠ .active → ∀ tenant target,
      (engine.canPlatform ⟨subject, required⟩).run.eval facts.source.answer = .ok .deny ∧
        (engine.accessibleTenants ⟨subject, required⟩).run.eval facts.source.answer = .ok .none ∧
        (engine.canAccessTenant ⟨subject, required, tenant⟩).run.eval facts.source.answer =
          .ok .deny ∧
        (engine.canAccessTenantScope ⟨subject, required, tenant, target⟩).run.eval
          facts.source.answer = .ok .deny) := by
  refine ⟨fun hactive => ?_, fun hactive => ?_, fun hinactive => ?_⟩
  · obtain ⟨scopes, hscopes, hmem⟩ := scopes_of_expands hactive (hexpands hactive) required
    exact platformDecides_of_scopes hmem hscopes
  · intro engine' facts' subject' required' hactive' hexpands' hsame
    obtain ⟨scopes, hscopes, hmem⟩ := scopes_of_expands hactive (hexpands hactive) required
    obtain ⟨scopes', hscopes', hmem'⟩ := scopes_of_expands hactive' hexpands' required'
    refine tenantData_congr hscopes hscopes' fun g hg => ?_
    rw [hmem, hmem']
    exact hsame g hg
  · exact denied_of_scopes (scopes_of_inactive engine hinactive required)

namespace Sample

def operator : PlatformSubject := ⟨⟨['o'], by decide⟩⟩
def support : PlatformRoleId := ⟨['s'], by decide⟩

/-- One active principal with one role for the platform and for one tenant. -/
def platformFacts : PlatformFacts where
  principalStatus s := if s = operator then .active else .inactive
  roleAssignments _ :=
    [⟨support, .platform⟩, ⟨support, .tenants ⟨[tenant], by decide, by simp⟩⟩]
  rolePermissions _ := [read]
  parentRoles _ := []

end Sample

theorem platform_reference_sample :
    let engine : PlatformEngine := ⟨⟨false, false, 16⟩⟩
    PlatformDecides engine Sample.platformFacts.source Sample.operator Sample.read
      (Sample.platformFacts.Granted engine.config Sample.operator Sample.read) := by
  have hexpands : PlatformEngine.Expands ⟨⟨false, false, 16⟩⟩ Sample.platformFacts
      Sample.operator := fun a _ => ⟨[a.role], rfl⟩
  exact (platform_reference ⟨⟨false, false, 16⟩⟩ Sample.platformFacts Sample.operator Sample.read
    fun _ => hexpands).1 rfl

end RsTenant
