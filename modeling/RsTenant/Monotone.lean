import RsTenant.PlatformReference

/-! # More data never revokes access

Grants only ever add up: an engine that finds more assignments, permissions
or parents, or that has more features switched on, covers at least what it
covered before (`access_monotone`). The bound on the depth is the one setting
that can take an answer away, and then it takes all of it away by an error.
-/

namespace RsTenant

open Interact Walk

/-- Every answer about roles of the first facts is contained in the answer of
the second, and the statuses of the subject are the same. -/
structure Facts.Extends (facts facts' : Facts) (subject : AuthSubject) : Prop where
  tenantStatus : facts'.tenantStatus subject.tenant = facts.tenantStatus subject.tenant
  membershipStatus : facts'.membershipStatus subject = facts.membershipStatus subject
  roleAssignments : facts.roleAssignments subject ⊆ facts'.roleAssignments subject
  rolePermissions : ∀ r,
    facts.rolePermissions subject.tenant r ⊆ facts'.rolePermissions subject.tenant r
  parentRoles : ∀ r, facts.parentRoles subject.tenant r ⊆ facts'.parentRoles subject.tenant r

structure PlatformFacts.Extends (facts facts' : PlatformFacts) (subject : PlatformSubject) :
    Prop where
  principalStatus : facts'.principalStatus subject = facts.principalStatus subject
  roleAssignments : facts.roleAssignments subject ⊆ facts'.roleAssignments subject
  rolePermissions : ∀ r, facts.rolePermissions r ⊆ facts'.rolePermissions r
  parentRoles : ∀ r, facts.parentRoles r ⊆ facts'.parentRoles r

/-- The second configuration may have more switched on. -/
structure EngineConfig.Extends (config config' : EngineConfig) : Prop where
  hierarchy : config.enableRoleHierarchy = true → config'.enableRoleHierarchy = true
  wildcard : config.enableWildcard = true → config'.enableWildcard = true

structure PlatformEngineConfig.Extends (config config' : PlatformEngineConfig) : Prop where
  hierarchy : config.enableRoleHierarchy = true → config'.enableRoleHierarchy = true
  wildcard : config.enableWildcard = true → config'.enableWildcard = true

theorem Facts.Matched.mono {facts facts' : Facts} {config config' : EngineConfig}
    {query : ScopeQuery} (hfacts : facts.Extends facts' query.subject)
    (hconfig : config.Extends config') {a : RoleAssignment} (h : facts.Matched config query a) :
    facts'.Matched config' query a :=
  ⟨hfacts.roleAssignments h.1,
    RsTenant.Matched.mono hconfig.hierarchy hconfig.wildcard hfacts.parentRoles
      hfacts.rolePermissions h.2⟩

theorem PlatformFacts.Matched.mono {facts facts' : PlatformFacts}
    {config config' : PlatformEngineConfig} {subject : PlatformSubject} {required : Permission}
    (hfacts : facts.Extends facts' subject) (hconfig : config.Extends config')
    {a : PlatformRoleAssignment} (h : facts.Matched config subject required a) :
    facts'.Matched config' subject required a :=
  ⟨hfacts.roleAssignments h.1,
    RsTenant.Matched.mono hconfig.hierarchy hconfig.wildcard hfacts.parentRoles
      hfacts.rolePermissions h.2⟩

/-- Without a cache a query returns what it decides from fresh grants, or
nothing when a status is not active. -/
theorem accessibleScope_cases (engine : Engine) (facts : Facts) (query : ScopeQuery) :
    (facts.tenantStatus query.subject.tenant = .active ∧
        facts.membershipStatus query.subject = .active ∧
        (engine.accessibleScope query).run.eval (answers facts.source NoCache) =
          (engine.fresh facts.source query.subject).map fun grants =>
            (engine.decide query grants).1) ∨
      (¬ (facts.tenantStatus query.subject.tenant = .active ∧
          facts.membershipStatus query.subject = .active) ∧
        (engine.accessibleScope query).run.eval (answers facts.source NoCache) = .ok .none) := by
  unfold Engine.accessibleScope
  rw [Fallible.run_map, Prog.eval_bind]
  by_cases hactive : facts.tenantStatus query.subject.tenant = .active ∧
      facts.membershipStatus query.subject = .active
  · rcases hactive with ⟨htenant, hmember⟩
    refine .inl ⟨htenant, hmember, ?_⟩
    rw [eval_resolveScope_active facts.source NoCache query (congrArg Except.ok htenant)
      (congrArg Except.ok hmember), eval_effectiveGrants]
    show Except.map _ (Except.map _ (engine.fresh facts.source query.subject)) = _
    cases engine.fresh facts.source query.subject <;> rfl
  · refine .inr ⟨hactive, ?_⟩
    rw [eval_resolveScope]
    show Except.map _ (if facts.tenantStatus query.subject.tenant ≠ .active then _ else _) = _
    by_cases htenant : facts.tenantStatus query.subject.tenant = .active
    · rw [if_neg (not_not.mpr htenant)]
      show Except.map _ (if facts.membershipStatus query.subject ≠ .active then _ else _) = _
      rw [if_pos fun hmember => hactive ⟨htenant, hmember⟩]
      rfl
    · rw [if_pos htenant]
      rfl

/-- The tenant engine: what the first answer allows, the second allows. -/
theorem accessibleScope_mono {engine engine' : Engine} {facts facts' : Facts} {query : ScopeQuery}
    (hfacts : facts.Extends facts' query.subject) (hconfig : engine.config.Extends engine'.config)
    {s s' : AccessScope}
    (hs : (engine.accessibleScope query).run.eval (answers facts.source NoCache) = .ok s)
    (hs' : (engine'.accessibleScope query).run.eval (answers facts'.source NoCache) = .ok s') :
    (∀ target, s.allowsPath target = true → s'.allowsPath target = true) ∧
      ((∃ t, s = .tenant t) → ∃ t, s' = .tenant t) := by
  rcases accessibleScope_cases engine facts query with ⟨ht, hm, heval⟩ | ⟨-, heval⟩
  · rcases accessibleScope_cases engine' facts' query with ⟨-, -, heval'⟩ | ⟨hno, -⟩
    · rw [heval] at hs
      rw [heval'] at hs'
      -- both succeed, so both computed grants, and every match of the first is one of the second
      rcases Results.map_eq_ok.mp hs with ⟨grants, hfresh, rfl⟩
      rcases Results.map_eq_ok.mp hs' with ⟨grants', hfresh', rfl⟩
      constructor
      · intro target
        rw [decide_allowsPath (mem_fresh_scopes hfresh),
          decide_allowsPath (mem_fresh_scopes hfresh')]
        rintro ⟨a, ha, hcov⟩
        exact ⟨a, ha.mono hfacts hconfig, hcov⟩
      · rw [decide_tenant (mem_fresh_scopes hfresh), decide_tenant (mem_fresh_scopes hfresh')]
        rintro ⟨a, ha, hscope⟩
        exact ⟨a, ha.mono hfacts hconfig, hscope⟩
    · -- the statuses are the same for both
      exfalso
      apply hno
      rw [hfacts.tenantStatus, hfacts.membershipStatus]
      exact ⟨ht, hm⟩
  · -- an inactive subject was allowed nothing
    rw [heval] at hs
    cases hs
    constructor
    · intro target h
      cases h
    · rintro ⟨t, ht⟩
      cases ht

/-- Without role hierarchy a query does not fail. -/
theorem accessibleScope_ok (engine : Engine) (facts : Facts) (query : ScopeQuery)
    (hoff : engine.config.enableRoleHierarchy = false) :
    ∃ s, (engine.accessibleScope query).run.eval (answers facts.source NoCache) = .ok s := by
  rcases accessibleScope_cases engine facts query with ⟨-, -, heval⟩ | ⟨-, heval⟩
  · obtain ⟨grants, hfresh⟩ : ∃ grants, engine.fresh facts.source query.subject = .ok grants := by
      rw [fresh_ok_iff]
      intro a _ hon
      rw [hoff] at hon
      cases hon
    rw [heval, hfresh]
    exact ⟨_, rfl⟩
  · exact ⟨_, heval⟩

/-- The platform engine: what the first answer allows, the second allows. -/
theorem accessibleTenants_mono {engine engine' : PlatformEngine} {facts facts' : PlatformFacts}
    {query : TenantDataScopeQuery} (hfacts : facts.Extends facts' query.subject)
    (hconfig : engine.config.Extends engine'.config) {s s' : TenantDataAccessScope}
    (hs : (engine.accessibleTenants query).run.eval facts.source.answer = .ok s)
    (hs' : (engine'.accessibleTenants query).run.eval facts'.source.answer = .ok s') :
    (∀ t, s.allowsTenant t = true → s'.allowsTenant t = true) ∧
      ∀ t p, s.allowsPath t p = true → s'.allowsPath t p = true := by
  rw [eval_accessibleTenants] at hs hs'
  rcases Results.bind_eq_ok.mp hs with ⟨scopes, hscopes, hmerge⟩
  rcases Results.bind_eq_ok.mp hs' with ⟨scopes', hscopes', hmerge'⟩
  -- every scope found before is found again
  have hsub : ∀ g, g ∈ scopes → g ∈ scopes' := by
    by_cases hactive : facts.principalStatus query.subject = .active
    · have hactive' : facts'.principalStatus query.subject = .active := by
        rw [hfacts.principalStatus, hactive]
      intro g
      rw [mem_scopes hactive hscopes, mem_scopes hactive' hscopes']
      intro h
      rcases h with ⟨a, ha, hscope⟩
      exact ⟨a, ha.mono hfacts hconfig, hscope⟩
    · -- an inactive principal had no scopes
      unfold PlatformEngine.scopes at hscopes
      rw [if_pos hactive] at hscopes
      cases hscopes
      intro g hg
      exact absurd hg List.not_mem_nil
  have hcov := TenantDataAccessScope.allows_merge (fun _ => Iff.rfl) hmerge
  have hcov' := TenantDataAccessScope.allows_merge (fun _ => Iff.rfl) hmerge'
  constructor
  · intro t
    rw [hcov.1, hcov'.1]
    intro h
    rcases h with ⟨g, hg, hcover⟩
    exact ⟨g, hsub g hg, hcover⟩
  · intro t p
    rw [hcov.2, hcov'.2]
    intro h
    rcases h with ⟨g, hg, hcover⟩
    exact ⟨g, hsub g hg, hcover⟩

/-- More authorization data and more permissive flags never revoke access, in
either engine, and without role hierarchy no query of the tenant engine
fails. -/
theorem access_monotone (engine engine' : Engine) (facts facts' : Facts) (query : ScopeQuery)
    (hconfig : engine.config.Extends engine'.config)
    (hfacts : facts.Extends facts' query.subject)
    (platform platform' : PlatformEngine) (platformFacts platformFacts' : PlatformFacts)
    (tenantQuery : TenantDataScopeQuery) (hplatform : platform.config.Extends platform'.config)
    (hplatformFacts : platformFacts.Extends platformFacts' tenantQuery.subject) :
    (∀ s s',
      (engine.accessibleScope query).run.eval (answers facts.source NoCache) = .ok s →
      (engine'.accessibleScope query).run.eval (answers facts'.source NoCache) = .ok s' →
      (∀ target, s.allowsPath target = true → s'.allowsPath target = true) ∧
        ((∃ t, s = .tenant t) → ∃ t, s' = .tenant t)) ∧
    (engine.config.enableRoleHierarchy = false → engine'.config.enableRoleHierarchy = false →
      (∃ s, (engine.accessibleScope query).run.eval (answers facts.source NoCache) = .ok s) ∧
      ∃ s', (engine'.accessibleScope query).run.eval (answers facts'.source NoCache) = .ok s') ∧
    ∀ s s',
      (platform.accessibleTenants tenantQuery).run.eval platformFacts.source.answer = .ok s →
      (platform'.accessibleTenants tenantQuery).run.eval platformFacts'.source.answer = .ok s' →
      (∀ t, s.allowsTenant t = true → s'.allowsTenant t = true) ∧
        ∀ t p, s.allowsPath t p = true → s'.allowsPath t p = true := by
  refine ⟨fun s s' hs hs' => ?_, fun hoff hoff' => ⟨?_, ?_⟩, fun s s' hs hs' => ?_⟩
  · exact accessibleScope_mono hfacts hconfig hs hs'
  · exact accessibleScope_ok engine facts query hoff
  · exact accessibleScope_ok engine' facts' query hoff'
  · exact accessibleTenants_mono hplatformFacts hplatform hs hs'

namespace Sample

/-- The clerk's role is no longer the only one with a permission. -/
def permissive : Facts := { facts with rolePermissions := fun _ _ => [read] }

/-- The support is assigned for all tenants, too. -/
def promoted : PlatformFacts :=
  { platformFacts with
    roleAssignments := fun s => platformFacts.roleAssignments s ++ [⟨support, .allTenants⟩] }

theorem facts_permissive : facts.Extends permissive subject where
  tenantStatus := rfl
  membershipStatus := rfl
  roleAssignments := List.Subset.refl _
  rolePermissions r := by
    show (if r = clerk then [read] else []) ⊆ [read]
    split
    · exact List.Subset.refl _
    · exact List.nil_subset _
  parentRoles _ := List.Subset.refl _

theorem platformFacts_promoted : platformFacts.Extends promoted operator where
  principalStatus := rfl
  roleAssignments := List.subset_append_left _ _
  rolePermissions _ := List.Subset.refl _
  parentRoles _ := List.Subset.refl _

end Sample

/-- More permissions and wildcards in one engine, one more assignment and wildcards
in the other. -/
theorem access_monotone_sample :
    (∃ s s',
      ((Engine.build ⟨false, false, 16⟩).accessibleScope Sample.query).run.eval
        (answers Sample.facts.source NoCache) = .ok s ∧
      ((Engine.build ⟨false, true, 3⟩).accessibleScope Sample.query).run.eval
        (answers Sample.permissive.source NoCache) = .ok s' ∧
      ∀ target, s.allowsPath target = true → s'.allowsPath target = true) ∧
    ∃ s s',
      ((⟨⟨false, false, 16⟩⟩ : PlatformEngine).accessibleTenants
        ⟨Sample.operator, Sample.read⟩).run.eval Sample.platformFacts.source.answer = .ok s ∧
      ((⟨⟨false, true, 3⟩⟩ : PlatformEngine).accessibleTenants
        ⟨Sample.operator, Sample.read⟩).run.eval Sample.promoted.source.answer = .ok s' ∧
      s ≠ s' ∧ ∀ t, s.allowsTenant t = true → s'.allowsTenant t = true := by
  have hmonotone := access_monotone (Engine.build ⟨false, false, 16⟩) (Engine.build ⟨false, true, 3⟩)
    Sample.facts Sample.permissive Sample.query ⟨id, fun _ => rfl⟩ Sample.facts_permissive
    ⟨⟨false, false, 16⟩⟩ ⟨⟨false, true, 3⟩⟩ Sample.platformFacts Sample.promoted
    ⟨Sample.operator, Sample.read⟩ ⟨id, fun _ => rfl⟩ Sample.platformFacts_promoted
  constructor
  · exact ⟨.tenant Sample.tenant, .tenant Sample.tenant, rfl, rfl, (hmonotone.1 _ _ rfl rfl).1⟩
  · exact ⟨_, _, rfl, rfl, by decide, (hmonotone.2.2 _ _ rfl rfl).1⟩

end RsTenant
