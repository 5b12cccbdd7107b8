import RsTenant.PlatformReference

/-! # The order in which parents are listed

`expandRoles` counts the depth of a role along the chain on which the search
first meets it, so which chain that is matters. Listing the parents of a role
in another order never changes the roles that come out, but it can decide
whether anything comes out: `order_counterexample` has a role that is found
either at the end of a short chain or at the end of a long one.

The order does not matter when a cycle is reachable, when no chain is longer
than the bound, or when every order runs into the bound (`OrderFree`), and it
does matter in all other cases (`role_order_free`).
-/

namespace RsTenant

open Interact Walk

/-! ## When the order does not matter -/

section OrderFree

variable {Role : Type} {f : Role → List Role} {maxDepth : ℕ}

/-- Every role of the list can be expanded. -/
def AllExpand (f : Role → List Role) (maxDepth : ℕ) (roles : List Role) : Prop :=
  ∀ r ∈ roles, Acyclic f r ∧ Shallow f r maxDepth

/-- Either a cycle is reachable from one of the roles, or no chain from them
has more than `maxDepth` edges, or in every order some role with parents is
first met `maxDepth` edges down. -/
def OrderFree (f : Role → List Role) (maxDepth : ℕ) (roles : List Role) : Prop :=
  (∃ r ∈ roles, ¬ Acyclic f r) ∨ (∀ r ∈ roles, ¬ HasChain f r (maxDepth + 1)) ∨
    ∀ f', Reordered f f' → ∃ r ∈ roles, ¬ Shallow f' r maxDepth

/-- Without a chain that is too long, no first chain is. -/
theorem shallow_of_not_hasChain {r : Role} (h : ¬ HasChain f r (maxDepth + 1)) :
    Shallow f r maxDepth := by
  intro a u hfirst hne
  by_contra hlen
  apply h
  rcases List.exists_mem_of_ne_nil _ hne with ⟨p, hp⟩
  rcases List.getElem?_of_mem hp with ⟨i, hi⟩
  have hchain : HasChain f r (a.length + 1) :=
    ⟨a ++ [i], p, by rw [List.length_append, List.length_singleton],
      (walk_snoc hfirst.1 i).trans hi⟩
  exact hchain.of_le (by omega)

/-- A chain that is too long is a first chain in some order. -/
theorem exists_not_shallow {r : Role} (hacyclic : Acyclic f r)
    (h : HasChain f r (maxDepth + 1)) : ∃ f', Reordered f f' ∧ ¬ Shallow f' r maxDepth := by
  rcases h with ⟨a, p, hlen, hp⟩
  have hsplit : a.take maxDepth ++ a.drop maxDepth = a := List.take_append_drop maxDepth a
  have hdrop : (a.drop maxDepth).length = 1 := by
    rw [List.length_drop]
    omega
  rcases List.length_eq_one_iff.mp hdrop with ⟨i, hi⟩
  rw [← hsplit, hi, walk_append] at hp
  rcases Option.bind_eq_some_iff.mp hp with ⟨u, hu, hp⟩
  have hparent : p ∈ f u := by
    apply List.mem_of_getElem?
    rwa [show [i] = [] ++ [i] from rfl, walk_snoc (rfl : walk f u [] = some u)] at hp
  rcases exists_reordered_first hacyclic hu with ⟨f', hre, hfirst⟩
  refine ⟨f', hre, fun hshallow => ?_⟩
  have hne : f' u ≠ [] := List.ne_nil_of_mem ((hre u).mem_iff.mpr hparent)
  have hlt := hshallow _ u hfirst hne
  rw [List.length_replicate, List.length_take] at hlt
  omega

/-- The order does not decide the outcome exactly in the three cases. -/
theorem orderFree_iff (roles : List Role) :
    (∀ f', Reordered f f' → (AllExpand f maxDepth roles ↔ AllExpand f' maxDepth roles)) ↔
      OrderFree f maxDepth roles := by
  constructor
  · intro h
    by_cases hcycle : ∃ r ∈ roles, ¬ Acyclic f r
    · exact .inl hcycle
    · right
      have hacyclic : ∀ r ∈ roles, Acyclic f r := by
        intro r hr
        by_contra hno
        exact hcycle ⟨r, hr, hno⟩
      by_cases hall : AllExpand f maxDepth roles
      · -- every order succeeds, so no chain can be made a first one
        left
        intro r hr hchain
        rcases exists_not_shallow (hacyclic r hr) hchain with ⟨f', hre, hno⟩
        exact hno (((h f' hre).mp hall) r hr).2
      · -- every order fails, and not at a cycle
        right
        intro f' hre
        by_contra hno
        apply hall
        rw [h f' hre]
        intro r hr
        refine ⟨hre.acyclic_iff.mpr (hacyclic r hr), ?_⟩
        by_contra hdeep
        exact hno ⟨r, hr, hdeep⟩
  · intro h f' hre
    rcases h with ⟨r, hr, hcycle⟩ | hchain | hdeep
    · -- a cycle stays one in every order, so both sides are false
      constructor
      · intro hall
        exact absurd (hall r hr).1 hcycle
      · intro hall
        exact absurd (hre.acyclic_iff.mp (hall r hr).1) hcycle
    · -- no order has a first chain that is too long
      have hshallow : ∀ r ∈ roles, Shallow f r maxDepth ∧ Shallow f' r maxDepth := by
        intro r hr
        refine ⟨shallow_of_not_hasChain (hchain r hr), shallow_of_not_hasChain fun hc => ?_⟩
        exact hchain r hr (hre.hasChain hc)
      constructor
      · intro hall r hr
        exact ⟨hre.acyclic_iff.mpr (hall r hr).1, (hshallow r hr).2⟩
      · intro hall r hr
        exact ⟨hre.acyclic_iff.mp (hall r hr).1, (hshallow r hr).1⟩
    · -- both orders run into the bound
      constructor
      · intro hall
        rcases hdeep f (.refl f) with ⟨r, hr, hno⟩
        exact absurd (hall r hr).2 hno
      · intro hall
        rcases hdeep f' hre with ⟨r, hr, hno⟩
        exact absurd (hall r hr).2 hno

end OrderFree

/-! ## Outcomes -/

/-- Both calls succeed with related values, or both fail. -/
def SameOutcome {α : Type} (R : α → α → Prop) (x y : Except Error α) : Prop :=
  (∃ a b, x = .ok a ∧ y = .ok b ∧ R a b) ∨ (∃ e, x = .error e) ∧ ∃ e, y = .error e

theorem sameOutcome_of_iff {α : Type} {R : α → α → Prop} {x y : Except Error α}
    (hok : (∃ a, x = .ok a) ↔ ∃ b, y = .ok b) (hR : ∀ a b, x = .ok a → y = .ok b → R a b) :
    SameOutcome R x y := by
  cases x with
  | ok a =>
    rcases hok.mp ⟨a, rfl⟩ with ⟨b, rfl⟩
    exact .inl ⟨a, b, rfl, rfl, hR a b rfl rfl⟩
  | error e =>
    cases y with
    | ok b =>
      rcases hok.mpr ⟨b, rfl⟩ with ⟨a, ha⟩
      cases ha
    | error e' => exact .inr ⟨⟨e, rfl⟩, e', rfl⟩

theorem SameOutcome.ok_iff {α : Type} {R : α → α → Prop} {x y : Except Error α}
    (h : SameOutcome R x y) : (∃ a, x = .ok a) ↔ ∃ b, y = .ok b := by
  rcases h with ⟨a, b, rfl, rfl, -⟩ | ⟨⟨e, rfl⟩, e', rfl⟩
  · exact ⟨fun _ => ⟨b, rfl⟩, fun _ => ⟨a, rfl⟩⟩
  · constructor
    · rintro ⟨a, ha⟩
      cases ha
    · rintro ⟨b, hb⟩
      cases hb

theorem SameOutcome.map {α β : Type} {R : α → α → Prop} {R' : β → β → Prop} {x y : Except Error α}
    (h : SameOutcome R x y) {f g : α → β} (hR : ∀ a b, R a b → R' (f a) (g b)) :
    SameOutcome R' (x.map f) (y.map g) := by
  rcases h with ⟨a, b, rfl, rfl, hab⟩ | ⟨⟨e, rfl⟩, e', rfl⟩
  · exact .inl ⟨f a, g b, rfl, rfl, hR a b hab⟩
  · exact .inr ⟨⟨e, rfl⟩, e', rfl⟩

/-- The same set of roles, in whatever order. -/
def SameRoles {Role : Type} (out out' : List Role) : Prop := ∀ r, r ∈ out ↔ r ∈ out'

/-! ## Expansion -/

section Expansion

variable {S : Sig} {Role : Type} [DecidableEq Role] {h : RoleHierarchy S Role}
  {table : (Role → List Role) → (op : S.Op) → S.Resp op}
  (htable : ∀ f r, (h.parentRoles r).run.eval (table f) = .ok (f r))
include htable

theorem expandRoles_sameOutcome {f f' : Role → List Role} (hre : Reordered f f') {root : Role}
    (hall : AllExpand f h.maxDepth [root] ↔ AllExpand f' h.maxDepth [root]) :
    SameOutcome SameRoles ((expandRoles h root).run.eval (table f))
      ((expandRoles h root).run.eval (table f')) := by
  simp only [AllExpand, List.mem_singleton, forall_eq] at hall
  apply sameOutcome_of_iff
  · rw [expandRoles_ok_iff (htable f), expandRoles_ok_iff (htable f'), hall]
  · intro out out' hout hout' r
    rw [(expandRoles_eq_ok (htable f) hout).mem, (expandRoles_eq_ok (htable f') hout').mem,
      hre.reaches_iff]

/-- Expansion does not depend on the order exactly when the graph is order
free. -/
theorem expandRoles_orderFree (f : Role → List Role) (root : Role) :
    (∀ f', Reordered f f' → SameOutcome SameRoles ((expandRoles h root).run.eval (table f))
      ((expandRoles h root).run.eval (table f'))) ↔ OrderFree f h.maxDepth [root] := by
  rw [← orderFree_iff]
  constructor
  · intro hsame f' hre
    have hok := (hsame f' hre).ok_iff
    rw [expandRoles_ok_iff (htable f), expandRoles_ok_iff (htable f')] at hok
    simpa [AllExpand] using hok
  · intro hall f' hre
    exact expandRoles_sameOutcome htable hre (hall f' hre)

end Expansion

/-! ## The engines -/

/-- The same facts, with the parents of each role listed in another order. -/
def Facts.ReorderedParents (facts : Facts) (parents : TenantId → RoleId → List RoleId) : Prop :=
  ∀ tenant, Reordered (facts.parentRoles tenant) (parents tenant)

theorem matched_reordered {Role Sc : Type} {on wildcard : Bool} (facts facts' : RoleFacts Role)
    (hre : Reordered facts.parentRoles facts'.parentRoles)
    (hperms : facts'.rolePermissions = facts.rolePermissions) (required : Permission)
    (a : Assignment Role Sc) :
    Matched on wildcard facts' required a ↔ Matched on wildcard facts required a := by
  unfold Matched Reach
  rw [hperms]
  simp only [hre.reaches_iff]

section Tenant

variable {engine : Engine} {facts : Facts} {subject : AuthSubject}
  {parents : TenantId → RoleId → List RoleId}

theorem fresh_ok_iff_allExpand (hon : engine.config.enableRoleHierarchy = true) :
    (∃ grants, engine.fresh facts.source subject = .ok grants) ↔
      AllExpand (facts.parentRoles subject.tenant) engine.config.maxRoleDepth
        ((facts.roleAssignments subject).map Assignment.role) := by
  rw [fresh_ok_iff]
  simp only [Expandable, hon, forall_true_left, AllExpand, List.forall_mem_map]

/-- What is decided depends only on which scopes match. -/
theorem decide_congr {query : ScopeQuery} {grants grants' : List EffectiveGrant}
    (h : ∀ g, g ∈ matchedScopes grants query.permission engine.config.enableWildcard ↔
      g ∈ matchedScopes grants' query.permission engine.config.enableWildcard) :
    engine.decide query grants = engine.decide query grants' := by
  unfold Engine.decide
  rw [AccessScope.merge_congr query.subject.tenant h]

/-- Success of one order and of another are the same when both or neither
expand. -/
theorem sameOutcome_uncached (hre : facts.ReorderedParents parents) {request : Request}
    (hall : facts.tenantStatus request.subject.tenant = .active →
      facts.membershipStatus request.subject = .active →
      engine.config.enableRoleHierarchy = true →
      (AllExpand (facts.parentRoles request.subject.tenant) engine.config.maxRoleDepth
          ((facts.roleAssignments request.subject).map Assignment.role) ↔
        AllExpand (parents request.subject.tenant) engine.config.maxRoleDepth
          ((facts.roleAssignments request.subject).map Assignment.role))) :
    SameOutcome Eq (engine.uncached facts.source request)
      (engine.uncached { facts with parentRoles := parents }.source request) := by
  let facts' : Facts := { facts with parentRoles := parents }
  show SameOutcome Eq (engine.uncached facts.source request)
    (engine.uncached facts'.source request)
  by_cases hactive : facts.tenantStatus request.subject.tenant = .active ∧
      facts.membershipStatus request.subject = .active
  · rcases hactive with ⟨htenant, hmember⟩
    -- both or neither of the two lists of grants can be computed
    have hok : (∃ grants, engine.fresh facts.source request.subject = .ok grants) ↔
        ∃ grants, engine.fresh facts'.source request.subject = .ok grants := by
      by_cases hon : engine.config.enableRoleHierarchy = true
      · rw [fresh_ok_iff_allExpand hon, fresh_ok_iff_allExpand hon]
        exact hall htenant hmember hon
      · rw [fresh_ok_iff, fresh_ok_iff]
        exact ⟨fun _ a _ h => absurd h hon, fun _ a _ h => absurd h hon⟩
    have hsame : SameOutcome (fun grants grants' =>
          engine.decide request.query grants = engine.decide request.query grants')
        (engine.fresh facts.source request.subject)
        (engine.fresh facts'.source request.subject) := by
      apply sameOutcome_of_iff hok
      intro grants grants' hg hg'
      apply decide_congr
      intro g
      rw [mem_fresh_scopes hg, mem_fresh_scopes hg']
      refine exists_congr fun a => and_congr_left fun _ => and_congr_right fun _ => ?_
      exact (matched_reordered (facts.roleFacts _) (facts'.roleFacts _) (hre _) rfl _ a).symm
    have huncached' : engine.uncached facts'.source request =
        (engine.fresh facts'.source request.subject).map fun grants =>
          request.reply (engine.decide request.query grants) :=
      uncached_active (congrArg Except.ok htenant) (congrArg Except.ok hmember)
    rw [uncached_active (congrArg Except.ok htenant) (congrArg Except.ok hmember), huncached']
    exact hsame.map fun grants grants' h => congrArg request.reply h
  · -- an inactive subject's roles are not expanded
    obtain ⟨heq, reply, hreply⟩ : engine.uncached facts'.source request =
        engine.uncached facts.source request ∧
          ∃ reply, engine.uncached facts.source request = .ok reply :=
      uncached_inactive hactive rfl rfl
    rw [heq, hreply]
    exact .inl ⟨reply, reply, rfl, rfl, rfl⟩

/-- The five queries of a subject do not depend on the order exactly when the
subject's roles are order free, or are not expanded. -/
theorem uncached_orderFree (engine : Engine) (facts : Facts) (subject : AuthSubject) :
    (∀ parents, facts.ReorderedParents parents → ∀ request : Request, request.subject = subject →
        SameOutcome Eq (engine.uncached facts.source request)
          (engine.uncached { facts with parentRoles := parents }.source request)) ↔
      (facts.tenantStatus subject.tenant = .active → facts.membershipStatus subject = .active →
        engine.config.enableRoleHierarchy = true →
        OrderFree (facts.parentRoles subject.tenant) engine.config.maxRoleDepth
          ((facts.roleAssignments subject).map Assignment.role)) := by
  constructor
  · intro hsame htenant hmember hon
    rw [← orderFree_iff]
    intro f' hre
    -- reorder the parents in this tenant only
    let parents : TenantId → RoleId → List RoleId := fun tenant =>
      if tenant = subject.tenant then f' else facts.parentRoles tenant
    have hparents : facts.ReorderedParents parents := by
      intro tenant
      by_cases ht : tenant = subject.tenant
      · subst ht
        simpa [parents] using hre
      · simpa [parents, ht] using Reordered.refl (facts.parentRoles tenant)
    let facts' : Facts := { facts with parentRoles := parents }
    let request : Request := .accessibleScope ⟨subject, default⟩
    have hok := (hsame parents hparents request rfl).ok_iff
    have huncached : ∀ fs : Facts, fs.tenantStatus subject.tenant = .active →
        fs.membershipStatus subject = .active →
        ((∃ reply, engine.uncached fs.source request = .ok reply) ↔
          ∃ grants, engine.fresh fs.source subject = .ok grants) := by
      intro fs ht hm
      rw [uncached_active (congrArg Except.ok ht) (congrArg Except.ok hm)]
      exact Results.exists_map_eq_ok
    rw [huncached facts htenant hmember, huncached facts' htenant hmember,
      fresh_ok_iff_allExpand hon, fresh_ok_iff_allExpand hon] at hok
    simpa [facts', parents] using hok
  · intro hfree parents hre request hsubject
    subst hsubject
    apply sameOutcome_uncached hre
    intro htenant hmember hon
    exact (orderFree_iff _).mpr (hfree htenant hmember hon) _ (hre request.subject.tenant)

end Tenant

section Platform

/-- The four platform queries of a subject have the same outcomes for two
sources. -/
def PlatformSame (engine : PlatformEngine) (subject : PlatformSubject)
    (src src' : PlatformAuthorizationSource) : Prop :=
  ∀ required,
    SameOutcome Eq ((engine.canPlatform ⟨subject, required⟩).run.eval src.answer)
        ((engine.canPlatform ⟨subject, required⟩).run.eval src'.answer) ∧
      SameOutcome Eq ((engine.accessibleTenants ⟨subject, required⟩).run.eval src.answer)
        ((engine.accessibleTenants ⟨subject, required⟩).run.eval src'.answer) ∧
      ∀ tenant target,
        SameOutcome Eq ((engine.canAccessTenant ⟨subject, required, tenant⟩).run.eval src.answer)
            ((engine.canAccessTenant ⟨subject, required, tenant⟩).run.eval src'.answer) ∧
          SameOutcome Eq
            ((engine.canAccessTenantScope ⟨subject, required, tenant, target⟩).run.eval src.answer)
            ((engine.canAccessTenantScope ⟨subject, required, tenant, target⟩).run.eval src'.answer)

variable {engine : PlatformEngine} {facts facts' : PlatformFacts} {subject : PlatformSubject}

theorem SameOutcome.refl {α : Type} (x : Except Error α) : SameOutcome Eq x x := by
  cases x with
  | ok a => exact .inl ⟨a, a, rfl, rfl, rfl⟩
  | error e => exact .inr ⟨⟨e, rfl⟩, e, rfl⟩

/-- All four queries look only at which scopes match. -/
theorem platformSame_of_scopes
    (h : ∀ required, SameOutcome (fun scopes scopes' => ∀ g, g ∈ scopes ↔ g ∈ scopes')
      (engine.scopes facts subject required) (engine.scopes facts' subject required)) :
    PlatformSame engine subject facts.source facts'.source := by
  intro required
  simp only [eval_canPlatform, eval_canAccessTenant, eval_canAccessTenantScope,
    eval_accessibleTenants]
  rcases h required with ⟨scopes, scopes', hs, hs', hsame⟩ | ⟨⟨e, hs⟩, e', hs'⟩
  -- the same scopes merge alike, and the platform's scope is in both or in neither
  · have hmerge : TenantDataAccessScope.merge scopes = TenantDataAccessScope.merge scopes' :=
      TenantDataAccessScope.merge_congr fun g _ => hsame g
    have hbind : (engine.scopes facts subject required >>= TenantDataAccessScope.merge) =
        (engine.scopes facts' subject required >>= TenantDataAccessScope.merge) := by
      rw [hs, hs']
      exact hmerge
    have hplatform : ((engine.scopes facts subject required).map fun scopes =>
          decision (decide (.platform ∈ scopes))) =
        (engine.scopes facts' subject required).map fun scopes =>
          decision (decide (.platform ∈ scopes)) := by
      rw [hs, hs']
      simp only [Except.map, hsame]
    rw [hbind, hplatform]
    exact ⟨.refl _, .refl _, fun tenant target => ⟨.refl _, .refl _⟩⟩
  · rw [hs, hs']
    -- no scopes on either side: every query fails on both
    exact ⟨.inr ⟨⟨e, rfl⟩, e', rfl⟩, .inr ⟨⟨e, rfl⟩, e', rfl⟩,
      fun tenant target => ⟨.inr ⟨⟨e, rfl⟩, e', rfl⟩, .inr ⟨⟨e, rfl⟩, e', rfl⟩⟩⟩

theorem scopes_ok_iff_allExpand (facts : PlatformFacts)
    (hactive : facts.principalStatus subject = .active)
    (hon : engine.config.enableRoleHierarchy = true) (required : Permission) :
    (∃ scopes, engine.scopes facts subject required = .ok scopes) ↔
      AllExpand facts.parentRoles engine.config.maxRoleDepth
        ((facts.roleAssignments subject).map Assignment.role) := by
  rw [scopes_ok_iff hactive]
  simp only [Expandable, hon, forall_true_left, AllExpand, List.forall_mem_map]

/-- The four platform queries of a subject do not depend on the order exactly
when the subject's roles are order free, or are not expanded. -/
theorem platform_orderFree (engine : PlatformEngine) (facts : PlatformFacts)
    (subject : PlatformSubject) :
    (∀ parents, Reordered facts.parentRoles parents →
        PlatformSame engine subject facts.source { facts with parentRoles := parents }.source) ↔
      (facts.principalStatus subject = .active → engine.config.enableRoleHierarchy = true →
        OrderFree facts.parentRoles engine.config.maxRoleDepth
          ((facts.roleAssignments subject).map Assignment.role)) := by
  constructor
  · intro hsame hactive hon
    rw [← orderFree_iff]
    intro parents hre
    let facts' : PlatformFacts := { facts with parentRoles := parents }
    -- `can_platform` succeeds exactly when all roles expand
    have hok := (hsame parents hre default).1.ok_iff
    rw [eval_canPlatform, eval_canPlatform, Results.exists_map_eq_ok, Results.exists_map_eq_ok,
      scopes_ok_iff_allExpand facts hactive hon] at hok
    rw [hok]
    exact scopes_ok_iff_allExpand facts' hactive hon default
  · intro hfree parents hre
    let facts' : PlatformFacts := { facts with parentRoles := parents }
    show PlatformSame engine subject facts.source facts'.source
    apply platformSame_of_scopes
    intro required
    by_cases hactive : facts.principalStatus subject = .active
    · apply sameOutcome_of_iff
      · by_cases hon : engine.config.enableRoleHierarchy = true
        · rw [scopes_ok_iff_allExpand facts hactive hon]
          refine Iff.trans ?_ (scopes_ok_iff_allExpand facts' hactive hon required).symm
          exact (orderFree_iff _).mpr (hfree hactive hon) parents hre
        · have hall : ∀ fs : PlatformFacts, fs.principalStatus subject = .active →
              ∃ scopes, engine.scopes fs subject required = .ok scopes := by
            intro fs hfs
            rw [scopes_ok_iff hfs]
            exact fun a _ h => absurd h hon
          exact ⟨fun _ => hall facts' hactive, fun _ => hall facts hactive⟩
      · intro scopes scopes' hs hs' g
        have hactive' : facts'.principalStatus subject = .active := hactive
        rw [mem_scopes hactive hs, mem_scopes hactive' hs']
        refine exists_congr fun a => and_congr_left fun _ => and_congr_right fun _ => ?_
        exact (matched_reordered facts.roleFacts facts'.roleFacts hre rfl required a).symm
    · -- an inactive principal's roles are not expanded
      have hactive' : facts'.principalStatus subject ≠ .active := hactive
      rw [scopes_of_inactive engine hactive required, scopes_of_inactive engine hactive' required]
      exact .inl ⟨[], [], rfl, rfl, fun g => Iff.rfl⟩

end Platform

/-! ## A graph that is order free with three levels and not with two -/

namespace Sample

def lead : RoleId := ⟨['l'], by decide⟩
def audit : RoleId := ⟨['a'], by decide⟩
def base : RoleId := ⟨['b'], by decide⟩

/-- `clerk` inherits from `lead` and `audit`, `audit` from `lead`, `lead` from
`base`. -/
def diamond : Facts where
  tenantStatus := facts.tenantStatus
  membershipStatus := facts.membershipStatus
  roleAssignments := facts.roleAssignments
  rolePermissions := facts.rolePermissions
  parentRoles _ r :=
    if r = clerk then [lead, audit] else if r = audit then [lead]
    else if r = lead then [base] else []

/-- The parents of `clerk` the other way round. -/
def diamondParents (_ : TenantId) (r : RoleId) : List RoleId :=
  if r = clerk then [audit, lead] else if r = audit then [lead]
  else if r = lead then [base] else []

/-- Roles may be expanded two levels up. -/
def twoLevels : Engine := Engine.build ⟨true, false, 2⟩

/-- The data with the parents of `clerk` reordered. -/
def reordered : Facts := { diamond with parentRoles := diamondParents }

def hierarchy : RoleHierarchy EngineSig RoleId := twoLevels.tenantRoleHierarchy tenant

def threeLevels : Engine := Engine.build ⟨true, false, 3⟩

/-- How many roles are above a role, one above another. -/
def rank (r : RoleId) : ℕ :=
  if r = clerk then 3 else if r = audit then 2 else if r = lead then 1 else 0

theorem rank_diamond (r r' : RoleId) (h : r' ∈ diamond.parentRoles tenant r) : rank r' < rank r := by
  simp only [diamond] at h
  split at h
  · subst r
    rcases List.mem_cons.mp h with rfl | h
    · decide
    · rw [List.mem_singleton.mp h]
      decide
  · split at h
    · subst r
      rw [List.mem_singleton.mp h]
      decide
    · split at h
      · subst r
        rw [List.mem_singleton.mp h]
        decide
      · cases h

theorem eval_parentRoles (fs : Facts) (r : RoleId) :
    (hierarchy.parentRoles r).run.eval (answers fs.source NoCache) =
      .ok (fs.parentRoles tenant r) := rfl

theorem diamond_reordered : diamond.ReorderedParents diamondParents := by
  intro t r
  by_cases hr : r = clerk
  · subst hr
    exact List.Perm.swap _ _ _
  · simp only [diamondParents, diamond, if_neg hr]
    exact List.Perm.refl _

/-- `lead` first: `base` is found two levels up, and `audit` has nothing new
above it. -/
theorem expand_diamond : (expandRoles hierarchy clerk).run.eval (answers diamond.source NoCache) =
    .ok [clerk, lead, base, audit] := by
  have hf := eval_parentRoles diamond
  rw [eval_expandRoles (hf clerk)]
  have hmap {x y : Except Error (Expansion RoleId)} (hxy : x = y) :
      x.map Expansion.output = y.map Expansion.output := congrArg _ hxy
  -- into `lead` and `base`, out again, and into `audit`, which skips `lead`
  refine (hmap (eval_push hf (by decide) (by decide) (by decide))).trans ?_
  refine (hmap (eval_push hf (by decide) (by decide) (by decide))).trans ?_
  refine (hmap (eval_pop.trans eval_pop)).trans ?_
  refine (hmap (eval_push hf (by decide) (by decide) (by decide))).trans ?_
  refine (hmap (eval_skip (by decide) (by decide) (by decide))).trans ?_
  exact hmap (eval_pop.trans (eval_pop.trans eval_done))

/-- `audit` first: `lead` is met below it, and `base` is a third level up. -/
theorem expand_reordered :
    (expandRoles hierarchy clerk).run.eval (answers reordered.source NoCache) =
      .error (.roleDepthExceeded tenant base 2) := by
  have hf := eval_parentRoles reordered
  rw [eval_expandRoles (hf clerk)]
  have hmap {x y : Except Error (Expansion RoleId)} (hxy : x = y) :
      x.map Expansion.output = y.map Expansion.output := congrArg _ hxy
  refine (hmap (eval_push hf (by decide) (by decide) (by decide))).trans ?_
  refine (hmap (eval_push hf (by decide) (by decide) (by decide))).trans ?_
  exact hmap (eval_tooDeep (by decide))

/-- The subject has one role, so a query succeeds exactly when that role can be
expanded. -/
theorem scope_ok_iff (fs : Facts) (ht : fs.tenantStatus = facts.tenantStatus)
    (hm : fs.membershipStatus = facts.membershipStatus)
    (ha : fs.roleAssignments = facts.roleAssignments) :
    (∃ reply, twoLevels.uncached fs.source (.accessibleScope query) = .ok reply) ↔
      ∃ out, (expandRoles hierarchy clerk).run.eval (answers fs.source NoCache) = .ok out := by
  have htenant : fs.source.tenantStatus tenant = .ok .active := by
    show Except.ok (fs.tenantStatus tenant) = _
    rw [ht]
    rfl
  have hmember : fs.source.membershipStatus subject = .ok .active := by
    show Except.ok (fs.membershipStatus subject) = _
    rw [hm]
    rfl
  rw [uncached_active htenant hmember, Results.exists_map_eq_ok, fresh_ok_iff_allExpand rfl, ha,
    expandRoles_ok_iff (eval_parentRoles fs)]
  exact List.forall_mem_singleton

end Sample

/-! ## The main result -/

/-- The outcome of an expansion, and of every query of either engine, does not
depend on the order in which parents are listed, exactly when the roles that
are expanded are order free. -/
theorem role_order_free {S : Sig} {Role : Type} [DecidableEq Role] (h : RoleHierarchy S Role)
    (table : (Role → List Role) → (op : S.Op) → S.Resp op)
    (htable : ∀ f r, (h.parentRoles r).run.eval (table f) = .ok (f r)) :
    (∀ (f : Role → List Role) (root : Role),
      (∀ f', Reordered f f' → SameOutcome SameRoles ((expandRoles h root).run.eval (table f))
        ((expandRoles h root).run.eval (table f'))) ↔ OrderFree f h.maxDepth [root]) ∧
    (∀ (engine : Engine) (facts : Facts) (subject : AuthSubject),
      (∀ parents, facts.ReorderedParents parents → ∀ request : Request,
        request.subject = subject →
          SameOutcome Eq (engine.uncached facts.source request)
            (engine.uncached { facts with parentRoles := parents }.source request)) ↔
        (facts.tenantStatus subject.tenant = .active → facts.membershipStatus subject = .active →
          engine.config.enableRoleHierarchy = true →
          OrderFree (facts.parentRoles subject.tenant) engine.config.maxRoleDepth
            ((facts.roleAssignments subject).map Assignment.role))) ∧
    (∀ (engine : PlatformEngine) (facts : PlatformFacts) (subject : PlatformSubject),
      (∀ parents, Reordered facts.parentRoles parents →
        PlatformSame engine subject facts.source { facts with parentRoles := parents }.source) ↔
        (facts.principalStatus subject = .active → engine.config.enableRoleHierarchy = true →
          OrderFree facts.parentRoles engine.config.maxRoleDepth
            ((facts.roleAssignments subject).map Assignment.role))) :=
  ⟨expandRoles_orderFree htable, uncached_orderFree, platform_orderFree⟩

/-- The diamond, with at most two levels and with three. -/
theorem role_order_free_sample :
    ¬ OrderFree (Sample.diamond.parentRoles Sample.tenant) 2 [Sample.clerk] ∧
    ∀ f', Reordered (Sample.diamond.parentRoles Sample.tenant) f' →
      SameOutcome SameRoles
        ((expandRoles (Sample.threeLevels.tenantRoleHierarchy Sample.tenant) Sample.clerk).run.eval
          (answers Sample.diamond.source NoCache))
        ((expandRoles (Sample.threeLevels.tenantRoleHierarchy Sample.tenant) Sample.clerk).run.eval
          (answers { Sample.diamond with parentRoles := fun _ => f' }.source NoCache)) := by
  have htwo := (role_order_free Sample.hierarchy
    (fun f => answers { Sample.diamond with parentRoles := fun _ => f }.source NoCache)
    fun _ _ => rfl).1 (Sample.diamond.parentRoles Sample.tenant) Sample.clerk
  have hthree := (role_order_free (Sample.threeLevels.tenantRoleHierarchy Sample.tenant)
    (fun f => answers { Sample.diamond with parentRoles := fun _ => f }.source NoCache)
    fun _ _ => rfl).1 (Sample.diamond.parentRoles Sample.tenant) Sample.clerk
  constructor
  · intro hfree
    have hsame := htwo.mpr hfree (Sample.diamondParents Sample.tenant)
      (Sample.diamond_reordered Sample.tenant)
    obtain ⟨out, hout⟩ := hsame.ok_iff.mp ⟨_, Sample.expand_diamond⟩
    have hreordered := Sample.expand_reordered
    cases hout.symm.trans hreordered
  · -- no chain from the clerk has more than three edges
    refine hthree.mpr (.inr (.inl fun r hr hchain => ?_))
    have hlength := hchain.le_rank Sample.rank_diamond
    rw [List.mem_singleton.mp hr] at hlength
    exact absurd hlength (by decide)

/-- With at most two levels, `clerk` expands when `lead` is listed first, and
not when `audit` is: `lead` is then met below `audit`, and `base` too far
down. -/
theorem order_counterexample :
    Sample.diamond.ReorderedParents Sample.diamondParents ∧
    (expandRoles (Sample.twoLevels.tenantRoleHierarchy Sample.tenant) Sample.clerk).run.eval
        (answers Sample.diamond.source NoCache) =
      .ok [Sample.clerk, Sample.lead, Sample.base, Sample.audit] ∧
    (expandRoles (Sample.twoLevels.tenantRoleHierarchy Sample.tenant) Sample.clerk).run.eval
        (answers { Sample.diamond with parentRoles := Sample.diamondParents }.source NoCache) =
      .error (.roleDepthExceeded Sample.tenant Sample.base 2) ∧
    ¬ SameOutcome Eq
      (Sample.twoLevels.uncached Sample.diamond.source (.accessibleScope Sample.query))
      (Sample.twoLevels.uncached
        { Sample.diamond with parentRoles := Sample.diamondParents }.source
        (.accessibleScope Sample.query)) := by
  refine ⟨Sample.diamond_reordered, Sample.expand_diamond, Sample.expand_reordered, ?_⟩
  intro hsame
  have hfirst := (Sample.scope_ok_iff Sample.diamond rfl rfl rfl).mpr ⟨_, Sample.expand_diamond⟩
  have hsecond := hsame.ok_iff.mp hfirst
  rcases (Sample.scope_ok_iff Sample.reordered rfl rfl rfl).mp hsecond with ⟨out, hout⟩
  rw [Sample.expand_reordered] at hout
  cases hout

end RsTenant
