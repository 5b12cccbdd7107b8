import RsTenant.Expansion

/-! # From role assignments to grants

Both engines compute a subject's grants by the same nested loops: for every
assignment, for every role that the assigned role stands for, one grant for
each permission of that role, carrying the scope of the assignment. The loops
stop at the first read that fails and at the first expansion that is refused.

`mem_matchedScopes` is what a query later uses of them: the scopes of the
matching grants are the scopes of the matched assignments.
-/

namespace RsTenant

open Interact Walk

variable {S : Sig} {Role Sc : Type}

/-- How an engine turns an assigned role into permissions. -/
structure RoleReads (S : Sig) (Role : Type) where
  enableRoleHierarchy : Bool
  hierarchy : RoleHierarchy S Role
  rolePermissions : Role → Fallible S Error (List Permission)

namespace RoleReads

/-- The roles an assigned role stands for. -/
def rolesOf [DecidableEq Role] (reads : RoleReads S Role) (role : Role) :
    Fallible S Error (List Role) :=
  if reads.enableRoleHierarchy then expandRoles reads.hierarchy role else pure [role]

/-- The loop over the roles of one assignment. -/
def roleGrants (reads : RoleReads S Role) (scope : Sc) :
    List Role → List (ScopedGrant Role Sc) → Fallible S Error (List (ScopedGrant Role Sc))
  | [], grants => pure grants
  | role :: roles, grants => do
    let permissions ← reads.rolePermissions role
    roleGrants reads scope roles
      (grants ++ permissions.map fun permission => ⟨role, permission, scope⟩)

/-- The loop over the assignments. -/
def assignmentGrants [DecidableEq Role] (reads : RoleReads S Role) :
    List (Assignment Role Sc) → List (ScopedGrant Role Sc) →
      Fallible S Error (List (ScopedGrant Role Sc))
  | [], grants => pure grants
  | assignment :: assignments, grants => do
    let roles ← reads.rolesOf assignment.role
    let grants ← reads.roleGrants assignment.scope roles grants
    assignmentGrants reads assignments grants

end RoleReads

/-- The scopes of the grants that match a permission. -/
def matchedScopes (grants : List (ScopedGrant Role Sc)) (required : Permission)
    (wildcard : Bool) : List Sc :=
  (grants.filter fun grant => grant.matchesPermission required wildcard).map ScopedGrant.scope

/-! ## What the loops may read, and how they stop -/

section Reads

variable {reads : RoleReads S Role}

theorem only_roleGrants {G : S.Op → Prop} (hG : ∀ r, (reads.rolePermissions r).run.Only G)
    (scope : Sc) (roles : List Role) (grants : List (ScopedGrant Role Sc)) :
    (reads.roleGrants scope roles grants).run.Only G := by
  induction roles generalizing grants with
  | nil => trivial
  | cons role roles ih => exact Fallible.only_bind (hG role) fun _ => ih _

theorem stopsAt_roleGrants {bad : (op : S.Op) → S.Resp op → Option Error}
    (hbad : ∀ r, Fallible.StopsAt bad (reads.rolePermissions r).run)
    (scope : Sc) (roles : List Role) (grants : List (ScopedGrant Role Sc)) :
    Fallible.StopsAt bad (reads.roleGrants scope roles grants).run := by
  induction roles generalizing grants with
  | nil => trivial
  | cons role roles ih => exact (hbad role).bind fun _ => ih _

theorem failsBy_roleGrants {bad : (op : S.Op) → S.Resp op → Option Error}
    (hbad : ∀ r, Fallible.FailsBy (Fallible.FailedAt bad) (reads.rolePermissions r).run)
    (scope : Sc) (roles : List Role) (grants : List (ScopedGrant Role Sc)) :
    Fallible.FailsBy (Fallible.FailedAt bad) (reads.roleGrants scope roles grants).run := by
  induction roles generalizing grants with
  | nil => exact Fallible.FailsBy.of_pure _
  | cons role roles ih =>
    apply (hbad role).bind
    intro tr permissions _
    exact (ih _).mono fun tr' e h => h.append tr

variable [DecidableEq Role]

theorem only_rolesOf {G : S.Op → Prop} (hG : ∀ r, (reads.hierarchy.parentRoles r).run.Only G)
    (role : Role) : (reads.rolesOf role).run.Only G := by
  unfold RoleReads.rolesOf
  split
  · exact only_expandRoles hG role
  · trivial

theorem only_assignmentGrants {G : S.Op → Prop}
    (hparents : ∀ r, (reads.hierarchy.parentRoles r).run.Only G)
    (hperms : ∀ r, (reads.rolePermissions r).run.Only G)
    (assignments : List (Assignment Role Sc)) (grants : List (ScopedGrant Role Sc)) :
    (reads.assignmentGrants assignments grants).run.Only G := by
  induction assignments generalizing grants with
  | nil => trivial
  | cons a assignments ih =>
    apply Fallible.only_bind (only_rolesOf hparents a.role)
    intro roles
    apply Fallible.only_bind (only_roleGrants hperms a.scope roles grants)
    intro grants
    exact ih grants

variable {bad : (op : S.Op) → S.Resp op → Option Error}

theorem stopsAt_assignmentGrants
    (hparents : ∀ r, Fallible.StopsAt bad (reads.hierarchy.parentRoles r).run)
    (hperms : ∀ r, Fallible.StopsAt bad (reads.rolePermissions r).run)
    (assignments : List (Assignment Role Sc)) (grants : List (ScopedGrant Role Sc)) :
    Fallible.StopsAt bad (reads.assignmentGrants assignments grants).run := by
  have hroles : ∀ r, Fallible.StopsAt bad (reads.rolesOf r).run := by
    intro r
    unfold RoleReads.rolesOf
    split
    · exact stopsAt_expandRoles hparents r
    · trivial
  induction assignments generalizing grants with
  | nil => trivial
  | cons a assignments ih =>
    apply (hroles a.role).bind
    intro roles
    apply (stopsAt_roleGrants hperms a.scope roles grants).bind
    intro grants
    exact ih grants

/-- The trace ends with the refused expansion of the role of one of the
assignments. -/
def FailedExpansion (reads : RoleReads S Role) (assignments : List (Assignment Role Sc))
    (tr : List (Event S)) (e : Error) : Prop :=
  reads.enableRoleHierarchy = true ∧
    ∃ pre tr', ∃ a ∈ assignments, tr = pre ++ tr' ∧
      Prog.Path (expandRoles reads.hierarchy a.role).run tr' (.ret (.error e)) ∧
      ∃ r, e = reads.hierarchy.cycleError r ∨ e = reads.hierarchy.depthError r

/-- The loops fail at a read or at the expansion of an assigned role, and do
nothing further. -/
theorem failsBy_assignmentGrants
    (hparents : ∀ r, Fallible.FailsBy (Fallible.FailedAt bad) (reads.hierarchy.parentRoles r).run)
    (hperms : ∀ r, Fallible.FailsBy (Fallible.FailedAt bad) (reads.rolePermissions r).run)
    (assignments : List (Assignment Role Sc)) (grants : List (ScopedGrant Role Sc)) :
    Fallible.FailsBy
      (fun tr e => Fallible.FailedAt bad tr e ∨ FailedExpansion reads assignments tr e)
      (reads.assignmentGrants assignments grants).run := by
  induction assignments generalizing grants with
  | nil => exact Fallible.FailsBy.of_pure _
  | cons a assignments ih =>
    refine Fallible.FailsBy.bind ?_ fun tr roles _ => ?_
    · -- the expansion of this assignment
      unfold RoleReads.rolesOf
      split
      · rename_i hon
        intro tr e h
        rcases failsBy_expandRoles hparents a.role tr e h with he | he
        · exact .inl he
        · exact .inr ⟨hon, [], tr, a, List.mem_cons_self, rfl, h, he⟩
      · exact Fallible.FailsBy.of_pure _
    · refine Fallible.FailsBy.bind ?_ fun tr' grants _ => ?_
      · exact (failsBy_roleGrants hperms a.scope roles grants).mono
          fun tr' e he => .inl (he.append tr)
      · -- a later assignment fails behind what this one has read
        refine (ih grants).mono fun tr'' e he => ?_
        rcases he with he | ⟨hon, pre, exp, b, hb, rfl, hpath, he⟩
        · exact .inl ((he.append tr').append tr)
        · refine .inr ⟨hon, tr ++ (tr' ++ pre), exp, b, List.mem_cons_of_mem _ hb, ?_, hpath, he⟩
          simp only [List.append_assoc]

end Reads

/-! ## What the loops compute -/

/-- The part of the authorization data that the loops read. -/
structure RoleFacts (Role : Type) where
  parentRoles : Role → List Role
  rolePermissions : Role → List Permission

/-- Against the table `env` all reads succeed and return `facts`. -/
structure Serves (reads : RoleReads S Role) (env : (op : S.Op) → S.Resp op)
    (facts : RoleFacts Role) : Prop where
  parentRoles : ∀ r, (reads.hierarchy.parentRoles r).run.eval env = .ok (facts.parentRoles r)
  rolePermissions : ∀ r, (reads.rolePermissions r).run.eval env = .ok (facts.rolePermissions r)

/-- The roles an assigned role stands for: itself, and with the hierarchy on
everything it inherits from. -/
def Reach (enableRoleHierarchy : Bool) (parents : Role → List Role) (role r : Role) : Prop :=
  if enableRoleHierarchy then Reaches parents role r else r = role

/-- The role can be expanded: no cycle and no chain that is too long, unless
the hierarchy is off. -/
def Expandable (enableRoleHierarchy : Bool) (maxDepth : ℕ) (parents : Role → List Role)
    (role : Role) : Prop :=
  enableRoleHierarchy = true → Acyclic parents role ∧ Shallow parents role maxDepth

/-- Some role that the assignment stands for has a permission that covers the
required one. -/
def Matched (enableRoleHierarchy wildcard : Bool) (facts : RoleFacts Role)
    (required : Permission) (a : Assignment Role Sc) : Prop :=
  ∃ r, Reach enableRoleHierarchy facts.parentRoles a.role r ∧
    ∃ p ∈ facts.rolePermissions r, p.matches required wildcard = true

theorem Reach.refl (on : Bool) (parents : Role → List Role) (role : Role) :
    Reach on parents role role := by
  unfold Reach
  split
  · exact .refl
  · rfl

/-- More edges, and a hierarchy that is switched on, reach more. -/
theorem Reach.mono {on on' : Bool} (hon : on = true → on' = true)
    {parents parents' : Role → List Role} (hsub : ∀ r, parents r ⊆ parents' r) {role r : Role}
    (h : Reach on parents role r) : Reach on' parents' role r := by
  unfold Reach at h
  split at h
  · rename_i hton
    unfold Reach
    rw [if_pos (hon hton)]
    exact Relation.ReflTransGen.mono (fun a _ hab => hsub a hab) _ _ h
  · exact h ▸ Reach.refl on' parents' role

/-- More data and more permissive flags keep every match. -/
theorem Matched.mono {on on' w w' : Bool} (hon : on = true → on' = true)
    (hw : w = true → w' = true) {facts facts' : RoleFacts Role}
    (hparents : ∀ r, facts.parentRoles r ⊆ facts'.parentRoles r)
    (hperms : ∀ r, facts.rolePermissions r ⊆ facts'.rolePermissions r) {required : Permission}
    {a : Assignment Role Sc} (h : Matched on w facts required a) :
    Matched on' w' facts' required a := by
  rcases h with ⟨r, hreach, p, hp, hmatch⟩
  exact ⟨r, hreach.mono hon hparents, p, hperms r hp, Permission.matches_mono hw hmatch⟩

section Eval

variable {reads : RoleReads S Role} {env : (op : S.Op) → S.Resp op} {facts : RoleFacts Role}

theorem roleGrants_eval (hserves : Serves reads env facts) (scope : Sc) (roles : List Role)
    (grants : List (ScopedGrant Role Sc)) :
    (reads.roleGrants scope roles grants).run.eval env =
      .ok (grants ++ roles.flatMap fun r =>
        (facts.rolePermissions r).map fun p => ⟨r, p, scope⟩) := by
  induction roles generalizing grants with
  | nil =>
    rw [List.flatMap_nil, List.append_nil]
    rfl
  | cons role roles ih =>
    rw [RoleReads.roleGrants, Fallible.eval_bind, hserves.rolePermissions]
    show (reads.roleGrants scope roles _).run.eval env = _
    rw [ih, List.flatMap_cons, List.append_assoc]

variable [DecidableEq Role]

theorem rolesOf_eq_ok (hserves : Serves reads env facts) {role : Role} {roles : List Role}
    (h : (reads.rolesOf role).run.eval env = .ok roles) :
    ∀ r, r ∈ roles ↔ Reach reads.enableRoleHierarchy facts.parentRoles role r := by
  intro r
  unfold RoleReads.rolesOf at h
  unfold Reach
  split at h
  · rename_i hon
    rw [if_pos hon]
    exact (expandRoles_eq_ok hserves.parentRoles h).mem r
  · rename_i hoff
    have hroles : [role] = roles := Except.ok.inj h
    rw [if_neg hoff, ← hroles, List.mem_singleton]

theorem rolesOf_ok_iff (hserves : Serves reads env facts) (role : Role) :
    (∃ roles, (reads.rolesOf role).run.eval env = .ok roles) ↔
      Expandable reads.enableRoleHierarchy reads.hierarchy.maxDepth facts.parentRoles role := by
  unfold RoleReads.rolesOf Expandable
  split
  · rename_i hon
    rw [expandRoles_ok_iff hserves.parentRoles]
    exact ⟨fun h _ => h, fun h => h hon⟩
  · rename_i hoff
    exact ⟨fun _ hon => absurd hon hoff, fun _ => ⟨[role], rfl⟩⟩

/-- The loops succeed exactly when every assigned role can be expanded. -/
theorem assignmentGrants_ok_iff (hserves : Serves reads env facts)
    (assignments : List (Assignment Role Sc)) (grants : List (ScopedGrant Role Sc)) :
    (∃ out, (reads.assignmentGrants assignments grants).run.eval env = .ok out) ↔
      ∀ a ∈ assignments, Expandable reads.enableRoleHierarchy reads.hierarchy.maxDepth
        facts.parentRoles a.role := by
  induction assignments generalizing grants with
  | nil => exact ⟨fun _ a ha => absurd ha List.not_mem_nil, fun _ => ⟨grants, rfl⟩⟩
  | cons a assignments ih =>
    rw [List.forall_mem_cons, ← rolesOf_ok_iff hserves, RoleReads.assignmentGrants,
      Fallible.eval_bind]
    cases hroles : (reads.rolesOf a.role).run.eval env with
    | error e =>
      constructor
      · rintro ⟨out, h⟩
        cases h
      · rintro ⟨⟨roles, h⟩, -⟩
        cases h
    | ok roles =>
      show (∃ out, (reads.roleGrants a.scope roles grants >>= _).run.eval env = .ok out) ↔ _
      rw [Fallible.eval_bind, roleGrants_eval hserves]
      show (∃ out, (reads.assignmentGrants assignments _).run.eval env = .ok out) ↔ _
      rw [ih]
      exact ⟨fun h => ⟨⟨roles, rfl⟩, h⟩, fun h => h.2⟩

/-- A successful run adds one grant for each permission of each role that an
assignment stands for, with the scope of that assignment. -/
theorem mem_assignmentGrants (hserves : Serves reads env facts)
    {assignments : List (Assignment Role Sc)} {grants out : List (ScopedGrant Role Sc)}
    (h : (reads.assignmentGrants assignments grants).run.eval env = .ok out)
    (g : ScopedGrant Role Sc) :
    g ∈ out ↔ g ∈ grants ∨ ∃ a ∈ assignments, g.scope = a.scope ∧
      Reach reads.enableRoleHierarchy facts.parentRoles a.role g.role ∧
      g.permission ∈ facts.rolePermissions g.role := by
  induction assignments generalizing grants with
  | nil =>
    have hout : grants = out := Except.ok.inj h
    simp [hout]
  | cons a assignments ih =>
    rw [RoleReads.assignmentGrants, Fallible.eval_bind] at h
    rcases Results.bind_eq_ok.mp h with ⟨roles, hroles, hrest⟩
    rw [Fallible.eval_bind, roleGrants_eval hserves] at hrest
    -- what this assignment adds
    have hadded : g ∈ (roles.flatMap fun r => (facts.rolePermissions r).map fun p =>
          (⟨r, p, a.scope⟩ : ScopedGrant Role Sc)) ↔
        g.scope = a.scope ∧
          Reach reads.enableRoleHierarchy facts.parentRoles a.role g.role ∧
          g.permission ∈ facts.rolePermissions g.role := by
      simp only [List.mem_flatMap, List.mem_map, rolesOf_eq_ok hserves hroles]
      constructor
      · rintro ⟨r, hr, p, hp, rfl⟩
        exact ⟨rfl, hr, hp⟩
      · rintro ⟨hscope, hr, hp⟩
        exact ⟨g.role, hr, g.permission, hp, by rw [← hscope]⟩
    rw [ih hrest, List.mem_append, hadded, or_assoc, List.exists_mem_cons_iff]

/-- The scopes of the matching grants are the scopes of the matched
assignments. -/
theorem mem_matchedScopes (hserves : Serves reads env facts)
    {assignments : List (Assignment Role Sc)} {out : List (ScopedGrant Role Sc)}
    (h : (reads.assignmentGrants assignments []).run.eval env = .ok out)
    (required : Permission) (wildcard : Bool) (scope : Sc) :
    scope ∈ matchedScopes out required wildcard ↔
      ∃ a ∈ assignments,
        Matched reads.enableRoleHierarchy wildcard facts required a ∧ a.scope = scope := by
  simp only [matchedScopes, List.mem_map, List.mem_filter, mem_assignmentGrants hserves h,
    List.not_mem_nil, false_or, ScopedGrant.matchesPermission]
  constructor
  · rintro ⟨g, ⟨⟨a, ha, hscope, hreach, hperm⟩, hmatch⟩, rfl⟩
    exact ⟨a, ha, ⟨g.role, hreach, g.permission, hperm, hmatch⟩, hscope.symm⟩
  · rintro ⟨a, ha, ⟨r, hreach, p, hp, hmatch⟩, rfl⟩
    exact ⟨⟨r, p, a.scope⟩, ⟨⟨a, ha, rfl, hreach, hp⟩, hmatch⟩, rfl⟩

end Eval

end RsTenant
