import RsTenant.FailClosed
import RsTenant.PlatformReference

/-! # What a platform query does

The four queries of the platform engine as one, with the operations they can
perform and the ways in which they can fail. Like the tenant engine they fail
closed (`platform_fail_closed`); on top of failed reads and refused expansions
there is a conflict between grants, which is found after everything has been
read.
-/

namespace RsTenant

open Interact

/-- A call of one of the four query methods. -/
inductive PlatformRequest where
  | canPlatform (request : PlatformAccessRequest)
  | accessibleTenants (query : TenantDataScopeQuery)
  | canAccessTenant (request : TenantDataAccessRequest)
  | canAccessTenantScope (request : TenantScopedDataAccessRequest)

/-- What a query method returns. -/
inductive PlatformReply where
  | decision (decision : AccessDecision)
  | scope (scope : TenantDataAccessScope)

namespace PlatformRequest

def subject : PlatformRequest → PlatformSubject
  | .canPlatform request => request.subject
  | .accessibleTenants query => query.subject
  | .canAccessTenant request => request.subject
  | .canAccessTenantScope request => request.subject

def permission : PlatformRequest → Permission
  | .canPlatform request => request.permission
  | .accessibleTenants query => query.permission
  | .canAccessTenant request => request.permission
  | .canAccessTenantScope request => request.permission

/-- What the call makes of the scopes that match. -/
def reply : PlatformRequest → List PlatformGrantScope → Except Error PlatformReply
  | .canPlatform _, scopes => .ok (.decision (decision (decide (.platform ∈ scopes))))
  | .accessibleTenants _, scopes => (TenantDataAccessScope.merge scopes).map .scope
  | .canAccessTenant request, scopes => (TenantDataAccessScope.merge scopes).map fun s =>
    .decision (decision (s.allowsTenant request.tenant))
  | .canAccessTenantScope request, scopes => (TenantDataAccessScope.merge scopes).map fun s =>
    .decision (decision (s.allowsPath request.tenant request.target))

end PlatformRequest

/-- Serve one call of a query method. -/
def PlatformEngine.serve (engine : PlatformEngine) :
    PlatformRequest → Fallible PlatformSig Error PlatformReply
  | .canPlatform request => PlatformReply.decision <$> engine.canPlatform request
  | .accessibleTenants query => PlatformReply.scope <$> engine.accessibleTenants query
  | .canAccessTenant request => PlatformReply.decision <$> engine.canAccessTenant request
  | .canAccessTenantScope request => PlatformReply.decision <$> engine.canAccessTenantScope request

/-- Every query collects the grants that match and then only looks at their
scopes. -/
theorem PlatformEngine.serve_eq (engine : PlatformEngine) (request : PlatformRequest) :
    engine.serve request = engine.matchingGrants request.subject request.permission >>=
      fun grants => ExceptT.mk (pure (request.reply (grants.map ScopedGrant.scope))) := by
  -- looking at a result and then at what was seen is looking once
  have hpure : ∀ {α β : Type} (x : Except Error α) (f : α → β),
      (ExceptT.mk (pure x) >>= fun a => pure (f a) : Fallible PlatformSig Error β) =
      ExceptT.mk (pure (x.map f)) := by
    intro α β x f
    cases x <;> rfl
  have hmap : ∀ {α β γ : Type} (x : Except Error α) (f : α → β) (g : β → γ),
      (x.map f).map g = x.map fun a => g (f a) := by
    intro α β γ x f g
    cases x <;> rfl
  cases request with
  | canPlatform request =>
    have hany : ∀ grants : List PlatformEffectiveGrant,
        (grants.any fun grant => grant.scope = .platform) =
          decide (.platform ∈ grants.map ScopedGrant.scope) := by
      intro grants
      rw [Bool.eq_iff_iff]
      simp
    simp only [PlatformEngine.serve, PlatformEngine.canPlatform, map_eq_pure_bind, bind_assoc,
      pure_bind, hany]
    rfl
  | accessibleTenants query =>
    simp only [PlatformEngine.serve, PlatformEngine.accessibleTenants, map_eq_pure_bind, bind_assoc,
      hpure]
    rfl
  | canAccessTenant request =>
    simp only [PlatformEngine.serve, PlatformEngine.canAccessTenant,
      PlatformEngine.accessibleTenants, map_eq_pure_bind, bind_assoc, hpure, hmap]
    rfl
  | canAccessTenantScope request =>
    simp only [PlatformEngine.serve, PlatformEngine.canAccessTenantScope,
      PlatformEngine.accessibleTenants, map_eq_pure_bind, bind_assoc, hpure, hmap]
    rfl

/-! ## The operations of a query -/

/-- The read is about the subject or about a role. -/
def PlatformRead.Concerns (subject : PlatformSubject) : PlatformRead → Prop
  | .platformPrincipalStatus s => s = subject
  | .platformRoleAssignments s => s = subject
  | .platformRolePermissions _ => True
  | .platformParentRoles _ => True

section Queries

variable {engine : PlatformEngine} {subject : PlatformSubject} {required : Permission}

/-- The matching grants are read for the principal alone. -/
theorem only_matchingGrants :
    (engine.matchingGrants subject required).run.Only (PlatformRead.Concerns subject) := by
  refine Fallible.only_bind ⟨rfl, fun _ => trivial⟩ fun status => ?_
  split
  · trivial
  · refine Fallible.only_bind (Fallible.only_bind ⟨rfl, fun _ => trivial⟩ fun assignments => ?_)
      fun _ => trivial
    apply only_assignmentGrants
    · exact fun r => ⟨trivial, fun _ => trivial⟩
    · exact fun r => ⟨trivial, fun _ => trivial⟩

/-- So is everything that a query reads. -/
theorem only_platformServe (request : PlatformRequest) :
    (engine.serve request).run.Only (PlatformRead.Concerns request.subject) := by
  rw [engine.serve_eq]
  exact Fallible.only_bind only_matchingGrants fun _ => trivial

/-! ## How a query stops -/

/-- The error that a failed read stands for. -/
def platformFailure : (op : PlatformSig.Op) → PlatformSig.Resp op → Option Error
  | _, .error e => some (.source e)
  | _, .ok _ => none

/-- A read that succeeds is one event, with the answer. -/
theorem path_readPlatform {r : PlatformRead} {tr : List (Event PlatformSig)} {a : r.Answer}
    (h : Prog.Path (readPlatform r).run tr (.ret (.ok a))) : tr = [⟨r, .ok a⟩] := by
  cases h with
  | step answer h =>
    rcases h.of_ret with ⟨rfl, hret⟩
    cases answer with
    | ok v =>
      cases hret
      rfl
    | error e => cases hret

theorem stopsAt_readPlatform (r : PlatformRead) :
    Fallible.StopsAt platformFailure (readPlatform r).run := by
  intro a
  refine ⟨fun e he => ?_, trivial⟩
  cases a with
  | ok v => cases he
  | error e' =>
    cases he
    rfl

theorem failsBy_readPlatform (r : PlatformRead) :
    Fallible.FailsBy (Fallible.FailedAt platformFailure) (readPlatform r).run := by
  intro tr e h
  cases h with
  | step a h =>
    rcases h.of_ret with ⟨rfl, hret⟩
    refine ⟨[], _, rfl, ?_⟩
    cases a with
    | ok v => cases hret
    | error e' =>
      cases hret
      rfl

/-- A failed read ends the call at once. -/
theorem stopsAt_matchingGrants :
    Fallible.StopsAt platformFailure (engine.matchingGrants subject required).run := by
  apply (stopsAt_readPlatform _).bind
  intro status
  split
  · trivial
  · refine Fallible.StopsAt.bind ?_ fun _ => trivial
    apply (stopsAt_readPlatform _).bind
    intro assignments
    exact stopsAt_assignmentGrants (fun _ => stopsAt_readPlatform _)
      (fun _ => stopsAt_readPlatform _) _ _

/-- The trace ends with a failed read, or with the refused expansion of a role
that the subject was found to be assigned. -/
def FailedMatching (engine : PlatformEngine) (subject : PlatformSubject)
    (tr : List (Event PlatformSig)) (e : Error) : Prop :=
  Fallible.FailedAt platformFailure tr e ∨
    ∃ assignments, ⟨.platformRoleAssignments subject, .ok assignments⟩ ∈ tr ∧
      FailedExpansion engine.roleReads assignments tr e

theorem FailedMatching.append {tr : List (Event PlatformSig)} {e : Error}
    (h : FailedMatching engine subject tr e) (pre : List (Event PlatformSig)) :
    FailedMatching engine subject (pre ++ tr) e := by
  rcases h with h | ⟨assignments, hmem, hon, pre', exp, a, ha, rfl, hpath, he⟩
  · exact .inl (h.append pre)
  · refine .inr ⟨assignments, List.mem_append_right _ hmem, hon, pre ++ pre', exp, a, ha, ?_,
      hpath, he⟩
    rw [List.append_assoc]

/-- It is not the error of a conflict between grants. -/
theorem FailedMatching.ne_invalidScope {tr : List (Event PlatformSig)} {e : Error}
    (h : FailedMatching engine subject tr e) (msg : String) : e ≠ .invalidScope msg := by
  rintro rfl
  rcases h with ⟨pre, ⟨op, a⟩, -, hbad⟩ | ⟨-, -, -, -, -, -, -, -, -, r, he | he⟩
  · cases a with
    | ok v => cases hbad
    | error e' => cases hbad
  · cases he
  · cases he

theorem failsBy_effectivePlatformGrants :
    Fallible.FailsBy (FailedMatching engine subject) (engine.effectiveGrants subject).run := by
  refine Fallible.FailsBy.bind ((failsBy_readPlatform _).mono fun tr e h => .inl h) ?_
  intro tr assignments hread
  have hmem : (⟨.platformRoleAssignments subject, .ok assignments⟩ : Event PlatformSig) ∈ tr := by
    rw [path_readPlatform hread]
    exact List.mem_singleton.mpr rfl
  have hloops : Fallible.FailsBy
      (fun tr' e => Fallible.FailedAt platformFailure tr' e ∨
        FailedExpansion engine.roleReads assignments tr' e)
      (engine.roleReads.assignmentGrants assignments []).run :=
    failsBy_assignmentGrants (fun _ => failsBy_readPlatform _) (fun _ => failsBy_readPlatform _) _ _
  refine hloops.mono fun tr' e h => ?_
  rcases h with h | ⟨hon, pre, exp, a, ha, rfl, hpath, he⟩
  · exact .inl (h.append tr)
  · refine .inr ⟨assignments, List.mem_append_left _ hmem, hon, tr ++ pre, exp, a, ha, ?_, hpath,
      he⟩
    rw [List.append_assoc]

/-- The call fails at a read, or because a role cannot be expanded. -/
theorem failsBy_matchingGrants :
    Fallible.FailsBy (FailedMatching engine subject)
      (engine.matchingGrants subject required).run := by
  refine Fallible.FailsBy.bind ((failsBy_readPlatform _).mono fun tr e h => .inl h) ?_
  intro tr status _
  split
  · exact Fallible.FailsBy.of_pure _
  · refine Fallible.FailsBy.bind (failsBy_effectivePlatformGrants.mono fun tr' e h => h.append tr) ?_
    intro tr' grants _
    exact Fallible.FailsBy.of_pure _

/-- Matching grants are not returned before every role found assigned has been
expanded. -/
theorem expanded_matchingGrants {tr : List (Event PlatformSig)}
    {grants : List PlatformEffectiveGrant}
    (h : Prog.Path (engine.matchingGrants subject required).run tr (.ret (.ok grants)))
    {assignments : List PlatformRoleAssignment}
    (hmem : (⟨.platformRoleAssignments subject, .ok assignments⟩ : Event PlatformSig) ∈ tr) :
    ∀ a ∈ assignments, ExpandedIn engine.roleReads tr a.role := by
  obtain ⟨tr₁, tr₂, status, rfl, hstatus, hrest⟩ := Fallible.path_ok h
  have htr₁ := path_readPlatform hstatus
  subst htr₁
  have hmem₂ : (⟨.platformRoleAssignments subject, .ok assignments⟩ : Event PlatformSig) ∈ tr₂ := by
    rcases List.mem_append.mp hmem with hmem | hmem
    · rw [List.mem_singleton] at hmem
      cases hmem
    · exact hmem
  intro a ha
  refine ExpandedIn.prepend ?_ _
  split at hrest
  · rw [(hrest.of_ret).1] at hmem₂
    exact absurd hmem₂ List.not_mem_nil
  · obtain ⟨tr₃, tr₄, out, rfl, heffective, hfilter⟩ := Fallible.path_ok hrest
    have htr₄ := (hfilter.of_ret).1
    subst htr₄
    rw [List.append_nil] at hmem₂
    refine ExpandedIn.append ?_ _
    obtain ⟨tr₅, tr₆, read, rfl, hread, hloops⟩ := Fallible.path_ok heffective
    have htr₅ := path_readPlatform hread
    subst htr₅
    have hsame : assignments = read := by
      rcases List.mem_append.mp hmem₂ with hmem₂ | hmem₂
      · rw [List.mem_singleton] at hmem₂
        cases hmem₂
        rfl
      · -- the loops read roles only
        have honly : (engine.roleReads.assignmentGrants read []).run.Only
            fun op => op ≠ PlatformRead.platformRoleAssignments subject := by
          apply only_assignmentGrants
          · exact fun r => ⟨nofun, fun _ => trivial⟩
          · exact fun r => ⟨nofun, fun _ => trivial⟩
        exact absurd rfl ((hloops.only honly).1 _ hmem₂)
    subst hsame
    exact (expanded_assignmentGrants hloops a ha).prepend _

end Queries

/-- A part of the trace computes the grants that match, and their scopes cannot
be merged. -/
def Conflict (engine : PlatformEngine) (request : PlatformRequest)
    (tr : List (Event PlatformSig)) (e : Error) : Prop :=
  (∀ r, request ≠ .canPlatform r) ∧
    e = .invalidScope "tenant data scope must not mix tenant-level and path-level grants" ∧
    ∃ grants, Prog.Path (engine.matchingGrants request.subject request.permission).run tr
        (.ret (.ok grants)) ∧
      TenantDataAccessScope.Mixed (· ∈ grants.map ScopedGrant.scope)

/-- Looking at scopes fails on a conflict and on nothing else. -/
theorem PlatformRequest.reply_error {request : PlatformRequest}
    {scopes : List PlatformGrantScope} {e : Error} (h : request.reply scopes = .error e) :
    (∀ r, request ≠ .canPlatform r) ∧
      e = .invalidScope "tenant data scope must not mix tenant-level and path-level grants" ∧
      TenantDataAccessScope.Mixed (· ∈ scopes) := by
  have hmerge : ∀ {α : Type} (f : TenantDataAccessScope → α),
      (TenantDataAccessScope.merge scopes).map f = .error e →
      e = .invalidScope "tenant data scope must not mix tenant-level and path-level grants" ∧
        TenantDataAccessScope.Mixed (· ∈ scopes) := by
    intro α f herror
    cases hm : TenantDataAccessScope.merge scopes with
    | ok s =>
      rw [hm] at herror
      cases herror
    | error e' =>
      rw [hm] at herror
      cases herror
      have hmixed : TenantDataAccessScope.Mixed (· ∈ scopes) :=
        (TenantDataAccessScope.merge_error_iff fun _ => Iff.rfl).mp ⟨_, hm⟩
      rw [TenantDataAccessScope.merge_of_mixed (fun _ => Iff.rfl) hmixed] at hm
      exact ⟨(Except.error.inj hm).symm, hmixed⟩
  cases request with
  | canPlatform r => cases h
  | accessibleTenants r => exact ⟨nofun, hmerge _ h⟩
  | canAccessTenant r => exact ⟨nofun, hmerge _ h⟩
  | canAccessTenantScope r => exact ⟨nofun, hmerge _ h⟩

/-- Whatever the platform source answers, from read to read, a query that
returns:

* has read about its own subject and about roles only;
* has failed at its first failed read, with that error, if there was one;
* has failed at the first expansion of a role that is refused, with that error;
* has, if it succeeds, expanded every role it found assigned;
* has, if it fails, ended at such a read or expansion, or else has found, when
  everything was read and expanded, that tenant-level and path-level grants
  conflict; the check for the platform itself never does. -/
theorem platform_fail_closed (engine : PlatformEngine) (request : PlatformRequest)
    (tr : List (Event PlatformSig)) (res : Except Error PlatformReply)
    (hpath : Prog.Path (engine.serve request).run tr (.ret res)) :
    (∀ ev ∈ tr, PlatformRead.Concerns request.subject ev.op) ∧
    (∀ pre r e post, tr = pre ++ ⟨r, .error e⟩ :: post → post = [] ∧ res = .error (.source e)) ∧
    (∀ (pre exp post : List (Event PlatformSig)) (role : PlatformRoleId) (e : Error)
        (rest : List PlatformRoleId → Fallible PlatformSig Error PlatformReply),
      tr = pre ++ (exp ++ post) →
      Prog.Path (engine.serve request).run pre
        (expandRoles engine.platformRoleHierarchy role >>= rest).run →
      Prog.Path (expandRoles engine.platformRoleHierarchy role).run exp (.ret (.error e)) →
      post = [] ∧ res = .error e) ∧
    (∀ reply, res = .ok reply → ∀ assignments,
      ⟨.platformRoleAssignments request.subject, .ok assignments⟩ ∈ tr →
      ∀ a ∈ assignments, ExpandedIn engine.roleReads tr a.role) ∧
    ∀ e, res = .error e →
      FailedMatching engine request.subject tr e ∨ Conflict engine request tr e := by
  have hstops : Fallible.StopsAt platformFailure (engine.serve request).run := by
    rw [engine.serve_eq]
    exact stopsAt_matchingGrants.bind fun _ => trivial
  refine ⟨(hpath.only (only_platformServe request)).1, ?_, ?_, ?_, ?_⟩
  · rintro pre r e post rfl
    exact hstops.path hpath rfl
  · -- the refused expansion ends the query, so nothing of the trace is left after it
    rintro pre exp post role e rest rfl hpre hexp
    exact Fallible.path_error hexp (hpre.cancel hpath)
  · rintro reply rfl assignments hread
    rw [engine.serve_eq] at hpath
    obtain ⟨tr₁, tr₂, grants, rfl, hgrants, hreply⟩ := Fallible.path_ok hpath
    obtain ⟨rfl, -⟩ := hreply.of_ret
    rw [List.append_nil] at hread ⊢
    exact expanded_matchingGrants hgrants hread
  · rintro e rfl
    rw [engine.serve_eq, Fallible.run_bind] at hpath
    obtain ⟨tr₁, tr₂, grants, rfl, hgrants, hreply⟩ := Prog.Path.of_bind hpath
    cases grants with
    | error e' =>
      obtain ⟨rfl, hret⟩ := hreply.of_ret
      cases hret
      rw [List.append_nil]
      exact .inl (failsBy_matchingGrants _ _ hgrants)
    | ok grants =>
      obtain ⟨rfl, hret⟩ := hreply.of_ret
      rw [List.append_nil]
      injection hret with hret
      obtain ⟨hrequest, herror, hmixed⟩ := PlatformRequest.reply_error hret.symm
      exact .inr ⟨hrequest, herror, grants, hgrants, hmixed⟩

namespace Sample

theorem tenant_ne_nil : [tenant] ≠ [] := List.cons_ne_nil _ _

theorem tenant_ascending : Ordered.Ascending [tenant] := List.pairwise_singleton _ _

def tenantGrant : PlatformGrantScope :=
  .tenants ⟨[tenant], tenant_ne_nil, tenant_ascending⟩

/-- One path of the same tenant. -/
def pathGrant : PlatformGrantScope :=
  .tenantPaths ⟨[⟨tenant, ⟨[⟨['x'], by decide⟩], List.cons_ne_nil _ _, List.pairwise_singleton _ _⟩⟩],
    List.cons_ne_nil _ _, List.pairwise_singleton _ _⟩

/-- The operator has the support role for a tenant and for one path of it. -/
def conflicting : List (Event PlatformSig) :=
  [⟨.platformPrincipalStatus operator, .ok .active⟩,
    ⟨.platformRoleAssignments operator, .ok [⟨support, tenantGrant⟩, ⟨support, pathGrant⟩]⟩,
    ⟨.platformRolePermissions support, .ok [read]⟩, ⟨.platformRolePermissions support, .ok [read]⟩]

end Sample

theorem platform_fail_closed_sample :
    Conflict ⟨default⟩ (.accessibleTenants ⟨Sample.operator, Sample.read⟩) Sample.conflicting
      (.invalidScope "tenant data scope must not mix tenant-level and path-level grants") := by
  have hpath : Prog.Path (PlatformEngine.serve ⟨default⟩
      (.accessibleTenants ⟨Sample.operator, Sample.read⟩)).run Sample.conflicting
      (.ret (.error
        (.invalidScope "tenant data scope must not mix tenant-level and path-level grants"))) :=
    .step _ (.step _ (.step _ (.step _ (.refl _))))
  obtain ⟨-, -, -, -, hfails⟩ := platform_fail_closed ⟨default⟩
    (.accessibleTenants ⟨Sample.operator, Sample.read⟩) Sample.conflicting _ hpath
  rcases hfails _ rfl with hfailed | hconflict
  · exact absurd rfl (hfailed.ne_invalidScope _)
  · exact hconflict

end RsTenant
