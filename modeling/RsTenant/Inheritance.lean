import RsTenant.Order

/-! # What success and failure of an expansion say

The outcome of `expandRoles` against the inheritance graph that its reads
return. A success lists exactly the inherited roles
(`expand_roles_sound_complete`); a failure names a role on a reachable cycle
or at the end of a chain of `maxDepth + 1` edges, and without either there is
no failure (`expand_roles_failures_genuine`).

The graph of a hierarchy has the edges of the reads that succeed. A successful
expansion has not met any other read, so it is one of the same hierarchy with
all reads answered (`expandRoles_answered`).
-/

namespace RsTenant

open Interact Walk

variable {S : Sig} {Role : Type}

/-! ## The graph of a hierarchy -/

namespace RoleHierarchy

/-- The parents that a read of the role returns; none when the read fails. -/
def parents (h : RoleHierarchy S Role) (env : (op : S.Op) → S.Resp op) (r : Role) : List Role :=
  match (h.parentRoles r).run.eval env with
  | .ok parents => parents
  | .error _ => []

/-- The hierarchy with every read answered beforehand. -/
def answered (h : RoleHierarchy S Role) (env : (op : S.Op) → S.Resp op) : RoleHierarchy S Role :=
  { h with parentRoles := fun r => pure (h.parents env r) }

/-- The two errors name the role and can be told apart. -/
structure NamesRoles (h : RoleHierarchy S Role) : Prop where
  cycle : Function.Injective h.cycleError
  depth : Function.Injective h.depthError
  apart : ∀ r r', h.cycleError r ≠ h.depthError r'

theorem parents_of_ok {h : RoleHierarchy S Role} {env : (op : S.Op) → S.Resp op} {r : Role}
    {parents : List Role} (hok : (h.parentRoles r).run.eval env = .ok parents) :
    h.parents env r = parents := by
  unfold RoleHierarchy.parents
  rw [hok]

theorem eval_answered (h : RoleHierarchy S Role) (env : (op : S.Op) → S.Resp op) (r : Role) :
    ((h.answered env).parentRoles r).run.eval env = .ok (h.parents env r) := rfl

end RoleHierarchy

theorem Engine.tenantRoleHierarchy_namesRoles (engine : Engine) (tenant : TenantId) :
    (engine.tenantRoleHierarchy tenant).NamesRoles where
  cycle r r' heq := by
    injection heq
  depth r r' heq := by
    injection heq
  apart r r' heq := by
    cases heq

/-! ## Reads that a success has not met -/

section Answered

variable [DecidableEq Role] {h : RoleHierarchy S Role} {env : (op : S.Op) → S.Resp op}

/-- A loop that succeeds does so with all reads answered beforehand. -/
theorem expandLoop_answered (st : Expansion Role) {st' : Expansion Role}
    (hok : (expandLoop h st).run.eval env = .ok st') :
    (expandLoop (h.answered env) st).run.eval env = .ok st' := by
  induction st using expandLoop.induct h with
  | case1 st hnil =>
    rw [expandLoop_done hnil] at hok ⊢
    exact hok
  | case2 st current depth parent iter stack hcons hdeep =>
    rw [expandLoop_parent hcons, if_pos hdeep] at hok
    cases hok
  | case3 st current depth parent iter stack hcons hdeep hcycle =>
    rw [expandLoop_parent hcons, if_neg hdeep, if_pos hcycle] at hok
    cases hok
  | case4 st current depth parent iter stack hcons hdeep hcycle hvisited ih =>
    rw [expandLoop_parent hcons, if_neg hdeep, if_neg hcycle, if_pos hvisited] at hok
    rw [expandLoop_parent hcons, if_neg (show ¬ depth + 1 > (h.answered env).maxDepth from hdeep),
      if_neg hcycle, if_pos hvisited]
    exact ih hok
  | case5 st current depth parent iter stack hcons hdeep hcycle hvisited ih =>
    rw [expandLoop_parent hcons, if_neg hdeep, if_neg hcycle, if_neg hvisited,
      Fallible.eval_bind] at hok
    rw [expandLoop_parent hcons, if_neg (show ¬ depth + 1 > (h.answered env).maxDepth from hdeep),
      if_neg hcycle, if_neg hvisited, Fallible.eval_bind, h.eval_answered]
    -- the loop went on, so this read has succeeded
    rcases Results.bind_eq_ok.mp hok with ⟨parents, hread, hrest⟩
    rw [RoleHierarchy.parents_of_ok hread]
    exact ih parents hrest
  | case6 st current depth stack hcons ih =>
    rw [expandLoop_pop hcons] at hok ⊢
    exact ih hok

theorem expandRoles_answered {root : Role} {output : List Role}
    (hok : (expandRoles h root).run.eval env = .ok output) :
    (expandRoles (h.answered env) root).run.eval env = .ok output := by
  unfold expandRoles expandFrom at hok ⊢
  rw [Fallible.eval_bind, Fallible.eval_bind] at hok ⊢
  rw [h.eval_answered]
  rcases Results.bind_eq_ok.mp hok with ⟨st, hsearch, hreturn⟩
  rcases Results.bind_eq_ok.mp hsearch with ⟨parents, hread, hloop⟩
  rw [RoleHierarchy.parents_of_ok hread]
  exact Results.bind_eq_ok.mpr ⟨st, expandLoop_answered _ hloop, hreturn⟩

/-- A successful expansion ends in a state that the search has finished. -/
theorem searched_of_ok {f : Role → List Role}
    (hf : ∀ r, (h.parentRoles r).run.eval env = .ok (f r)) {root : Role} {output : List Role}
    (hok : (expandRoles h root).run.eval env = .ok output) :
    ∃ st, Searched f root h.maxDepth st ∧ st.output = output := by
  have hloop := expandLoop_outcome hf _ (.inl ⟨_, _, _, _, searching_start f root h.maxDepth⟩)
  unfold expandRoles expandFrom at hok
  rw [Fallible.eval_bind, Fallible.eval_bind, hf] at hok
  rcases Results.bind_eq_ok.mp hok with ⟨st, hres, hreturn⟩
  change (expandLoop h _).run.eval env = _ at hres
  rw [hres] at hloop
  exact ⟨st, hloop, Except.ok.inj hreturn⟩

end Answered

/-! ## Chains that the search has followed -/

/-- A finished role was met at the end of a chain within the bound. -/
theorem Searched.chain {f : Role → List Role} {root : Role} {maxDepth : ℕ} {st : Expansion Role}
    (hs : Searched f root maxDepth st) {r : Role} (hr : r ∈ st.output) :
    ∃ n ≤ maxDepth, Chain f n root r := by
  rcases (hs.settled r ((hs.output r).mp hr)).first with ⟨a, hfirst, hle, -⟩
  exact ⟨a.length, hle, a, rfl, hfirst.1⟩

/-- A parent past the bound is at the end of a chain one edge too long. -/
theorem TooDeep.chain {f : Role → List Role} {root : Role} {maxDepth : ℕ} {r : Role}
    (h : TooDeep f root maxDepth r) : Chain f (maxDepth + 1) root r := by
  rcases h with ⟨a, u, hfirst, hlen, hr⟩
  have hchain : Chain f maxDepth root u := ⟨a, hlen, hfirst.1⟩
  exact hchain.tail hr

/-- Where no chain is too long, no first chain is. -/
theorem shallow_of_chains {f : Role → List Role} {root : Role} {maxDepth : ℕ}
    (h : ∀ n r, Chain f n root r → n ≤ maxDepth) : Shallow f root maxDepth := by
  intro a u hfirst hne
  rcases List.exists_mem_of_ne_nil _ hne with ⟨p, hp⟩
  have hchain : Chain f a.length root u := ⟨a, rfl, hfirst.1⟩
  exact h _ p (hchain.tail hp)

/-! ## The two results -/

section Main

variable [DecidableEq Role]

/-- A successful expansion starts with the root and lists each inherited role
once; every one of them is within the bound, and no cycle can be reached. -/
theorem expand_roles_sound_complete (h : RoleHierarchy S Role) (env : (op : S.Op) → S.Resp op)
    (root : Role) (out : List Role) (hok : (expandRoles h root).run.eval env = .ok out) :
    out.head? = some root ∧ out.Nodup ∧
      (∀ r, r ∈ out ↔ Reaches (h.parents env) root r) ∧
      (∀ r ∈ out, ∃ n ≤ h.maxDepth, Chain (h.parents env) n root r) ∧
      Acyclic (h.parents env) root := by
  rcases searched_of_ok (h.eval_answered env) (expandRoles_answered hok) with ⟨st, hs, rfl⟩
  have hexp := hs.expanded
  exact ⟨hexp.head, hexp.nodup, hexp.mem, fun r hr => hs.chain hr, hexp.acyclic⟩

/-- The sample roles are found within two levels, `lead` twice. -/
theorem expand_roles_sound_complete_sample :
    (∀ r, r ∈ [Sample.clerk, Sample.lead, Sample.base, Sample.audit] ↔
      Reaches (Sample.hierarchy.parents (answers Sample.diamond.source NoCache)) Sample.clerk r) ∧
    Acyclic (Sample.hierarchy.parents (answers Sample.diamond.source NoCache)) Sample.clerk := by
  have h := expand_roles_sound_complete Sample.hierarchy (answers Sample.diamond.source NoCache)
    Sample.clerk _ Sample.expand_diamond
  exact ⟨h.2.2.1, h.2.2.2.2⟩

/-- The two errors of an expansion whose reads succeed name a role on a
reachable cycle, or one at the end of a chain of `maxDepth + 1` edges; where
there is neither a cycle nor a chain that is too long, there is no error. With
errors that name their role, as those of both engines do, each error is for
the role it names. -/
theorem expand_roles_failures_genuine (h : RoleHierarchy S Role)
    (env : (op : S.Op) → S.Resp op) (root : Role)
    (hreads : ∀ r, ∃ parents, (h.parentRoles r).run.eval env = .ok parents) :
    (∀ e, (expandRoles h root).run.eval env = .error e →
      (∃ r, e = h.cycleError r ∧ Reaches (h.parents env) root r ∧ OnCycle (h.parents env) r) ∨
        ∃ r, e = h.depthError r ∧ Chain (h.parents env) (h.maxDepth + 1) root r) ∧
      (h.NamesRoles → ∀ r,
        ((expandRoles h root).run.eval env = .error (h.cycleError r) →
          Reaches (h.parents env) root r ∧ OnCycle (h.parents env) r) ∧
        ((expandRoles h root).run.eval env = .error (h.depthError r) →
          Chain (h.parents env) (h.maxDepth + 1) root r)) ∧
      (Acyclic (h.parents env) root →
        (∀ n r, Chain (h.parents env) n root r → n ≤ h.maxDepth) →
        ∃ out, (expandRoles h root).run.eval env = .ok out) := by
  have hf : ∀ r, (h.parentRoles r).run.eval env = .ok (h.parents env r) := by
    intro r
    rcases hreads r with ⟨parents, hok⟩
    rw [RoleHierarchy.parents_of_ok hok, hok]
  have hrefused : ∀ e, (expandRoles h root).run.eval env = .error e →
      Refused h (h.parents env) root e := by
    intro e he
    have hout := expandRoles_outcome hf root
    rw [he] at hout
    exact hout
  refine ⟨fun e he => ?_, fun hnames r => ⟨fun he => ?_, fun he => ?_⟩, fun hacyclic hchains => ?_⟩
  · rcases hrefused e he with hcycle | ⟨r, her, hdeep⟩
    · exact .inl hcycle
    · exact .inr ⟨r, her, hdeep.chain⟩
  · rcases hrefused _ he with ⟨r', heq, hcycle⟩ | ⟨r', heq, -⟩
    · rw [hnames.cycle heq]
      exact hcycle
    · exact absurd heq (hnames.apart r r')
  · rcases hrefused _ he with ⟨r', heq, -⟩ | ⟨r', heq, hdeep⟩
    · exact absurd heq.symm (hnames.apart r' r)
    · rw [hnames.depth heq]
      exact hdeep.chain
  · exact (expandRoles_ok_iff hf root).mpr ⟨hacyclic, shallow_of_chains hchains⟩

/-- With the parents reordered the search runs into the bound, at the end of a
chain of three edges. -/
theorem expand_roles_failures_genuine_sample :
    Chain (Sample.hierarchy.parents (answers Sample.reordered.source NoCache)) 3 Sample.clerk
      Sample.base :=
  ((expand_roles_failures_genuine Sample.hierarchy (answers Sample.reordered.source NoCache)
    Sample.clerk fun r => ⟨_, Sample.eval_parentRoles Sample.reordered r⟩).2.1
    (Engine.tenantRoleHierarchy_namesRoles _ _) Sample.base).2 Sample.expand_reordered

end Main

end RsTenant
