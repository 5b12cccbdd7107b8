import RsTenant.Lib.Loop
import RsTenant.Expansion

/-! # The loop of role expansion

`expandLoop` is a recursive function; here it is taken apart into iterations.
`iteration` is the body of the loop, read off the source on its own, and
`expandLoop` is the loop around it (`expandLoop_eq_loop`). Every iteration
shrinks the hydra of the state, whatever the reads answer, so the loop ends on
every role graph; every frame is as deep as there are frames below it, and no
role is read twice.

The reads are counted on the hierarchy whose reads are the operations
themselves (`asking`). Every other expansion is this one with the reads carried
out (`expandRoles_asking`).
-/

namespace RsTenant

open Interact

variable {S : Sig} {Role : Type} [DecidableEq Role]

/-! ## One iteration -/

/-- The body of the loop of `expand_from`; `none` when the stack is empty. -/
def iteration (h : RoleHierarchy S Role) (st : Expansion Role) :
    Fallible S Error (Option (Expansion Role)) :=
  match st.stack with
  | [] => return none
  | ⟨current, depth, parent :: iter⟩ :: stack =>
    if depth + 1 > h.maxDepth then
      throw (h.depthError parent)
    else if parent ∈ st.visiting then
      throw (h.cycleError parent)
    else if parent ∈ st.visited then
      return some { st with stack := ⟨current, depth, iter⟩ :: stack }
    else do
      let parents ← h.parentRoles parent
      return some
        { stack := ⟨parent, depth + 1, parents⟩ :: ⟨current, depth, iter⟩ :: stack
          visited := st.visited
          visiting := insert parent st.visiting
          output := st.output ++ [parent] }
  | ⟨current, _, []⟩ :: stack =>
    return some
      { stack := stack
        visited := insert current st.visited
        visiting := st.visiting.erase current
        output := st.output }

/-- The state in which the loop starts. -/
def Expansion.start (root : Role) (parents : List Role) : Expansion Role :=
  ⟨[⟨root, 0, parents⟩], ∅, insert root ∅, [root]⟩

section Iteration

variable {h : RoleHierarchy S Role} {st st' : Expansion Role} {current parent : Role} {depth : ℕ}
  {iter : List Role} {stack : List (Frame Role)}

/-- The iteration at a parent that has not been looked at. -/
theorem iteration_parent (hst : st.stack = ⟨current, depth, parent :: iter⟩ :: stack) :
    iteration h st =
      if depth + 1 > h.maxDepth then throw (h.depthError parent)
      else if parent ∈ st.visiting then throw (h.cycleError parent)
      else if parent ∈ st.visited then
        return some ⟨⟨current, depth, iter⟩ :: stack, st.visited, st.visiting, st.output⟩
      else
        h.parentRoles parent >>= fun parents => pure (some
          ⟨⟨parent, depth + 1, parents⟩ :: ⟨current, depth, iter⟩ :: stack, st.visited,
            insert parent st.visiting, st.output ++ [parent]⟩) := by
  unfold iteration
  rw [hst]

/-- The iteration at a frame whose parents have been looked at. -/
theorem iteration_pop (hst : st.stack = ⟨current, depth, []⟩ :: stack) :
    iteration h st =
      return some ⟨stack, insert current st.visited, st.visiting.erase current, st.output⟩ := by
  unfold iteration
  rw [hst]

/-- The recursive function is the loop around the body. -/
theorem expandLoop_eq_loop (h : RoleHierarchy S Role) (st : Expansion Role) :
    expandLoop h st =
      iteration h st >>= fun next => next.elim (pure st) (expandLoop h) := by
  match hst : st.stack with
  | [] =>
    have hbody : iteration h st = pure none := by
      unfold iteration
      rw [hst]
    rw [expandLoop_done hst, hbody, pure_bind]
    rfl
  | ⟨current, depth, parent :: iter⟩ :: stack =>
    rw [expandLoop_parent hst, iteration_parent hst]
    split
    · rfl
    · split
      · rfl
      · split
        · rw [pure_bind]
          rfl
        · rw [bind_assoc]
          simp only [pure_bind]
          rfl
  | ⟨current, depth, []⟩ :: stack =>
    rw [expandLoop_pop hst, iteration_pop hst, pure_bind]
    rfl

/-- All an iteration that goes on can do: pass a parent over, push it with the
parents that were read, or pop a frame. -/
inductive Changes (maxDepth : ℕ) (st : Expansion Role) : Expansion Role → Prop
  | skip {current parent : Role} {depth : ℕ} {iter : List Role} {stack : List (Frame Role)} :
      st.stack = ⟨current, depth, parent :: iter⟩ :: stack →
      Changes maxDepth st ⟨⟨current, depth, iter⟩ :: stack, st.visited, st.visiting, st.output⟩
  | push {current parent : Role} {depth : ℕ} {iter parents : List Role}
      {stack : List (Frame Role)} :
      st.stack = ⟨current, depth, parent :: iter⟩ :: stack → ¬ depth + 1 > maxDepth →
      Changes maxDepth st
        ⟨⟨parent, depth + 1, parents⟩ :: ⟨current, depth, iter⟩ :: stack, st.visited,
          insert parent st.visiting, st.output ++ [parent]⟩
  | pop {current : Role} {depth : ℕ} {stack : List (Frame Role)} :
      st.stack = ⟨current, depth, []⟩ :: stack →
      Changes maxDepth st ⟨stack, insert current st.visited, st.visiting.erase current, st.output⟩

/-- No iteration can do anything else. -/
theorem changes_of_next (hnext : Loop.Next (iteration h) st st') : Changes h.maxDepth st st' := by
  obtain ⟨tr, hpath⟩ := hnext
  match hst : st.stack with
  | [] =>
    unfold iteration at hpath
    -- an empty stack leaves no next state
    rw [hst] at hpath
    cases hpath.of_ret.2
  | ⟨current, depth, parent :: iter⟩ :: stack =>
    rw [iteration_parent hst] at hpath
    split at hpath
    · cases hpath.of_ret.2
    · rename_i hdepth
      split at hpath
      · cases hpath.of_ret.2
      · split at hpath
        · cases hpath.of_ret.2
          exact .skip hst
        · -- the parents that were answered are those of the new frame
          obtain ⟨tr₁, tr₂, parents, -, -, hpure⟩ := Fallible.path_ok hpath
          cases hpure.of_ret.2
          exact .push hst hdepth
  | ⟨current, depth, []⟩ :: stack =>
    rw [iteration_pop hst] at hpath
    cases hpath.of_ret.2
    exact .pop hst

/-- Every iteration shrinks the hydra. -/
theorem Changes.hydra_lt {maxDepth : ℕ} (hchange : Changes maxDepth st st') :
    Relation.CutExpand (· < ·) (st'.hydra maxDepth).heads (st.hydra maxDepth).heads := by
  cases hchange with
  | skip hst => exact hydra_skip hst
  | push hst hdepth => exact hydra_push hst hdepth
  | pop hst => exact hydra_pop hst

/-- No state has an endless chain of iterations, whatever the reads answer. -/
theorem wellFounded_next (h : RoleHierarchy S Role) :
    WellFounded fun st' st => Loop.Next (iteration h) st st' := by
  have hheads : WellFounded (InvImage (Relation.CutExpand (· < ·))
      fun st : Expansion Role => (st.hydra h.maxDepth).heads) :=
    InvImage.wf _ (WellFounded.cutExpand wellFounded_lt)
  refine Subrelation.wf ?_ hheads
  intro st' st hnext
  exact (changes_of_next hnext).hydra_lt

end Iteration

/-! ## The stack -/

/-- Each frame is as deep as there are frames below it, and within the bound. -/
def Stacked (maxDepth : ℕ) : List (Frame Role) → Prop
  | [] => True
  | f :: stack => f.depth = stack.length ∧ f.depth ≤ maxDepth ∧ Stacked maxDepth stack

omit [DecidableEq Role] in
/-- The vector of the source has its top at the end. -/
theorem Stacked.get {maxDepth : ℕ} {stack : List (Frame Role)} (hs : Stacked maxDepth stack)
    {i : ℕ} {f : Frame Role} (hf : stack.reverse[i]? = some f) :
    f.depth = i ∧ f.depth ≤ maxDepth := by
  induction stack with
  | nil => simp at hf
  | cons g stack ih =>
    obtain ⟨hdepth, hle, hrest⟩ := hs
    rw [List.reverse_cons] at hf
    by_cases hi : i < stack.length
    · rw [List.getElem?_append_left (by simpa using hi)] at hf
      exact ih hrest hf
    · have hlen : i < (stack.reverse ++ [g]).length := (List.getElem?_eq_some_iff.mp hf).1
      have hlast : i = stack.length := by
        simp only [List.length_append, List.length_reverse, List.length_singleton] at hlen
        omega
      subst hlast
      have hg : g = f := by simpa using hf
      subst hg
      exact ⟨hdepth, hle⟩

/-- An iteration keeps the frames in place. -/
theorem Changes.stacked {maxDepth : ℕ} {st st' : Expansion Role}
    (hchange : Changes maxDepth st st') (hs : Stacked maxDepth st.stack) :
    Stacked maxDepth st'.stack := by
  cases hchange with
  | skip hst =>
    rw [hst] at hs
    exact hs
  | @push current parent depth iter parents stack hst hdepth =>
    rw [hst] at hs
    -- the new frame lies on the frame it was reached from
    have htop : depth = stack.length := hs.1
    have hlength : depth + 1 = stack.length + 1 := by omega
    have hle : depth + 1 ≤ maxDepth := by omega
    exact ⟨hlength, hle, hs⟩
  | pop hst =>
    rw [hst] at hs
    exact hs.2.2

/-- However many iterations have been made. -/
theorem stacked_of_iterates {h : RoleHierarchy S Role} {root : Role} {parents : List Role} {n : ℕ}
    {tr : List (Event S)} {st : Expansion Role}
    (hrun : Loop.Iterates (iteration h) n (Expansion.start root parents) tr st) :
    Stacked h.maxDepth st.stack := by
  have hstart : Stacked h.maxDepth (Expansion.start root parents).stack :=
    ⟨rfl, Nat.zero_le _, trivial⟩
  exact hrun.invariant (I := fun st => Stacked h.maxDepth st.stack)
    (fun _ _ hs hnext => (changes_of_next hnext).stacked hs) hstart

/-! ## The reads -/

/-- Asking for the parents of roles, and nothing else. -/
abbrev Asking (Role : Type) : Sig where
  Op := Role
  Resp _ := Except Error (List Role)

/-- The same hierarchy, with its reads as the operations. -/
def RoleHierarchy.asking (h : RoleHierarchy S Role) : RoleHierarchy (Asking Role) Role where
  parentRoles r := ExceptT.mk (Prog.perform (S := Asking Role) r)
  maxDepth := h.maxDepth
  cycleError := h.cycleError
  depthError := h.depthError

/-- The expansion reads the parents of the root and loops. -/
theorem expandRoles_eq (h : RoleHierarchy S Role) (root : Role) :
    expandRoles h root =
      h.parentRoles root >>= fun parents =>
        expandLoop h (Expansion.start root parents) >>= fun st => pure st.output := by
  unfold expandRoles expandFrom
  simp only [bind_assoc]
  rfl

/-- The loop does not depend on how its reads are carried out. -/
theorem expandLoop_asking (h : RoleHierarchy S Role) (st : Expansion Role) :
    (expandLoop h st).run =
      (expandLoop h.asking st).run.subst fun r => (h.parentRoles r).run := by
  -- branch by branch the two loops do the same; only a new parent is asked about
  induction st using expandLoop.induct h with
  | case1 st hst =>
    rw [expandLoop_done hst, expandLoop_done hst]
    rfl
  | case2 st current depth parent iter stack hst hdeep =>
    have hdeep' : depth + 1 > h.asking.maxDepth := hdeep
    rw [expandLoop_parent hst, if_pos hdeep, expandLoop_parent hst, if_pos hdeep']
    rfl
  | case3 st current depth parent iter stack hst hdeep hvisiting =>
    have hdeep' : ¬ depth + 1 > h.asking.maxDepth := hdeep
    rw [expandLoop_parent hst, if_neg hdeep, if_pos hvisiting, expandLoop_parent hst,
      if_neg hdeep', if_pos hvisiting]
    rfl
  | case4 st current depth parent iter stack hst hdeep hvisiting hvisited ih =>
    have hdeep' : ¬ depth + 1 > h.asking.maxDepth := hdeep
    rw [expandLoop_parent hst, if_neg hdeep, if_neg hvisiting, if_pos hvisited,
      expandLoop_parent hst, if_neg hdeep', if_neg hvisiting, if_pos hvisited]
    exact ih
  | case5 st current depth parent iter stack hst hdeep hvisiting hvisited ih =>
    have hdeep' : ¬ depth + 1 > h.asking.maxDepth := hdeep
    rw [expandLoop_parent hst, if_neg hdeep, if_neg hvisiting, if_neg hvisited,
      expandLoop_parent hst, if_neg hdeep', if_neg hvisiting, if_neg hvisited,
      Fallible.run_bind]
    refine congrArg ((h.parentRoles parent).run >>= ·) (funext fun answer => ?_)
    cases answer with
    | ok parents => exact ih parents
    | error e => rfl
  | case6 st current depth stack hst ih =>
    rw [expandLoop_pop hst, expandLoop_pop hst]
    exact ih

/-- The expansion is a program that asks for parents, with the asking carried
out. -/
theorem expandRoles_asking (h : RoleHierarchy S Role) (root : Role) :
    (expandRoles h root).run =
      (expandRoles h.asking root).run.subst fun r => (h.parentRoles r).run := by
  rw [expandRoles_eq, expandRoles_eq, Fallible.run_bind]
  refine congrArg ((h.parentRoles root).run >>= ·) (funext fun answer => ?_)
  cases answer with
  | error e => rfl
  | ok parents =>
    change (expandLoop h _ >>= fun st => pure st.output).run =
      (expandLoop h.asking _ >>= fun st => pure st.output).run.subst _
    rw [Fallible.run_bind, Fallible.run_bind, expandLoop_asking h, Prog.subst_bind]
    refine congrArg (_ >>= ·) (funext fun res => ?_)
    cases res with
    | ok st => rfl
    | error e => rfl

/-- What has been read is listed once, and is finished or being expanded. -/
structure Listed (st : Expansion Role) : Prop where
  nodup : st.output.Nodup
  met : ∀ r ∈ st.output, r ∈ st.visited ∨ r ∈ st.visiting

theorem listed_start (root : Role) (parents : List Role) :
    Listed (Expansion.start root parents) where
  nodup := List.nodup_singleton root
  met r hr := by
    rw [List.mem_singleton.mp hr]
    exact .inr (Finset.mem_insert_self root ∅)

namespace Listed

variable {st : Expansion Role} {current parent : Role} {stack : List (Frame Role)}

omit [DecidableEq Role] in
theorem not_mem (hs : Listed st) (hvisiting : parent ∉ st.visiting)
    (hvisited : parent ∉ st.visited) : parent ∉ st.output := by
  intro hmem
  rcases hs.met parent hmem with h | h
  · exact hvisited h
  · exact hvisiting h

omit [DecidableEq Role] in
theorem nodup_snoc (hs : Listed st) (hparent : parent ∉ st.output) :
    (st.output ++ [parent]).Nodup := by
  rw [List.nodup_append]
  refine ⟨hs.nodup, List.nodup_singleton parent, ?_⟩
  intro r hr p hp
  rw [List.mem_singleton.mp hp]
  intro heq
  exact hparent (heq ▸ hr)

/-- A new parent is listed and being expanded. -/
theorem push (hs : Listed st) (hparent : parent ∉ st.output) :
    Listed ⟨stack, st.visited, insert parent st.visiting, st.output ++ [parent]⟩ where
  nodup := hs.nodup_snoc hparent
  met r hr := by
    rcases List.mem_append.mp hr with hr | hr
    · exact (hs.met r hr).imp_right fun h => Finset.mem_insert_of_mem h
    · rw [List.mem_singleton.mp hr]
      exact .inr (Finset.mem_insert_self parent st.visiting)

/-- A role whose parents have been looked at is finished. -/
theorem pop (hs : Listed st) :
    Listed ⟨stack, insert current st.visited, st.visiting.erase current, st.output⟩ where
  nodup := hs.nodup
  met r hr := by
    by_cases heq : r = current
    · subst heq
      exact .inl (Finset.mem_insert_self r st.visited)
    · rcases hs.met r hr with h | h
      · exact .inl (Finset.mem_insert_of_mem h)
      · exact .inr (Finset.mem_erase.mpr ⟨heq, h⟩)

end Listed

/-- However far the loop has come, what it has read and the read it waits for
are new and different. -/
theorem nodup_issued_loop (h : RoleHierarchy S Role) (st : Expansion Role) (hs : Listed st)
    {tr : List (Event (Asking Role))} {q : Prog (Asking Role) (Except Error (Expansion Role))}
    (hpath : Prog.Path (expandLoop h.asking st).run tr q) :
    (st.output ++ Prog.issued tr q).Nodup := by
  have hends : ∀ {st : Expansion Role} {res : Except Error (Expansion Role)}
      {tr : List (Event (Asking Role))} {q : Prog (Asking Role) (Except Error (Expansion Role))},
      Listed st → Prog.Path (.ret res) tr q → (st.output ++ Prog.issued tr q).Nodup := by
    intro st res tr q hs hpath
    obtain ⟨rfl, rfl⟩ := hpath.of_ret
    have hissued : Prog.issued [] (Prog.ret (S := Asking Role) res) = [] := rfl
    rw [hissued, List.append_nil]
    exact hs.nodup
  induction st using expandLoop.induct h.asking generalizing tr with
  | case1 st hst =>
    rw [expandLoop_done hst] at hpath
    exact hends hs hpath
  | case2 st current depth parent iter stack hst hdeep =>
    rw [expandLoop_parent hst, if_pos hdeep] at hpath
    exact hends hs hpath
  | case3 st current depth parent iter stack hst hdeep hvisiting =>
    rw [expandLoop_parent hst, if_neg hdeep, if_pos hvisiting] at hpath
    exact hends hs hpath
  | case4 st current depth parent iter stack hst hdeep hvisiting hvisited ih =>
    rw [expandLoop_parent hst, if_neg hdeep, if_neg hvisiting, if_pos hvisited] at hpath
    exact ih ⟨hs.nodup, hs.met⟩ hpath
  | case5 st current depth parent iter stack hst hdeep hvisiting hvisited ih =>
    rw [expandLoop_parent hst, if_neg hdeep, if_neg hvisiting, if_neg hvisited,
      Fallible.run_bind] at hpath
    have hparent : parent ∉ st.output := hs.not_mem hvisiting hvisited
    -- the loop waits for the answer, has failed on it, or goes on with it
    cases hpath with
    | refl => exact hs.nodup_snoc hparent
    | step answer hpath =>
      cases answer with
      | error e =>
        obtain ⟨rfl, rfl⟩ := hpath.of_ret
        exact hs.nodup_snoc hparent
      | ok parents =>
        have hrest := ih parents (hs.push hparent) hpath
        rw [List.append_assoc] at hrest
        rw [Prog.issued_cons]
        exact hrest
  | case6 st current depth stack hst ih =>
    rw [expandLoop_pop hst] at hpath
    exact ih hs.pop hpath

/-- An expansion asks about no role twice. -/
theorem nodup_issued (h : RoleHierarchy S Role) (root : Role) {tr : List (Event (Asking Role))}
    {q : Prog (Asking Role) (Except Error (List Role))}
    (hpath : Prog.Path (expandRoles h.asking root).run tr q) : (Prog.issued tr q).Nodup := by
  -- the root is asked about first; it is the first of the listed roles
  rw [expandRoles_eq, Fallible.run_bind] at hpath
  cases hpath with
  | refl => exact List.nodup_singleton root
  | step answer hpath =>
    cases answer with
    | error e =>
      obtain ⟨rfl, rfl⟩ := hpath.of_ret
      exact List.nodup_singleton root
    | ok parents =>
      change Prog.Path (expandLoop h.asking (Expansion.start root parents) >>=
        fun st => pure st.output).run _ q at hpath
      rw [Fallible.run_bind] at hpath
      have hret : ∀ res : Except Error (Expansion Role), ∃ res',
          Fallible.andThen (S := Asking Role) (fun st => pure st.output) res = .ret res' := by
        intro res
        cases res with
        | ok st => exact ⟨.ok st.output, rfl⟩
        | error e => exact ⟨.error e, rfl⟩
      -- what comes after the loop performs nothing
      obtain ⟨q', hloop, hissued⟩ := hpath.issued_bind hret
      have hnodup := nodup_issued_loop h _ (listed_start root parents) hloop
      rw [Prog.issued_cons, ← hissued]
      exact hnodup

/-! ## The result -/

/-- Whatever the parents are, the loop ends after finitely many iterations, and
no run of it goes on forever even if the reads change their answers. All the
while each frame is as deep as its place in the stack and within the bound, and
the expansion only asks for the parents of roles, at most once for each. -/
theorem expansion_terminates (h : RoleHierarchy S Role) (root : Role) :
    (∀ (env : (op : S.Op) → S.Resp op) (st : Expansion Role), ∃ n tr,
      Prog.AnsweredBy env tr ∧
        Loop.Run (iteration h) n st tr ((expandLoop h st).run.eval env)) ∧
    (¬ ∃ run : ℕ → Expansion Role, ∀ n, Loop.Next (iteration h) (run n) (run (n + 1))) ∧
    (∀ parents n tr st, Loop.Iterates (iteration h) n (Expansion.start root parents) tr st →
      ∀ (i : ℕ) (f : Frame Role), st.stack.reverse[i]? = some f →
        f.depth = i ∧ f.depth ≤ h.maxDepth ∧
          ∀ usizeMax, h.maxDepth < usizeMax → f.depth + 1 ≤ usizeMax) ∧
    (expandRoles h root).run =
      (expandRoles h.asking root).run.subst (fun r => (h.parentRoles r).run) ∧
    ∀ tr q, Prog.Path (expandRoles h.asking root).run tr q → (Prog.issued tr q).Nodup := by
  refine ⟨?_, Loop.not_forever (wellFounded_next h), ?_, expandRoles_asking h root, ?_⟩
  · intro env st
    exact Loop.exists_run (expandLoop_eq_loop h) ((wellFounded_next h).apply st) env
  · intro parents n tr st hrun i f hf
    obtain ⟨hdepth, hle⟩ := (stacked_of_iterates hrun).get hf
    refine ⟨hdepth, hle, ?_⟩
    intro usizeMax hmax
    omega
  · intro tr q hpath
    exact nodup_issued h root hpath

end RsTenant
