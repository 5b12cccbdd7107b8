import Mathlib.Order.WellFounded
import RsTenant.Lib.Prog

/-! # Loops

The body of a loop takes a state to the next one or leaves the loop, and talks
to its surroundings on the way. A run of the loop is a number of iterations and
a last one that leaves (`Run`). If no state has an endless chain of successors,
then every finished path of the loop is such a run (`exists_run_of_path`), and
against every table of answers there is one (`exists_run`).
-/

namespace Interact

namespace Prog

variable {S : Sig} {α : Type}

/-- The answers in the trace are those of the table. -/
def AnsweredBy (env : (op : S.Op) → S.Resp op) (tr : List (Event S)) : Prop :=
  ∀ ev ∈ tr, ev.resp = env ev.op

/-- A program run against a table takes the path of the table's answers. -/
theorem exists_path_eval (env : (op : S.Op) → S.Resp op) (p : Prog S α) :
    ∃ tr, AnsweredBy env tr ∧ Path p tr (.ret (p.eval env)) := by
  induction p with
  | ret a => exact ⟨[], by simp [AnsweredBy], .refl _⟩
  | call op k ih =>
    obtain ⟨tr, htr, hpath⟩ := ih (env op)
    refine ⟨⟨op, env op⟩ :: tr, ?_, .step (env op) hpath⟩
    unfold AnsweredBy
    rw [List.forall_mem_cons]
    exact ⟨rfl, htr⟩

end Prog

namespace Loop

variable {S : Sig} {ε σ : Type}

section Definitions

variable (body : σ → Fallible S ε (Option σ))

/-- With some answers the body goes on from `s` with `s'`. -/
def Next (s s' : σ) : Prop := ∃ tr, Prog.Path (body s).run tr (.ret (.ok (some s')))

/-- `n` iterations lead from one state to another; the trace is what they have
performed. -/
inductive Iterates : ℕ → σ → List (Event S) → σ → Prop
  | zero (s : σ) : Iterates 0 s [] s
  | succ {n : ℕ} {s s₁ s' : σ} {tr tr' : List (Event S)} :
      Prog.Path (body s).run tr (.ret (.ok (some s₁))) → Iterates n s₁ tr' s' →
      Iterates (n + 1) s (tr ++ tr') s'

/-- The body leaves the loop, at its end or with an error. -/
inductive Leaves (s : σ) : List (Event S) → Except ε σ → Prop
  | done {tr : List (Event S)} :
      Prog.Path (body s).run tr (.ret (.ok none)) → Leaves s tr (.ok s)
  | error {tr : List (Event S)} {e : ε} :
      Prog.Path (body s).run tr (.ret (.error e)) → Leaves s tr (.error e)

/-- A run of the loop that goes on `n` times and then leaves with `res`. -/
def Run (n : ℕ) (s : σ) (tr : List (Event S)) (res : Except ε σ) : Prop :=
  ∃ tr₁ tr₂ s', tr = tr₁ ++ tr₂ ∧ Iterates body n s tr₁ s' ∧ Leaves body s' tr₂ res

end Definitions

variable {body : σ → Fallible S ε (Option σ)}

/-- What one iteration keeps, any number of iterations keeps. -/
theorem Iterates.invariant {I : σ → Prop} (hnext : ∀ s s', I s → Next body s s' → I s') {n : ℕ}
    {s s' : σ} {tr : List (Event S)} (h : Iterates body n s tr s') (hs : I s) : I s' := by
  induction h with
  | zero s => exact hs
  | succ hpath _ ih => exact ih (hnext _ _ hs ⟨_, hpath⟩)

theorem not_forever (hwf : WellFounded fun s' s => Next body s s') :
    ¬ ∃ run : ℕ → σ, ∀ n, Next body (run n) (run (n + 1)) := by
  rintro ⟨run, hrun⟩
  exact (wellFounded_iff_isEmpty_descending_chain.mp hwf).false ⟨run, hrun⟩

section Ends

variable {loop : σ → Fallible S ε σ}
  (hloop : ∀ s, loop s = body s >>= fun next => next.elim (pure s) loop)
include hloop

/-- A finished path of the loop is a number of iterations and a last one. -/
theorem exists_run_of_path {s : σ} (hs : Acc (fun s' s => Next body s s') s)
    {tr : List (Event S)} {res : Except ε σ} (h : Prog.Path (loop s).run tr (.ret res)) :
    ∃ n, Run body n s tr res := by
  induction hs generalizing tr with
  | intro s _ ih =>
    rw [hloop, Fallible.run_bind] at h
    obtain ⟨tr₁, tr₂, out, rfl, hbody, hrest⟩ := Prog.Path.of_bind h
    match out with
    | .error e =>
      obtain ⟨rfl, hres⟩ := hrest.of_ret
      cases hres
      exact ⟨0, [], tr₁, s, by simp, .zero s, .error hbody⟩
    | .ok none =>
      obtain ⟨rfl, hres⟩ := Prog.Path.of_ret (a := Except.ok s) hrest
      cases hres
      exact ⟨0, [], tr₁, s, by simp, .zero s, .done hbody⟩
    | .ok (some s₁) =>
      obtain ⟨n, tr₃, tr₄, s', rfl, hiter, hleaves⟩ := ih s₁ ⟨tr₁, hbody⟩ hrest
      exact ⟨n + 1, tr₁ ++ tr₃, tr₄, s', by simp, .succ hbody hiter, hleaves⟩

/-- Against a table of answers the loop leaves after finitely many iterations,
with the result of the program. -/
theorem exists_run {s : σ} (hs : Acc (fun s' s => Next body s s') s)
    (env : (op : S.Op) → S.Resp op) :
    ∃ n tr, Prog.AnsweredBy env tr ∧ Run body n s tr ((loop s).run.eval env) := by
  obtain ⟨tr, htr, hpath⟩ := Prog.exists_path_eval env (loop s).run
  obtain ⟨n, hrun⟩ := exists_run_of_path hloop hs hpath
  exact ⟨n, tr, htr, hrun⟩

end Ends

end Loop

end Interact
