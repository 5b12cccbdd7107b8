import Mathlib.Data.List.Basic

/-! # What a history of calls leaves behind

A state that changes by calls, each with any of several outcomes. Much of what
can be seen of such a state is of one of three kinds: a register that a call may
write, a log that a call may append to, or a set that a call may add to. After
any run a register has what was written last, a log what was appended in order,
and a set what was added.
-/

namespace History

variable {σ γ V : Type} {Step : σ → γ → σ → Prop}

/-- A run of calls. -/
inductive Runs (Step : σ → γ → σ → Prop) : σ → List γ → σ → Prop
  | nil (s : σ) : Runs Step s [] s
  | cons {s s₁ s' : σ} {call : γ} {calls : List γ} :
      Step s call s₁ → Runs Step s₁ calls s' → Runs Step s (call :: calls) s'

/-- What the calls write last into a register, or else `start`. -/
def written (write : γ → Option V) (calls : List γ) (start : V) : V :=
  (calls.filterMap write).getLast?.getD start

@[simp] theorem written_nil (write : γ → Option V) (start : V) : written write [] start = start := rfl

theorem written_cons (write : γ → Option V) (call : γ) (calls : List γ) (start : V) :
    written write (call :: calls) start = written write calls ((write call).getD start) := by
  unfold written
  cases hwrite : write call with
  | none => rw [List.filterMap_cons_none hwrite, Option.getD_none]
  | some v =>
    rw [List.filterMap_cons_some hwrite, List.getLast?_cons, Option.getD_some, Option.getD_some]

/-- A register that each call writes or leaves alone. -/
theorem Runs.register {get : σ → V} {write : γ → Option V}
    (hstep : ∀ s call s', Step s call s' → get s' = (write call).getD (get s)) {s s' : σ}
    {calls : List γ} (h : Runs Step s calls s') : get s' = written write calls (get s) := by
  induction h with
  | nil s => rfl
  | cons hcall _ ih => rw [ih, hstep _ _ _ hcall, written_cons]

/-- A log that each call appends to or leaves alone. -/
theorem Runs.log {get : σ → List V} {append : γ → Option V}
    (hstep : ∀ s call s', Step s call s' → get s' = get s ++ (append call).toList) {s s' : σ}
    {calls : List γ} (h : Runs Step s calls s') : get s' = get s ++ calls.filterMap append := by
  induction h with
  | nil s => exact (List.append_nil _).symm
  | @cons _ _ _ call calls hcall _ ih =>
    rw [ih, hstep _ _ _ hcall, List.append_assoc]
    cases happend : append call with
    | none => rw [List.filterMap_cons_none happend, Option.toList_none, List.nil_append]
    | some v => rw [List.filterMap_cons_some happend, Option.toList_some, List.singleton_append]

/-- A set that each call adds to or leaves alone. -/
theorem Runs.grown {mem : σ → V → Prop} {adds : γ → V → Prop}
    (hstep : ∀ s call s', Step s call s' → ∀ x, mem s' x ↔ mem s x ∨ adds call x) {s s' : σ}
    {calls : List γ} (h : Runs Step s calls s') (x : V) :
    mem s' x ↔ mem s x ∨ ∃ call ∈ calls, adds call x := by
  induction h with
  | nil s => simp
  | cons hcall _ ih =>
    rw [ih, hstep _ _ _ hcall, List.exists_mem_cons_iff, or_assoc]

end History
