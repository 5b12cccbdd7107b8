import RsTenant.Lib.Pool

/-! # Operations that take effect at one step

`Prog.subst` implements the operations of a program by programs over other
operations, and between two steps of an implementation the other threads take
their turns. If each implementation has one step at which it does what its
operation does (`Prog.Pending`) and only silent steps before and after it, then
the pool of implementations refines the pool of the programs themselves: leave
the silent turns out, and every run becomes one of those (`Pool.Refines.run`).
-/

namespace Interact

variable {S T : Sig} {σ τ α ρ : Type}

section Points

variable (hS : Handler S σ) (hT : Handler T τ) (R : σ → τ → Prop) (silent : Event S → Bool)

/-- The rest of an implementation that has taken effect: silent steps, and then
it returns `r`. -/
def Prog.Settled (r : ρ) : Prog S ρ → Prop
  | .ret r' => r' = r
  | .call o k => ∀ s t, R s t →
      silent ⟨o, (hS o s).1⟩ = true ∧ R (hS o s).2 t ∧ (k (hS o s).1).Settled r

/-- The rest of an implementation of `op` that has not taken effect yet: silent
steps, and then one that does what `op` does. -/
def Prog.Pending (op : T.Op) : Prog S (T.Resp op) → Prop
  | .ret _ => False
  | .call o k => ∀ s t, R s t →
      (silent ⟨o, (hS o s).1⟩ = true ∧ R (hS o s).2 t ∧ (k (hS o s).1).Pending op) ∨
      (silent ⟨o, (hS o s).1⟩ = false ∧ R (hS o s).2 (hT op t).2 ∧
        (k (hS o s).1).Settled hS R silent (hT op t).1)

/-- A thread of implementations next to the thread it implements: in the middle
of an operation, before or after the step that counts. -/
inductive Follows (impl : (op : T.Op) → Prog S (T.Resp op)) : Prog S α → Prog T α → Prop
  | pending {op : T.Op} {k : T.Resp op → Prog T α} {p : Prog S (T.Resp op)}
      (h : p.Pending hS hT R silent op) :
      Follows impl (p >>= fun r => (k r).subst impl) (.call op k)
  | settled {ρ : Type} {r : ρ} {k : ρ → Prog T α} {p : Prog S ρ} (h : p.Settled hS R silent r) :
      Follows impl (p >>= fun r => (k r).subst impl) (k r)

/-- A pool of implementations next to the pool that it implements. -/
structure Pool.Refines (impl : (op : T.Op) → Prog S (T.Resp op)) (c : Pool S σ α)
    (a : Pool T τ α) : Prop where
  shared : R c.shared a.shared
  threads : ∀ i, Follows hS hT R silent impl (c.threads i) (a.threads i)

end Points

/-- The threads whose turns were not silent, in the order of these turns. -/
def points (silent : Event S → Bool) (l : List (Occ S σ)) : List ℕ :=
  (l.filter fun o => !silent o.event).map Occ.thread

theorem points_append (silent : Event S → Bool) (l l' : List (Occ S σ)) :
    points silent (l ++ l') = points silent l ++ points silent l' := by
  simp [points]

variable {hS : Handler S σ} {hT : Handler T τ} {R : σ → τ → Prop} {silent : Event S → Bool}
  {impl : (op : T.Op) → Prog S (T.Resp op)}

variable (himpl : ∀ op, (impl op).Pending hS hT R silent op)

/-- A pending implementation has not returned. -/
theorem Prog.Pending.ne_ret {op : T.Op} {p : Prog S (T.Resp op)}
    (h : p.Pending hS hT R silent op) : ∃ o k, p = .call o k := by
  cases p with
  | ret r => exact absurd h id
  | call o k => exact ⟨o, k, rfl⟩

include himpl in
/-- A thread that has returned has returned the same as the thread it
implements. -/
theorem Follows.of_ret {a : α} {q : Prog T α} (h : Follows hS hT R silent impl (.ret a) q) :
    q = .ret a := by
  generalize hp : (Prog.ret a : Prog S α) = p' at h
  cases h with
  | @pending op k p h =>
    obtain ⟨o, c, rfl⟩ := h.ne_ret
    cases hp
  | @settled ρ r k p h =>
    cases p with
    | call o c => cases hp
    | ret r' =>
      have hr : r' = r := h
      subst hr
      have hret : Prog.ret a = (k r').subst impl := hp
      cases hk : k r' with
      | ret a' =>
        rw [hk] at hret
        cases hret
        rfl
      | call op c =>
        obtain ⟨o, c', hop⟩ := (himpl op).ne_ret
        rw [hk] at hret
        have hcall : Prog.ret a = (impl op >>= fun r => (c r).subst impl) := hret
        rw [hop] at hcall
        cases hcall

/-- A step within an operation that has not taken effect. -/
theorem Follows.step_pending {op : T.Op} {k : T.Resp op → Prog T α} {o : S.Op}
    {c : S.Resp o → Prog S (T.Resp op)} (h : (Prog.call o c).Pending hS hT R silent op) {s : σ}
    {t : τ} (hst : R s t) :
    (silent ⟨o, (hS o s).1⟩ = true ∧ R (hS o s).2 t ∧
      Follows hS hT R silent impl (c (hS o s).1 >>= fun r => (k r).subst impl) (.call op k)) ∨
    (silent ⟨o, (hS o s).1⟩ = false ∧ R (hS o s).2 (hT op t).2 ∧
      Follows hS hT R silent impl (c (hS o s).1 >>= fun r => (k r).subst impl)
        (k (hT op t).1)) := by
  rcases h s t hst with ⟨hsilent, hR, hrest⟩ | ⟨hpoint, hR, hrest⟩
  · exact .inl ⟨hsilent, hR, .pending hrest⟩
  · exact .inr ⟨hpoint, hR, .settled hrest⟩

include himpl in
/-- A step of a thread: either it is silent, or the thread that it implements
takes its step too. -/
theorem Follows.step {o : S.Op} {c : S.Resp o → Prog S α} {q : Prog T α}
    (h : Follows hS hT R silent impl (.call o c) q) {s : σ} {t : τ} (hst : R s t) :
    (silent ⟨o, (hS o s).1⟩ = true ∧ R (hS o s).2 t ∧
      Follows hS hT R silent impl (c (hS o s).1) q) ∨
    ∃ op k, q = .call op k ∧ silent ⟨o, (hS o s).1⟩ = false ∧ R (hS o s).2 (hT op t).2 ∧
      Follows hS hT R silent impl (c (hS o s).1) (k (hT op t).1) := by
  generalize hp : Prog.call o c = p' at h
  cases h with
  | @pending op k p h =>
    obtain ⟨o', c', rfl⟩ := h.ne_ret
    cases hp
    rcases Follows.step_pending h hst with hsilent | hpoint
    · exact .inl hsilent
    · exact .inr ⟨op, k, rfl, hpoint⟩
  | @settled ρ r k p h =>
    cases p with
    | call o' c' =>
      cases hp
      obtain ⟨hsilent, hR, hrest⟩ := h s t hst
      exact .inl ⟨hsilent, hR, .settled hrest⟩
    | ret r' =>
      have hr : r' = r := h
      subst hr
      have hcall : Prog.call o c = (k r').subst impl := hp
      -- the next operation starts with this step
      cases hk : k r' with
      | ret a =>
        rw [hk] at hcall
        cases hcall
      | call op c₁ =>
        rw [hk] at hcall
        have hstart : Prog.call o c = (impl op >>= fun r => (c₁ r).subst impl) := hcall
        have hpending := himpl op
        obtain ⟨o', c', hop⟩ := hpending.ne_ret
        rw [hop] at hstart hpending
        cases hstart
        rcases Follows.step_pending hpending hst with hsilent | hpoint
        · exact .inl hsilent
        · exact .inr ⟨op, c₁, rfl, hpoint⟩

namespace Pool.Refines

variable {c : Pool S σ α} {a : Pool T τ α}

/-- One thread of each pool moves on. -/
theorem update (h : c.Refines hS hT R silent impl a) (i : ℕ) {s : σ} {t : τ} {p : Prog S α}
    {q : Prog T α} (hst : R s t) (hpq : Follows hS hT R silent impl p q)
    (hist : List (Occ S σ)) (hist' : List (Occ T τ)) :
    Pool.Refines hS hT R silent impl ⟨s, Function.update c.threads i p, hist⟩
      ⟨t, Function.update a.threads i q, hist'⟩ := by
  refine ⟨hst, fun j => ?_⟩
  by_cases hj : j = i
  · subst hj
    simpa using hpq
  · simpa [Function.update_of_ne hj] using h.threads j

include himpl in
/-- One turn. -/
theorem step (h : c.Refines hS hT R silent impl a) (i : ℕ) :
    ∃ new, (c.step hS i).hist = c.hist ++ new ∧
      (c.step hS i).Refines hS hT R silent impl (a.run hT (points silent new)) := by
  rcases c.step_cases hS i with ⟨v, -, hc⟩ | ⟨o, k, hi, hc⟩
  · -- a thread that has returned does nothing with its turn
    refine ⟨[], ?_, ?_⟩
    · rw [hc, List.append_nil]
    · rw [hc]
      exact h
  · have hfollows := h.threads i
    rw [hi] at hfollows
    rw [hc]
    refine ⟨[⟨i, c.shared, ⟨o, (hS o c.shared).1⟩⟩], rfl, ?_⟩
    rcases hfollows.step himpl h.shared with ⟨hsilent, hR, hrest⟩ | ⟨op, k', hq, hpoint, hR, hrest⟩
    · have hnone : points silent [(⟨i, c.shared, ⟨o, (hS o c.shared).1⟩⟩ : Occ S σ)] = [] := by
        simp [points, hsilent]
      have hkept := h.update i hR hrest (c.hist ++ [⟨i, c.shared, ⟨o, (hS o c.shared).1⟩⟩]) a.hist
      rw [Function.update_eq_self] at hkept
      rw [hnone]
      exact hkept
    · have hone : points silent [(⟨i, c.shared, ⟨o, (hS o c.shared).1⟩⟩ : Occ S σ)] = [i] := by
        simp [points, hpoint]
      rw [hone, Pool.run_cons, Pool.run_nil, Pool.step_of_call hT hq]
      exact h.update i hR hrest _ _

include himpl in
/-- Any run. -/
theorem run (h : c.Refines hS hT R silent impl a) (sched : List ℕ) :
    ∃ new, (c.run hS sched).hist = c.hist ++ new ∧
      (c.run hS sched).Refines hS hT R silent impl (a.run hT (points silent new)) := by
  induction sched generalizing c a with
  | nil => exact ⟨[], (List.append_nil _).symm, h⟩
  | cons i sched ih =>
    obtain ⟨new₁, hhist₁, hstep⟩ := h.step himpl i
    obtain ⟨new₂, hhist₂, hrun⟩ := ih hstep
    refine ⟨new₁ ++ new₂, ?_, ?_⟩
    · rw [Pool.run_cons, hhist₂, hhist₁, List.append_assoc]
    · rw [points_append, Pool.run_append]
      exact hrun

end Pool.Refines

end Interact
