import RsTenant.Lib.Pool

/-! # One part of a pool

Programs over `S.sum T` act on two things side by side. Whoever looks at the
first of them only sees a pool of programs over `S`: a turn at which something
is done to the second is no turn there. `Pool.run_project` makes a run of that
pool from any run of the whole.
-/

namespace Interact

variable {S T : Sig} {σ τ α β : Type}

/-- Two handlers side by side, each with its own part of the state. -/
def Handler.beside (h : Handler S σ) (h' : Handler T τ) : Handler (S.sum T) (σ × τ)
  | .inl op, s => ((h op s.1).1, (h op s.1).2, s.2)
  | .inr op, s => ((h' op s.2).1, s.1, (h' op s.2).2)

/-! ## Programs -/

namespace Prog

/-- Operations on the second part. -/
def OnRight : (S.sum T).Op → Prop
  | .inl _ => False
  | .inr _ => True

/-- As far as the program goes, what it does to the first part is what `p`
does. -/
def Shows : Prog (S.sum T) β → Prog S α → Prop
  | .ret _, _ => True
  | .call (.inl op) k, p => ∃ k', p = .call op k' ∧ ∀ r, (k r).Shows (k' r)
  | .call (.inr _) k, p => ∀ r, (k r).Shows p

/-- A program on the first part shows itself, and then whatever comes after. -/
theorem Shows.left_bind {γ : Type} (p : Prog S α) {f : α → Prog (S.sum T) β} {g : α → Prog S γ}
    (h : ∀ a, (f a).Shows (g a)) : (p.left >>= f).Shows (p >>= g) := by
  induction p with
  | ret a => exact h a
  | call op k ih => exact ⟨fun r => k r >>= g, rfl, ih⟩

end Prog

/-! ## Histories -/

/-- An occurrence on the first part, as it looks from there. -/
def Occ.first : Occ (S.sum T) (σ × τ) → Option (Occ S σ)
  | ⟨i, s, ⟨.inl op, r⟩⟩ => some ⟨i, s.1, ⟨op, r⟩⟩
  | ⟨_, _, ⟨.inr _, _⟩⟩ => none

/-- What was done to the first part. -/
def firstHist (l : List (Occ (S.sum T) (σ × τ))) : List (Occ S σ) := l.filterMap Occ.first

/-- An event on the first part. -/
def Event.first : Event (S.sum T) → Option (Event S)
  | ⟨.inl op, r⟩ => some ⟨op, r⟩
  | ⟨.inr _, _⟩ => none

theorem trail_firstHist (i : ℕ) (l : List (Occ (S.sum T) (σ × τ))) :
    trail i (firstHist l) = (trail i l).filterMap Event.first := by
  induction l with
  | nil => rfl
  | cons o l ih =>
    obtain ⟨j, s, op, r⟩ := o
    cases op with
    | inl op =>
      show trail i (⟨j, s.1, ⟨op, r⟩⟩ :: firstHist l) = _
      by_cases hj : j = i
      · subst hj
        rw [trail_cons_self ⟨j, s.1, ⟨op, r⟩⟩, trail_cons_self (S := S.sum T) ⟨j, s, ⟨.inl op, r⟩⟩, ih]
        rfl
      · rw [trail_cons_other (by exact hj), trail_cons_other (by exact hj), ih]
    | inr op =>
      show trail i (firstHist l) = _
      by_cases hj : j = i
      · subst hj
        rw [trail_cons_self (S := S.sum T) ⟨j, s, ⟨.inr op, r⟩⟩, ih]
        rfl
      · rw [trail_cons_other (by exact hj), ih]

theorem filterMap_first_left (tr : List (Event S)) :
    (tr.map (Event.left (T := T))).filterMap Event.first = tr := by
  induction tr with
  | nil => rfl
  | cons ev tr ih =>
    show ev :: (tr.map (Event.left (T := T))).filterMap Event.first = _
    rw [ih]

/-! ## Runs -/

/-- `d` is what can be seen of `c` from the first part. -/
structure Pool.ShowsPool (c : Pool (S.sum T) (σ × τ) β) (d : Pool S σ α) : Prop where
  shared : c.shared.1 = d.shared
  threads : ∀ i, (c.threads i).Shows (d.threads i)
  hist : firstHist c.hist = d.hist

namespace Pool

variable {c : Pool (S.sum T) (σ × τ) β} {d : Pool S σ α}

/-- A turn in the whole is a turn in the part, or none. -/
theorem ShowsPool.step (hcd : c.ShowsPool d) (h : Handler S σ) (h' : Handler T τ) (i : ℕ) :
    (c.step (h.beside h') i).ShowsPool d ∨ (c.step (h.beside h') i).ShowsPool (d.step h i) := by
  have hi := hcd.threads i
  rcases c.step_cases (h.beside h') i with ⟨b, -, hc⟩ | ⟨op, k, hthread, hc⟩
  · rw [hc]
    exact .inl hcd
  · rw [hthread] at hi
    rw [hc]
    cases op with
    | inr op =>
      -- the second part has changed, and thread `i` has still to do what it had
      refine .inl ⟨hcd.shared, fun j => ?_, ?_⟩
      · by_cases hj : j = i
        · subst hj
          simp only [Function.update_self]
          exact hi _
        · simp only [Function.update_of_ne hj]
          exact hcd.threads j
      · show firstHist (c.hist ++ [⟨i, c.shared, ⟨.inr op, _⟩⟩]) = _
        unfold firstHist
        rw [List.filterMap_append]
        exact (List.append_nil _).trans hcd.hist
    | inl op =>
      obtain ⟨k', hp, hk⟩ := hi
      rw [Pool.step_of_call h hp, ← hcd.shared]
      refine .inr ⟨rfl, fun j => ?_, ?_⟩
      · by_cases hj : j = i
        · subst hj
          simp only [Function.update_self]
          exact hk _
        · simp only [Function.update_of_ne hj]
          exact hcd.threads j
      · show firstHist (c.hist ++ [⟨i, c.shared, ⟨.inl op, _⟩⟩]) = _
        unfold firstHist
        rw [List.filterMap_append]
        exact congrArg (· ++ _) hcd.hist

/-- The part runs on a schedule of its own. -/
theorem run_project (hcd : c.ShowsPool d) (h : Handler S σ) (h' : Handler T τ)
    (sched : List ℕ) :
    ∃ sched', sched'.Sublist sched ∧ (c.run (h.beside h') sched).ShowsPool (d.run h sched') := by
  induction sched generalizing c d with
  | nil => exact ⟨[], .slnil, hcd⟩
  | cons i sched ih =>
    rcases hcd.step h h' i with hstep | hstep
    · obtain ⟨sched', hsub, hshows⟩ := ih hstep
      exact ⟨sched', hsub.cons i, hshows⟩
    · obtain ⟨sched', hsub, hshows⟩ := ih hstep
      exact ⟨i :: sched', hsub.cons_cons i, hshows⟩

end Pool

end Interact
