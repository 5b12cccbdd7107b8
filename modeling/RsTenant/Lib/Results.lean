import Mathlib.Logic.Basic

/-! # Results

When a computation that can fail has succeeded, so have its parts.
-/

namespace Results

universe u v w

variable {ε : Type u} {α β : Type v}

/-- A sequence succeeds when both parts do. -/
theorem bind_eq_ok {x : Except ε α} {f : α → Except ε β} {b : β} :
    (x >>= f) = .ok b ↔ ∃ a, x = .ok a ∧ f a = .ok b := by
  cases x with
  | error e =>
    constructor
    · intro h
      cases h
    · rintro ⟨a, ha, -⟩
      cases ha
  | ok a =>
    constructor
    · intro h
      exact ⟨a, rfl, h⟩
    · rintro ⟨a', ha, h⟩
      cases ha
      exact h

/-- A mapped result succeeds when the result does. -/
theorem map_eq_ok {x : Except ε α} {f : α → β} {b : β} :
    x.map f = .ok b ↔ ∃ a, x = .ok a ∧ f a = b := by
  cases x with
  | error e =>
    constructor
    · intro h
      cases h
    · rintro ⟨a, ha, -⟩
      cases ha
  | ok a =>
    constructor
    · intro h
      exact ⟨a, rfl, Except.ok.inj h⟩
    · rintro ⟨a', ha, rfl⟩
      cases ha
      rfl

theorem exists_map_eq_ok {x : Except ε α} {f : α → β} :
    (∃ b, x.map f = .ok b) ↔ ∃ a, x = .ok a := by
  constructor
  · rintro ⟨b, hb⟩
    rcases map_eq_ok.mp hb with ⟨a, ha, -⟩
    exact ⟨a, ha⟩
  · rintro ⟨a, ha⟩
    exact ⟨f a, map_eq_ok.mpr ⟨a, ha, rfl⟩⟩

/-- Mapping the error leaves the successes as they are. -/
theorem mapError_eq_ok {ε' : Type w} {x : Except ε α} {f : ε → ε'} {a : α} :
    x.mapError f = .ok a ↔ x = .ok a := by
  cases x with
  | error e =>
    constructor
    all_goals
      intro h
      cases h
  | ok a' =>
    constructor
    all_goals
      intro h
      cases h
      rfl

/-- The elements of a list that was read. -/
theorem mem_iff_of_ok {x : Except ε (List α)} {as : List α} (h : x = .ok as) (a : α) :
    a ∈ as ↔ ∃ as', x = .ok as' ∧ a ∈ as' := by
  constructor
  · intro ha
    exact ⟨as, h, ha⟩
  · rintro ⟨as', has', ha⟩
    rwa [Except.ok.inj (h.symm.trans has')]

end Results
