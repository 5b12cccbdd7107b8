import Mathlib.Data.Finset.Card
import Mathlib.Data.Finset.Insert
import Mathlib.Logic.Function.Basic

/-! # Finite maps

A hash map up to its iteration order: which value each key has, and the finite
set of keys that have one.
-/

/-- A finite map from `κ` to `β`. -/
structure HashMap (κ β : Type) [DecidableEq κ] where
  get : κ → Option β
  keys : Finset κ
  mem_keys : ∀ k, k ∈ keys ↔ (get k).isSome

namespace HashMap

variable {κ β : Type} [DecidableEq κ]

/-- A map is determined by its lookups. -/
@[ext] theorem ext {m m' : HashMap κ β} (h : ∀ k, m.get k = m'.get k) : m = m' := by
  have hget : m.get = m'.get := funext h
  have hkeys : m.keys = m'.keys := by
    ext k
    rw [m.mem_keys, m'.mem_keys, hget]
  cases m
  cases m'
  cases hget
  cases hkeys
  rfl

/-- The map without entries. -/
def empty : HashMap κ β := ⟨fun _ => none, ∅, by simp⟩

instance : Inhabited (HashMap κ β) := ⟨empty⟩

/-- The key has a value. -/
def containsKey (m : HashMap κ β) (k : κ) : Bool := (m.get k).isSome

/-- How many keys have a value. -/
def len (m : HashMap κ β) : ℕ := m.keys.card

/-- Set the value of a key, replacing the one it had. -/
def insert (m : HashMap κ β) (k : κ) (v : β) : HashMap κ β where
  get := Function.update m.get k (some v)
  keys := Insert.insert k m.keys
  mem_keys k' := by
    by_cases h : k' = k
    · simp [h]
    · simp [h, m.mem_keys]

/-- Take the value of a key away. -/
def remove (m : HashMap κ β) (k : κ) : HashMap κ β where
  get := Function.update m.get k none
  keys := m.keys.erase k
  mem_keys k' := by
    by_cases h : k' = k
    · simp [h]
    · simp [h, m.mem_keys]

/-- Keep the entries that satisfy `p`. -/
def retain (m : HashMap κ β) (p : κ → β → Bool) : HashMap κ β where
  get k := (m.get k).filter (p k)
  keys := m.keys.filter fun k => ((m.get k).filter (p k)).isSome
  mem_keys k := by
    rw [Finset.mem_filter, m.mem_keys]
    cases m.get k <;> simp

@[simp] theorem get_empty (k : κ) : (empty : HashMap κ β).get k = none := rfl

@[simp] theorem len_empty : (empty : HashMap κ β).len = 0 := rfl

/-- A key that was set has the value that it was set to. -/
@[simp] theorem get_insert_self (m : HashMap κ β) (k : κ) (v : β) :
    (m.insert k v).get k = some v := by
  simp [insert]

/-- Setting one key leaves the others as they are. -/
@[simp] theorem get_insert_ne (m : HashMap κ β) {k k' : κ} (v : β) (h : k' ≠ k) :
    (m.insert k v).get k' = m.get k' := by
  simp [insert, h]

@[simp] theorem get_remove_self (m : HashMap κ β) (k : κ) : (m.remove k).get k = none := by
  simp [remove]

/-- Removing one key leaves the others as they are. -/
@[simp] theorem get_remove_ne (m : HashMap κ β) {k k' : κ} (h : k' ≠ k) :
    (m.remove k).get k' = m.get k' := by
  simp [remove, h]

@[simp] theorem get_retain (m : HashMap κ β) (p : κ → β → Bool) (k : κ) :
    (m.retain p).get k = (m.get k).filter (p k) := rfl

@[simp] theorem containsKey_iff (m : HashMap κ β) (k : κ) :
    m.containsKey k = true ↔ ∃ v, m.get k = some v := by
  simp [containsKey, Option.isSome_iff_exists]

/-- What is kept was there and satisfies the predicate. -/
theorem get_of_retain {m : HashMap κ β} {p : κ → β → Bool} {k : κ} {v : β}
    (h : (m.retain p).get k = some v) : m.get k = some v ∧ p k v := by
  simpa [Option.filter_eq_some_iff] using h

/-- A map whose entries are all entries of another one has no more of them. -/
theorem len_le {m m' : HashMap κ β} (h : ∀ k v, m.get k = some v → m'.get k = some v) :
    m.len ≤ m'.len := by
  apply Finset.card_le_card
  intro k hk
  rw [m.mem_keys] at hk
  rw [m'.mem_keys]
  rcases Option.isSome_iff_exists.mp hk with ⟨v, hv⟩
  rw [h k v hv]
  rfl

/-! ## Maps of maps -/

section Nested

variable {μ : Type} [DecidableEq μ]

/-- The value of a key, `empty` when it has none (`entry(k).or_default()`). -/
def orEmpty (m : HashMap μ (HashMap κ β)) (k : μ) : HashMap κ β := (m.get k).getD empty

/-- The value under two keys. -/
def get₂ (m : HashMap μ (HashMap κ β)) (k : μ) (l : κ) : Option β := (m.get k).bind fun n => n.get l

/-- Set the value under two keys. -/
def insert₂ (m : HashMap μ (HashMap κ β)) (k : μ) (l : κ) (v : β) : HashMap μ (HashMap κ β) :=
  m.insert k ((m.orEmpty k).insert l v)

/-- The two keys that were set have the new value. -/
@[simp] theorem get₂_insert₂_self (m : HashMap μ (HashMap κ β)) (k : μ) (l : κ) (v : β) :
    (m.insert₂ k l v).get₂ k l = some v := by
  unfold insert₂ get₂
  rw [get_insert_self, Option.bind_some, get_insert_self]

/-- Any other pair of keys has the value that it had. -/
theorem get₂_insert₂_ne (m : HashMap μ (HashMap κ β)) {k k' : μ} {l l' : κ} (v : β)
    (h : ¬ (k' = k ∧ l' = l)) : (m.insert₂ k l v).get₂ k' l' = m.get₂ k' l' := by
  unfold insert₂ get₂
  by_cases hk : k' = k
  · subst hk
    have hl : l' ≠ l := fun hl => h ⟨rfl, hl⟩
    rw [get_insert_self, Option.bind_some, get_insert_ne _ _ hl]
    unfold orEmpty
    cases m.get k' <;> rfl
  · rw [get_insert_ne _ _ hk]

end Nested

end HashMap

/-! # Hash sets -/

/-- A hash set, as the order in which it is iterated at the moment. -/
structure HashSet (α : Type) where
  iter : List α
  nodup : iter.Nodup

namespace HashSet

variable {α : Type}

/-- The set without elements. -/
def empty : HashSet α := ⟨[], List.nodup_nil⟩

/-- Inserting `x` into `s` may leave `s'`: nothing happens when `x` is there
already, else the elements may be iterated in any order from then on. -/
def Inserts (s : HashSet α) (x : α) (s' : HashSet α) : Prop :=
  (x ∈ s.iter ∧ s' = s) ∨ (x ∉ s.iter ∧ s'.iter.Perm (x :: s.iter))

/-- Whatever order is left, the elements are the old ones and the new one. -/
theorem Inserts.mem_iff {s s' : HashSet α} {x : α} (h : s.Inserts x s') (y : α) :
    y ∈ s'.iter ↔ y ∈ s.iter ∨ y = x := by
  rcases h with ⟨hx, rfl⟩ | ⟨-, hperm⟩
  · constructor
    · exact .inl
    · rintro (hy | rfl)
      · exact hy
      · exact hx
  · rw [hperm.mem_iff, List.mem_cons, or_comm]

/-- Inserting into the set of a key that may have none yet. -/
theorem Inserts.mem_getD {s : Option (HashSet α)} {s' : HashSet α} {x : α}
    (h : (s.getD empty).Inserts x s') (y : α) :
    y ∈ s'.iter ↔ y ∈ (s.map iter).getD [] ∨ y = x := by
  rw [h.mem_iff]
  cases s <;> rfl

/-- The elements of a set that may be missing are listed once. -/
theorem nodup_getD (s : Option (HashSet α)) : ((s.map iter).getD []).Nodup := by
  cases s with
  | none => exact List.nodup_nil
  | some s => exact s.nodup

end HashSet
