import Mathlib.Data.List.Nodup

/-! # The order of discovery

A depth-first search asks every vertex that it discovers for its neighbours.
The discovered vertices, each with what it has answered, are all that one needs
to say how the search goes on: among the vertices that have been named and not
discovered yet it takes the first, where the answers of the vertex discovered
last come first and the root comes last of all (`pending`). A search that keeps
a stack has the same list in its stack, next to vertices that it will skip
(`Kept`).
-/

namespace Discovery

variable {α : Type} [DecidableEq α]

/-! ## Vertices that are new -/

/-- The vertices of a list that are not among the known ones. -/
def fresh (known l : List α) : List α := l.filter fun v => v ∉ known

/-- What is new in two lists is new in each of them. -/
theorem fresh_append (known l l' : List α) :
    fresh known (l ++ l') = fresh known l ++ fresh known l' :=
  List.filter_append l l'

theorem fresh_cons_of_mem {known l : List α} {v : α} (h : v ∈ known) :
    fresh known (v :: l) = fresh known l :=
  List.filter_cons_of_neg (by simpa using h)

theorem fresh_cons_of_not_mem {known l : List α} {v : α} (h : v ∉ known) :
    fresh known (v :: l) = v :: fresh known l :=
  List.filter_cons_of_pos (by simpa using h)

/-- The first new one is new. -/
theorem not_mem_of_fresh {known l rest : List α} {v : α} (h : fresh known l = v :: rest) :
    v ∉ known := by
  have hmem : v ∈ fresh known l := h ▸ List.mem_cons_self
  exact of_decide_eq_true (List.mem_filter.mp hmem).2

/-- What was known before does not matter any more. -/
theorem fresh_fresh (known : List α) (v : α) (l : List α) :
    fresh (known ++ [v]) (fresh known l) = fresh (known ++ [v]) l := by
  unfold fresh
  rw [List.filter_filter]
  refine List.filter_congr fun u _ => ?_
  by_cases hu : u ∈ known
  · simp [hu]
  · simp [hu]

/-- A list holds no more new ones than it is long. -/
theorem length_fresh_le (known l : List α) : (fresh known l).length ≤ l.length :=
  List.length_filter_le _ l

/-! ## Discovery -/

/-- What has been named and not discovered yet, in the order of the search. -/
def pending (root : α) (found : List (α × List α)) : List α :=
  fresh (found.map Prod.fst) (found.reverse.flatMap Prod.snd ++ [root])

/-- What a search from `root` may have discovered, with the answers. -/
inductive Discovers (root : α) : List (α × List α) → Prop
  | start : Discovers root []
  | next {found : List (α × List α)} {v : α} {rest : List α} (h : Discovers root found)
      (hnext : pending root found = v :: rest) (named : List α) :
      Discovers root (found ++ [(v, named)])

/-- What a search from `root` has discovered when it has nowhere to go on. -/
structure Finished (root : α) (found : List (α × List α)) : Prop where
  discovers : Discovers root found
  nothing : pending root found = []

variable {root v : α} {found : List (α × List α)} {rest todo : List α}

/-- A search begins with its root. -/
theorem pending_start (root : α) : pending root [] = [root] := rfl

/-- The new answers are looked at first, and the vertex itself never again. -/
theorem pending_next (root : α) (found : List (α × List α)) (v : α) (named : List α) :
    pending root (found ++ [(v, named)]) =
      fresh (found.map Prod.fst ++ [v]) (named ++ pending root found) := by
  have hfound : ((found ++ [(v, named)]).reverse.flatMap Prod.snd : List α) =
      named ++ found.reverse.flatMap Prod.snd := by
    rw [List.reverse_append, List.reverse_singleton, List.singleton_append, List.flatMap_cons]
  unfold pending
  rw [hfound, List.map_append, List.map_singleton, List.append_assoc, fresh_append,
    fresh_append _ named, fresh_fresh]

/-- Nobody is discovered twice. -/
theorem Discovers.nodup (h : Discovers root found) : (found.map Prod.fst).Nodup := by
  induction h with
  | start => exact List.nodup_nil
  | next _ hnext named ih =>
    rw [List.map_append, List.nodup_append]
    refine ⟨ih, List.nodup_singleton _, ?_⟩
    intro u hu w hw heq
    rw [List.map_singleton, List.mem_singleton] at hw
    rw [heq, hw] at hu
    exact not_mem_of_fresh hnext hu

/-- Every search can come to an end: from now on nobody names anybody. -/
theorem Discovers.exists_finished (h : Discovers root found) :
    ∃ more, Finished root (found ++ more) := by
  generalize hn : (pending root found).length = n
  -- each of the pending vertices that is asked makes the list shorter
  induction n using Nat.strongRecOn generalizing found with
  | _ n ih =>
    cases hpending : pending root found with
    | nil => exact ⟨[], (List.append_nil found).symm ▸ ⟨h, hpending⟩⟩
    | cons v rest =>
      have hshorter : (pending root (found ++ [(v, [])])).length < n := by
        have hv : v ∈ found.map Prod.fst ++ [v] := List.mem_append_right _ List.mem_cons_self
        rw [pending_next, List.nil_append, hpending, fresh_cons_of_mem hv]
        rw [hpending, List.length_cons] at hn
        have hle := length_fresh_le (found.map Prod.fst ++ [v]) rest
        omega
      obtain ⟨more, hmore⟩ := ih _ hshorter (h.next hpending []) rfl
      rw [List.append_assoc] at hmore
      exact ⟨(v, []) :: more, hmore⟩

/-- A root that names nobody is found alone. -/
theorem finished_alone (root : α) : Finished root [(root, [])] where
  discovers := Discovers.start.next (pending_start root) []
  nothing := fresh_cons_of_mem List.mem_cons_self

/-! ## A search with a stack -/

/-- The stack `todo` has the pending vertices in it, and some to be skipped. -/
def Kept (root : α) (found : List (α × List α)) (todo : List α) : Prop :=
  pending root found = fresh (found.map Prod.fst) todo

/-- Before anything is discovered the root is to be looked at. -/
theorem kept_start (root : α) : Kept root [] [root] := rfl

/-- One that has been discovered can be taken off the list. -/
theorem Kept.skip (h : Kept root found (v :: todo)) (hv : v ∈ found.map Prod.fst) :
    Kept root found todo :=
  Eq.trans h (fresh_cons_of_mem hv)

/-- A vertex that is not skipped is the next one. -/
theorem Kept.next (h : Kept root found (v :: todo)) (hv : v ∉ found.map Prod.fst) :
    pending root found = v :: fresh (found.map Prod.fst) todo :=
  Eq.trans h (fresh_cons_of_not_mem hv)

/-- When one is discovered, those it names are looked at before the others. -/
theorem Kept.push (h : Kept root found (v :: todo)) (named : List α) :
    Kept root (found ++ [(v, named)]) (named ++ todo) := by
  unfold Kept at h ⊢
  have hv : v ∈ found.map Prod.fst ++ [v] := List.mem_append_right _ List.mem_cons_self
  rw [pending_next, h, List.map_append, fresh_append, fresh_fresh, fresh_cons_of_mem hv,
    ← fresh_append]
  rfl

end Discovery
