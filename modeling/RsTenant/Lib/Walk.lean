import Mathlib.Data.List.Lex
import Mathlib.Data.Nat.Basic
import Mathlib.Order.Basic
import Mathlib.Logic.Relation

/-! # Walks in a graph given by neighbour lists

A graph lists the neighbours of each vertex in some order. A walk from a root
is named by its address: which neighbour was taken at each vertex. Addresses
are compared lexicographically, a prefix before its extensions, which is the
order in which a depth-first search meets them; the first walk to a vertex is
the one with the least address.
-/

namespace Walk

variable {V : Type*} (next : V → List V)

/-- One edge: `w` is listed as a neighbour of `v`. -/
def Edge (v w : V) : Prop := w ∈ next v

/-- `w` can be reached from `v` by zero or more edges. -/
def Reaches (v w : V) : Prop := Relation.ReflTransGen (Edge next) v w

/-- `v` lies on a cycle. -/
def OnCycle (v : V) : Prop := Relation.TransGen (Edge next) v v

/-- No vertex reachable from `v` lies on a cycle. -/
def Acyclic (v : V) : Prop := ∀ w, Reaches next v w → ¬ OnCycle next w

/-- The vertex at an address. -/
def walk (v : V) : List ℕ → Option V
  | [] => some v
  | i :: is => (next v)[i]?.bind fun w => walk w is

/-- The first walk to `w`: no walk with a smaller address ends there. -/
def First (v : V) (a : List ℕ) (w : V) : Prop :=
  walk next v a = some w ∧ ∀ b, b < a → walk next v b ≠ some w

variable {next}

/-- A walk along two lists of choices goes along the first, then the second. -/
theorem walk_append (v : V) (a b : List ℕ) :
    walk next v (a ++ b) = (walk next v a).bind fun w => walk next w b := by
  induction a generalizing v with
  | nil => rfl
  | cons i a ih =>
    simp only [List.cons_append, walk, Option.bind_assoc]
    exact congrArg _ (funext fun w => ih w)

theorem walk_snoc {v w : V} {a : List ℕ} (h : walk next v a = some w) (i : ℕ) :
    walk next v (a ++ [i]) = (next w)[i]? := by
  rw [walk_append, h]
  simp [walk]

/-- Where a walk ends is reached. -/
theorem reaches_of_walk {v w : V} {a : List ℕ} (h : walk next v a = some w) :
    Reaches next v w := by
  induction a generalizing v with
  | nil =>
    cases h
    exact .refl
  | cons i a ih =>
    rcases Option.bind_eq_some_iff.mp h with ⟨u, hu, hw⟩
    exact .head (List.mem_of_getElem? hu) (ih hw)

theorem first_root (v : V) : First next v [] v :=
  ⟨rfl, fun b hb => absurd hb (List.not_lt_nil b)⟩

/-- Two first walks to the same vertex are the same. -/
theorem First.unique {v w : V} {a b : List ℕ} (ha : First next v a w) (hb : First next v b w) :
    a = b := by
  rcases lt_trichotomy a b with h | h | h
  · exact absurd ha.1 (hb.2 a h)
  · exact h
  · exact absurd hb.1 (ha.2 b h)

/-- An accessible vertex reaches no cycle. -/
theorem acyclic_of_acc {v : V} (h : Acc (fun w v => Edge next v w) v) : Acyclic next v := by
  -- a vertex on a cycle is its own predecessor under the transitive closure
  have hcycle : ∀ w, Acc (fun w v => Edge next v w) w → ¬ OnCycle next w := by
    intro w hw hc
    have hw' : Acc (Relation.TransGen fun w v => Edge next v w) w := hw.transGen
    have hc' : Relation.TransGen (fun w v => Edge next v w) w w := Relation.transGen_swap.mp hc
    induction hw' with
    | intro w _ ih => exact ih w hc' (hw.inv_of_transGen hc') hc hc'
  intro w hw
  apply hcycle
  induction hw with
  | refl => exact h
  | tail _ hedge ih => exact ih.inv hedge

/-- By at least one edge, when the walk is not empty. -/
theorem transGen_of_walk {v w : V} {a : List ℕ} (hne : a ≠ []) (h : walk next v a = some w) :
    Relation.TransGen (Edge next) v w := by
  cases a with
  | nil => exact absurd rfl hne
  | cons i a =>
    rcases Option.bind_eq_some_iff.mp h with ⟨u, hu, hw⟩
    have hedge : Edge next v u := List.mem_of_getElem? hu
    exact Relation.TransGen.head' hedge (reaches_of_walk hw)

/-! ## Chains of a given length -/

variable (next) in
/-- A chain of `n` edges leads from `v` to `w`. -/
def Chain (n : ℕ) (v w : V) : Prop := ∃ a, a.length = n ∧ walk next v a = some w

/-- One more edge at the end. -/
theorem Chain.tail {v w u : V} {n : ℕ} (h : Chain next n v w) (hedge : Edge next w u) :
    Chain next (n + 1) v u := by
  rcases h with ⟨a, rfl, hw⟩
  rcases List.getElem?_of_mem hedge with ⟨i, hi⟩
  refine ⟨a ++ [i], ?_, (walk_snoc hw i).trans hi⟩
  rw [List.length_append, List.length_singleton]

/-! ## Listing the neighbours in another order -/

/-- The same graph, with the neighbours of each vertex in another order. -/
def Reordered (next next' : V → List V) : Prop := ∀ v, (next' v).Perm (next v)

/-- A chain of `n` edges starts at `v`. -/
def HasChain (next : V → List V) (v : V) (n : ℕ) : Prop :=
  ∃ a w, a.length = n ∧ walk next v a = some w

section Order

variable {next' : V → List V}

theorem Reordered.refl (next : V → List V) : Reordered next next := fun v => .refl (next v)

/-- The order of the listing makes no difference to the edges. -/
theorem Reordered.edge_eq (h : Reordered next next') : Edge next' = Edge next := by
  funext v w
  exact propext (h v).mem_iff

theorem Reordered.reaches_iff (h : Reordered next next') {v w : V} :
    Reaches next' v w ↔ Reaches next v w := by
  unfold Reaches
  rw [h.edge_eq]

theorem Reordered.acyclic_iff (h : Reordered next next') {v : V} :
    Acyclic next' v ↔ Acyclic next v := by
  unfold Acyclic Reaches OnCycle
  rw [h.edge_eq]

/-- Every walk has a counterpart of the same length in the other order. -/
theorem Reordered.walk (h : Reordered next next') {v w : V} {a : List ℕ}
    (hw : Walk.walk next' v a = some w) :
    ∃ b, b.length = a.length ∧ Walk.walk next v b = some w := by
  induction a generalizing v with
  | nil => exact ⟨[], rfl, hw⟩
  | cons i a ih =>
    rcases Option.bind_eq_some_iff.mp hw with ⟨u, hu, hw⟩
    have hmem : u ∈ next v := (h v).mem_iff.mp (List.mem_of_getElem? hu)
    rcases List.getElem?_of_mem hmem with ⟨j, hj⟩
    rcases ih hw with ⟨b, hlen, hb⟩
    refine ⟨j :: b, by rw [List.length_cons, List.length_cons, hlen], ?_⟩
    show (next v)[j]?.bind _ = some w
    rw [hj]
    exact hb

/-- So the same lengths of chains are found. -/
theorem Reordered.hasChain (h : Reordered next next') {v : V} {n : ℕ}
    (hc : HasChain next' v n) : HasChain next v n := by
  rcases hc with ⟨a, w, rfl, hw⟩
  rcases h.walk hw with ⟨b, hlen, hb⟩
  exact ⟨b, w, hlen, hb⟩

/-- A vertex with a chain has all shorter ones. -/
theorem HasChain.of_le {v : V} {n m : ℕ} (hle : n ≤ m) (h : HasChain next v m) :
    HasChain next v n := by
  rcases h with ⟨a, w, rfl, hw⟩
  -- the first `n` edges of the longer chain
  have hsplit : a.take n ++ a.drop n = a := List.take_append_drop n a
  rw [← hsplit, walk_append] at hw
  rcases Option.bind_eq_some_iff.mp hw with ⟨u, hu, -⟩
  exact ⟨a.take n, u, List.length_take_of_le hle, hu⟩

/-- Where every edge leads down, no chain is longer than its start is high. -/
theorem HasChain.le_rank {rank : V → ℕ} (hrank : ∀ v, ∀ w ∈ next v, rank w < rank v) {v : V} {n : ℕ}
    (h : HasChain next v n) : n ≤ rank v := by
  rcases h with ⟨a, w, rfl, hw⟩
  induction a generalizing v with
  | nil => exact Nat.zero_le _
  | cons i a ih =>
    rcases Option.bind_eq_some_iff.mp hw with ⟨u, hu, hw⟩
    have hdown := hrank v u (List.mem_of_getElem? hu)
    have hrest := ih hw
    rw [List.length_cons]
    omega

/-- A walk does not see what is listed at vertices it cannot reach. -/
theorem walk_congr {v : V} (h : ∀ w, Reaches next v w → next' w = next w) (a : List ℕ) :
    walk next' v a = walk next v a := by
  induction a generalizing v with
  | nil => rfl
  | cons i a ih =>
    show (next' v)[i]?.bind _ = (next v)[i]?.bind _
    rw [h v .refl]
    cases hw : (next v)[i]? with
    | none => rfl
    | some w =>
      have hedge : Edge next v w := List.mem_of_getElem? hw
      exact ih fun u hu => h u (.head hedge hu)

theorem lt_replicate_zero {b : List ℕ} {n : ℕ} (h : b < List.replicate n 0) :
    ∃ m, m < n ∧ b = List.replicate m 0 := by
  induction n generalizing b with
  | zero => exact absurd h (List.not_lt_nil b)
  | succ n ih =>
    cases b with
    | nil => exact ⟨0, Nat.succ_pos n, rfl⟩
    | cons i b =>
      rw [List.replicate_succ, List.cons_lt_cons_iff] at h
      rcases h with h | ⟨rfl, h⟩
      · exact absurd h (Nat.not_lt_zero i)
      · rcases ih h with ⟨m, hm, rfl⟩
        exact ⟨m + 1, Nat.succ_lt_succ hm, rfl⟩

/-- Without a cycle, any walk can be made the one that always takes the first
neighbour. -/
theorem exists_reordered_walk {v w : V} {a : List ℕ} (hacyclic : Acyclic next v)
    (hw : walk next v a = some w) :
    ∃ next', Reordered next next' ∧ walk next' v (List.replicate a.length 0) = some w := by
  classical
  induction a generalizing v with
  | nil => exact ⟨next, .refl next, hw⟩
  | cons i a ih =>
    rcases Option.bind_eq_some_iff.mp hw with ⟨u, hu, hw⟩
    have hedge : Edge next v u := List.mem_of_getElem? hu
    have hacyclic' : Acyclic next u := fun x hx => hacyclic x (.head hedge hx)
    rcases ih hacyclic' hw with ⟨next₁, hre, hwalk⟩
    -- list `u` first at `v`; the rest of the walk never comes back to `v`
    refine ⟨Function.update next₁ v (u :: (next v).erase u), fun x => ?_, ?_⟩
    · by_cases hx : x = v
      · subst hx
        rw [Function.update_self]
        exact (List.perm_cons_erase hedge).symm
      · rw [Function.update_of_ne hx]
        exact hre x
    · have hback : ¬ Reaches next u v := by
        intro hreach
        exact hacyclic v .refl (Relation.TransGen.head' hedge hreach)
      rw [List.length_cons, List.replicate_succ]
      show (Function.update next₁ v (u :: (next v).erase u) v)[0]?.bind _ = some w
      rw [Function.update_self, List.getElem?_cons_zero]
      have hsame : walk (Function.update next₁ v (u :: (next v).erase u)) u
          (List.replicate a.length 0) = walk next₁ u (List.replicate a.length 0) := by
        apply walk_congr
        intro x hx
        rw [Function.update_of_ne]
        rintro rfl
        exact hback (hre.reaches_iff.mp hx)
      exact hsame.trans hwalk

/-- Without a cycle, any walk can be made the first one to its end. -/
theorem exists_reordered_first {v w : V} {a : List ℕ} (hacyclic : Acyclic next v)
    (hw : walk next v a = some w) :
    ∃ next', Reordered next next' ∧ First next' v (List.replicate a.length 0) w := by
  rcases exists_reordered_walk hacyclic hw with ⟨next', hre, hwalk⟩
  refine ⟨next', hre, hwalk, fun b hb hb' => ?_⟩
  rcases lt_replicate_zero hb with ⟨m, hm, rfl⟩
  -- reaching `w` twice along one walk closes a cycle
  have hsplit : List.replicate a.length 0 =
      List.replicate m 0 ++ List.replicate (a.length - m) 0 := by
    rw [List.replicate_append_replicate]
    congr 1
    omega
  rw [hsplit, walk_append, hb'] at hwalk
  have hne : List.replicate (a.length - m) 0 ≠ [] := by
    intro h
    have hlen := congrArg List.length h
    simp at hlen
    omega
  have hcycle : OnCycle next' w := transGen_of_walk hne hwalk
  exact hre.acyclic_iff.mpr hacyclic w (reaches_of_walk hb') hcycle

end Order

/-! ## Addresses next to a cursor -/

/-- Before a vertex's first neighbour come the smaller addresses and the vertex
itself. -/
theorem lt_snoc_zero {a b : List ℕ} (h : b < a ++ [0]) : b < a ∨ b = a := by
  induction a generalizing b with
  | nil =>
    cases b with
    | nil => exact .inr rfl
    | cons j b => simp [List.cons_lt_cons_iff] at h
  | cons i a ih =>
    cases b with
    | nil => exact .inl (List.nil_lt_cons i a)
    | cons j b =>
      rw [List.cons_append, List.cons_lt_cons_iff] at h
      rw [List.cons_lt_cons_iff, List.cons_eq_cons]
      rcases h with h | ⟨rfl, h⟩
      · exact .inl (.inl h)
      · rcases ih h with h | h
        · exact .inl (.inr ⟨rfl, h⟩)
        · exact .inr ⟨rfl, h⟩

/-- Moving the cursor past a neighbour adds the addresses that go through
it. -/
theorem lt_snoc_succ {a b : List ℕ} {c : ℕ} (h : b < a ++ [c + 1]) :
    b < a ++ [c] ∨ ∃ b', b = (a ++ [c]) ++ b' := by
  induction a generalizing b with
  | nil =>
    cases b with
    | nil => exact .inl (by simp)
    | cons j b =>
      simp only [List.nil_append, List.cons_lt_cons_iff, List.not_lt_nil, and_false, or_false]
        at h
      rcases Nat.lt_succ_iff_lt_or_eq.mp h with h | rfl
      · exact .inl (by simp [List.cons_lt_cons_iff, h])
      · exact .inr ⟨b, rfl⟩
  | cons i a ih =>
    cases b with
    | nil => exact .inl (List.nil_lt_cons i _)
    | cons j b =>
      rw [List.cons_append, List.cons_lt_cons_iff] at h
      rw [List.cons_append, List.cons_lt_cons_iff]
      rcases h with h | ⟨rfl, h⟩
      · exact .inl (.inl h)
      · rcases ih h with h | ⟨b', rfl⟩
        · exact .inl (.inr ⟨rfl, h⟩)
        · exact .inr ⟨b', rfl⟩

theorem lt_append_of_lt {a b : List ℕ} (h : b < a) (x : List ℕ) : b < a ++ x := by
  induction a generalizing b with
  | nil => exact absurd h (List.not_lt_nil b)
  | cons i a ih =>
    cases b with
    | nil => exact List.nil_lt_cons i _
    | cons j b =>
      rw [List.cons_append, List.cons_lt_cons_iff]
      rw [List.cons_lt_cons_iff] at h
      exact h.imp_right fun h => ⟨h.1, ih h.2⟩

theorem append_lt_snoc {a b : List ℕ} {i n : ℕ} (h : i < n) : a ++ i :: b < a ++ [n] := by
  induction a with
  | nil => simp [List.cons_lt_cons_iff, h]
  | cons j a ih =>
    rw [List.cons_append, List.cons_append, List.cons_lt_cons_iff]
    exact .inr ⟨rfl, ih⟩

/-- When all neighbours of a finished vertex have been passed, the cursor of
the vertex below moves past the finished one. -/
theorem lt_snoc_succ_of_finished {v u : V} {a b : List ℕ} {c : ℕ}
    (hu : walk next v (a ++ [c]) = some u) (hb : b < a ++ [c + 1])
    (hw : walk next v b ≠ none) : b < (a ++ [c]) ++ [(next u).length] ∨ b = a ++ [c] := by
  rcases lt_snoc_succ hb with h | ⟨b', rfl⟩
  · exact .inl (lt_append_of_lt h _)
  · cases b' with
    | nil => exact .inr (by simp)
    | cons i b' =>
      left
      apply append_lt_snoc
      by_contra hi
      have hnone : (next u)[i]? = none := List.getElem?_eq_none (not_lt.mp hi)
      apply hw
      rw [walk_append, hu]
      simp [walk, hnone]

end Walk
