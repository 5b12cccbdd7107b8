import Mathlib.Data.Nat.Pairing
import RsTenant.Lib.Projection

/-! # One thread for each program

A thread over `S.sum T` may carry out several programs over `S`, one after
another or in turns. Whoever looks at the first part, and counts each of these
programs as a thread of its own, sees a pool again: the program `j` of thread `i`
is its thread `Nat.pair i j`. `Pool.run_split` makes a run of that pool from any
run of the whole.

On the way a thread can promise something about how far its programs have got:
`G`, when it does something to the second part, and `R`, when it returns without
having done so.
-/

namespace Interact

variable {S T : Sig} {σ τ α β γ : Type}

namespace Prog

/-- As far as the program goes, what it does to the first part is what the
programs of the list do. -/
def CarriesOut (G : List (Prog S α) → Prop) :
    (List (Prog S α) → β → Prop) → Prog (S.sum T) β → List (Prog S α) → Prop
  | R, .ret b, ps => R ps b
  | R, .call (.inl op) k, ps =>
    ∃ j k', ps[j]? = some (.call op k') ∧ ∀ r, (k r).CarriesOut G R (ps.set j (k' r))
  | _, .call (.inr _) k, ps => G ps ∧ ∀ r, (k r).CarriesOut G (fun _ _ => True) ps

variable {G : List (Prog S α) → Prop} {R : List (Prog S α) → β → Prop}

theorem CarriesOut.mono {R' : List (Prog S α) → β → Prop} {p : Prog (S.sum T) β}
    {ps : List (Prog S α)} (h : p.CarriesOut G R ps) (hR : ∀ ps b, R ps b → R' ps b) :
    p.CarriesOut G R' ps := by
  induction p generalizing ps with
  | ret b => exact hR ps b h
  | call op k ih =>
    cases op with
    | inl op =>
      obtain ⟨j, k', hj, hk⟩ := h
      exact ⟨j, k', hj, fun r => ih r (hk r)⟩
    | inr op => exact h

/-- One of the programs, and then whatever comes after it. -/
theorem CarriesOut.left_bind (p : Prog S γ) (g : γ → α) {f : γ → Prog (S.sum T) β}
    {pre post : List (Prog S α)}
    (h : ∀ a, (f a).CarriesOut G R (pre ++ .ret (g a) :: post)) :
    (p.left >>= f).CarriesOut G R (pre ++ (p >>= fun a => .ret (g a)) :: post) := by
  induction p with
  | ret a => exact h a
  | call op k ih =>
    refine ⟨pre.length, fun r => k r >>= fun a => .ret (g a), ?_, fun r => ?_⟩
    · rw [List.getElem?_append_right (le_refl _), Nat.sub_self]
      rfl
    · rw [List.set_append_right _ _ (le_refl _), Nat.sub_self]
      exact ih r

end Prog

/-- The occurrence, as one of the thread that carries the program out. -/
def Occ.owned (o : Occ S σ) : Occ S σ := { o with thread := o.thread.unpair.1 }

namespace Pool

/-- The programs that thread `i` carries out. -/
def share (d : Pool S σ α) (size : ℕ → ℕ) (i : ℕ) : List (Prog S α) :=
  (List.range (size i)).map fun j => d.threads (Nat.pair i j)

/-- Thread `i` has done something to the second part. -/
def Touched (c : Pool (S.sum T) σ β) (i : ℕ) : Prop := ∃ ev ∈ trail i c.hist, Prog.OnRight ev.op

/-- `d` is what can be seen of `c` from the first part. -/
structure Splits (G : List (Prog S α) → Prop) (R : List (Prog S α) → β → Prop) (size : ℕ → ℕ)
    (c : Pool (S.sum T) (σ × τ) β) (d : Pool S σ α) : Prop where
  shared : c.shared.1 = d.shared
  threads : ∀ i, (c.threads i).CarriesOut G (fun ps b => c.Touched i ∨ R ps b) (d.share size i)
  hist : firstHist c.hist = d.hist.map Occ.owned
  kept : ∀ i, c.Touched i → G (d.share size i)

variable {G : List (Prog S α) → Prop} {R : List (Prog S α) → β → Prop} {size : ℕ → ℕ}
  {c : Pool (S.sum T) (σ × τ) β} {d : Pool S σ α}

theorem share_update {d' : Pool S σ α} {i j : ℕ} {p : Prog S α}
    (h : d'.threads = Function.update d.threads (Nat.pair i j) p) (i' : ℕ) :
    d'.share size i' = if i' = i then (d.share size i).set j p else d.share size i' := by
  unfold share
  rw [h]
  split
  · rename_i hi
    subst hi
    refine List.ext_getElem (by simp) fun n hn hn' => ?_
    rw [List.getElem_set, List.getElem_map, List.getElem_range]
    split
    · rename_i hj
      rw [hj, Function.update_self]
    · rename_i hj
      rw [Function.update_of_ne fun heq => hj (Nat.pair_eq_pair.mp heq).2.symm, List.getElem_map,
        List.getElem_range]
  · rename_i hi
    refine List.map_congr_left fun n _ => ?_
    rw [Function.update_of_ne fun heq => hi (Nat.pair_eq_pair.mp heq).1]

theorem thread_of_share {i j : ℕ} {p : Prog S α} (h : (d.share size i)[j]? = some p) :
    d.threads (Nat.pair i j) = p := by
  unfold share at h
  rw [List.getElem?_map, Option.map_eq_some_iff] at h
  obtain ⟨n, hn, hp⟩ := h
  obtain ⟨hj, hn⟩ := List.getElem?_eq_some_iff.mp hn
  rwa [← hn, List.getElem_range] at hp

theorem touched_append {c c' : Pool (S.sum T) σ β} {o : Occ (S.sum T) σ}
    (h : c'.hist = c.hist ++ [o]) (i : ℕ) :
    c'.Touched i ↔ c.Touched i ∨ o.thread = i ∧ Prog.OnRight o.event.op := by
  unfold Touched
  rw [h, trail_append]
  simp only [List.mem_append, or_and_right, exists_or]
  refine or_congr_right ?_
  by_cases hi : o.thread = i
  · subst hi
    simp [trail_cons_self]
  · rw [trail_cons_other hi]
    simp [hi]

/-- What the other threads have promised does not change when thread `i` takes a
turn. -/
theorem Splits.others (hcd : Splits G R size c d) {c' : Pool (S.sum T) (σ × τ) β} {i : ℕ}
    {p : Prog (S.sum T) β} {o : Occ (S.sum T) (σ × τ)}
    (hthreads : c'.threads = Function.update c.threads i p) (hhist : c'.hist = c.hist ++ [o])
    {i' : ℕ} (hi' : i' ≠ i) :
    (c'.threads i').CarriesOut G (fun ps b => c'.Touched i' ∨ R ps b) (d.share size i') := by
  rw [hthreads, Function.update_of_ne hi']
  exact (hcd.threads i').mono fun ps b => Or.imp_left fun ht =>
    (touched_append hhist i').mpr (.inl ht)

/-- Something done to the second part cannot be seen. -/
theorem Splits.right (hcd : Splits G R size c d) (h : Handler S σ) (h' : Handler T τ) {i : ℕ}
    {op : T.Op} {k : T.Resp op → Prog (S.sum T) β} (hthread : c.threads i = .call (.inr op) k) :
    Splits G R size (c.step (h.beside h') i) d := by
  have hi := hcd.threads i
  rw [hthread] at hi
  have hstep := Pool.step_of_call (h.beside h') hthread
  have hthreads := congrArg Pool.threads hstep
  have hhist := congrArg Pool.hist hstep
  have htouched := touched_append hhist
  refine ⟨?_, fun i' => ?_, ?_, fun i' hi' => ?_⟩
  · rw [hstep]
    exact hcd.shared
  · by_cases hii : i' = i
    · subst hii
      rw [hthreads]
      simp only [Function.update_self]
      exact (hi.2 _).mono fun ps b _ => .inl ((htouched i').mpr (.inr ⟨rfl, trivial⟩))
    · exact hcd.others hthreads hhist hii
  · rw [hhist]
    unfold firstHist
    rw [List.filterMap_append]
    exact (List.append_nil _).trans hcd.hist
  · rcases (htouched i').mp hi' with ht | ⟨rfl, -⟩
    · exact hcd.kept i' ht
    · exact hi.1

/-- Something done to the first part is done by one of the programs. -/
theorem Splits.left (hcd : Splits G R size c d) (hG : ∀ ps, G ps → ∀ p ∈ ps, ∃ a, p = .ret a)
    (h : Handler S σ) (h' : Handler T τ) {i : ℕ} {op : S.Op} {k : S.Resp op → Prog (S.sum T) β}
    (hthread : c.threads i = .call (.inl op) k) :
    ∃ j, Splits G R size (c.step (h.beside h') i) (d.step h (Nat.pair i j)) := by
  have hi := hcd.threads i
  rw [hthread] at hi
  obtain ⟨j, k', hj, hk⟩ := hi
  have hstep := Pool.step_of_call (h.beside h') hthread
  have hthreads := congrArg Pool.threads hstep
  have hhist := congrArg Pool.hist hstep
  have htouched := touched_append hhist
  have hd := Pool.step_of_call h (thread_of_share hj)
  have hshare : ∀ i', (d.step h (Nat.pair i j)).share size i' = _ :=
    share_update (congrArg Pool.threads hd)
  have hsame : ∀ i', (c.step (h.beside h') i).Touched i' → c.Touched i' := by
    intro i' ht
    exact ((htouched i').mp ht).resolve_right fun hright => hright.2
  refine ⟨j, ⟨?_, fun i' => ?_, ?_, fun i' hi' => ?_⟩⟩
  · rw [hstep, hd, ← hcd.shared]
    rfl
  · rw [hshare]
    split
    · rename_i hii
      subst hii
      rw [hthreads]
      simp only [Function.update_self]
      rw [← hcd.shared]
      exact (hk _).mono fun ps b => Or.imp_left fun ht => (htouched i').mpr (.inl ht)
    · rename_i hii
      exact hcd.others hthreads hhist hii
  · rw [hhist]
    unfold firstHist
    rw [hd, List.filterMap_append, List.map_append, ← hcd.hist, ← hcd.shared]
    show _ = _ ++ [Occ.owned ⟨Nat.pair i j, c.shared.1, ⟨op, (h op c.shared.1).1⟩⟩]
    rw [Occ.owned, Nat.unpair_pair]
    rfl
  · rw [hshare]
    split
    · rename_i hii
      subst hii
      -- a program that has still to go on has not let the thread get there
      obtain ⟨a, ha⟩ := hG _ (hcd.kept i' (hsame i' hi')) _ (List.mem_of_getElem? hj)
      cases ha
    · exact hcd.kept i' (hsame i' hi')

/-- A turn of a thread is a turn of one of its programs, or none. -/
theorem Splits.step (hcd : Splits G R size c d) (hG : ∀ ps, G ps → ∀ p ∈ ps, ∃ a, p = .ret a)
    (h : Handler S σ) (h' : Handler T τ) (i : ℕ) :
    Splits G R size (c.step (h.beside h') i) d ∨
      ∃ j, Splits G R size (c.step (h.beside h') i) (d.step h (Nat.pair i j)) := by
  rcases c.step_cases (h.beside h') i with ⟨b, -, hc⟩ | ⟨op, k, hthread, -⟩
  · rw [hc]
    exact .inl hcd
  · cases op with
    | inr op => exact .inl (hcd.right h h' hthread)
    | inl op => exact .inr (hcd.left hG h h' hthread)

end Pool

end Interact
