import RsTenant.Lib.Walk
import RsTenant.RoleHierarchy

/-! # What role expansion computes

Expansion of `root` succeeds exactly when no cycle is reachable from `root`
and no role with parents sits `maxDepth` or more edges down its first chain,
the chain on which a depth-first search in listing order meets it
(`expandRoles_ok_iff`). The output then is `root` and everything reachable
from it, each role once; the two errors name a role on a reachable cycle and a
role at the end of a chain of `maxDepth + 1` edges.

The invariant of the loop (`Searching`) reads the stack as an address: the
index of the parent each frame is waiting for. Everything before the cursor
has been met, so a role that is new has no earlier chain.
-/

namespace RsTenant

open Interact Walk

variable {S : Sig} {Role : Type}

/-! ## One iteration -/

section Iteration

variable [DecidableEq Role] {h : RoleHierarchy S Role} {st : Expansion Role}
  {current parent : Role} {depth : ℕ} {iter : List Role} {stack : List (Frame Role)}

theorem expandLoop_done (hst : st.stack = []) : expandLoop h st = pure st := by
  rw [expandLoop]
  split <;> simp_all

theorem expandLoop_pop (hst : st.stack = ⟨current, depth, []⟩ :: stack) :
    expandLoop h st =
      expandLoop h ⟨stack, insert current st.visited, st.visiting.erase current, st.output⟩ := by
  rw [expandLoop]
  split <;> simp_all

theorem expandLoop_parent (hst : st.stack = ⟨current, depth, parent :: iter⟩ :: stack) :
    expandLoop h st =
      if depth + 1 > h.maxDepth then throw (h.depthError parent)
      else if parent ∈ st.visiting then throw (h.cycleError parent)
      else if parent ∈ st.visited then
        expandLoop h ⟨⟨current, depth, iter⟩ :: stack, st.visited, st.visiting, st.output⟩
      else
        h.parentRoles parent >>= fun parents =>
          expandLoop h
            ⟨⟨parent, depth + 1, parents⟩ :: ⟨current, depth, iter⟩ :: stack, st.visited,
              insert parent st.visiting, st.output ++ [parent]⟩ := by
  rw [expandLoop]
  split
  · simp_all
  · rename_i h'
    rw [hst] at h'
    cases h'
    rfl
  · simp_all

/-- A property of programs that returning, failing and reading parents keep
holds of the whole loop. -/
theorem expandLoop_closed {P : Fallible S Error (Expansion Role) → Prop}
    (hpure : ∀ st, P (pure st)) (hdepth : ∀ r, P (throw (h.depthError r)))
    (hcycle : ∀ r, P (throw (h.cycleError r)))
    (hread : ∀ r k, (∀ parents, P (k parents)) → P (h.parentRoles r >>= k))
    (st : Expansion Role) : P (expandLoop h st) := by
  -- the cases are the branches of the loop, the empty stack first and the finished role last
  induction st using expandLoop.induct h with
  | case1 st hst => rw [expandLoop_done hst]; exact hpure st
  | case2 st current depth parent iter stack hst hdeep =>
    rw [expandLoop_parent hst, if_pos hdeep]
    exact hdepth parent
  | case3 st current depth parent iter stack hst hdeep hvisiting =>
    rw [expandLoop_parent hst, if_neg hdeep, if_pos hvisiting]
    exact hcycle parent
  | case4 st current depth parent iter stack hst hdeep hvisiting hvisited ih =>
    rw [expandLoop_parent hst, if_neg hdeep, if_neg hvisiting, if_pos hvisited]
    exact ih
  | case5 st current depth parent iter stack hst hdeep hvisiting hvisited ih =>
    rw [expandLoop_parent hst, if_neg hdeep, if_neg hvisiting, if_neg hvisited]
    exact hread _ _ ih
  | case6 st current depth stack hst ih => rw [expandLoop_pop hst]; exact ih

theorem only_expandRoles {G : S.Op → Prop} (hG : ∀ r, (h.parentRoles r).run.Only G)
    (root : Role) : (expandRoles h root).run.Only G := by
  have hloop : ∀ st, (expandLoop h st).run.Only G :=
    expandLoop_closed (fun _ => trivial) (fun _ => trivial) (fun _ => trivial)
      fun r k hk => Fallible.only_bind (hG r) hk
  unfold expandRoles expandFrom
  exact Fallible.only_bind (Fallible.only_bind (hG root) fun _ => hloop _) fun _ => trivial

theorem stopsAt_expandRoles {bad : (op : S.Op) → S.Resp op → Option Error}
    (hbad : ∀ r, Fallible.StopsAt bad (h.parentRoles r).run) (root : Role) :
    Fallible.StopsAt bad (expandRoles h root).run := by
  have hloop : ∀ st, Fallible.StopsAt bad (expandLoop h st).run :=
    expandLoop_closed (fun _ => trivial) (fun _ => trivial) (fun _ => trivial)
      fun r k hk => (hbad r).bind hk
  unfold expandRoles expandFrom
  exact Fallible.StopsAt.bind (Fallible.StopsAt.bind (hbad root) fun _ => hloop _)
    fun _ => trivial

/-- An expansion fails at a read, or with one of the two errors of the
hierarchy. -/
theorem failsBy_expandRoles {bad : (op : S.Op) → S.Resp op → Option Error}
    (hbad : ∀ r, Fallible.FailsBy (Fallible.FailedAt bad) (h.parentRoles r).run) (root : Role) :
    Fallible.FailsBy
      (fun tr e => Fallible.FailedAt bad tr e ∨ ∃ r, e = h.cycleError r ∨ e = h.depthError r)
      (expandRoles h root).run := by
  have hread : ∀ (r : Role) (k : List Role → Fallible S Error (Expansion Role)),
      (∀ parents, Fallible.FailsBy (fun tr e => Fallible.FailedAt bad tr e ∨
        ∃ r, e = h.cycleError r ∨ e = h.depthError r) (k parents).run) →
      Fallible.FailsBy (fun tr e => Fallible.FailedAt bad tr e ∨
        ∃ r, e = h.cycleError r ∨ e = h.depthError r) (h.parentRoles r >>= k).run := by
    intro r k hk
    refine Fallible.FailsBy.bind ((hbad r).mono fun tr e he => .inl he) ?_
    intro tr parents _
    exact (hk parents).mono fun tr' e he => he.imp_left fun he => he.append tr
  unfold expandRoles expandFrom
  refine Fallible.FailsBy.bind ?_ fun tr st _ => Fallible.FailsBy.of_pure _
  refine hread root _ fun parents => ?_
  refine expandLoop_closed (fun st => Fallible.FailsBy.of_pure st) ?_ ?_ hread _
  · intro r
    exact Fallible.FailsBy.of_throw (.inr ⟨r, .inr rfl⟩)
  · intro r
    exact Fallible.FailsBy.of_throw (.inr ⟨r, .inl rfl⟩)

end Iteration

/-! ## One iteration under a table of answers -/

section Iterations

variable [DecidableEq Role] {h : RoleHierarchy S Role}
  {env : (op : S.Op) → S.Resp op} {f : Role → List Role} {current parent : Role} {depth : ℕ}
  {iter : List Role} {stack : List (Frame Role)} {visited visiting : Finset Role}
  {output : List Role}

theorem eval_push (hf : ∀ r, (h.parentRoles r).run.eval env = .ok (f r))
    (hdeep : ¬ depth + 1 > h.maxDepth) (hvisiting : parent ∉ visiting)
    (hvisited : parent ∉ visited) :
    (expandLoop h
        ⟨⟨current, depth, parent :: iter⟩ :: stack, visited, visiting, output⟩).run.eval env =
      (expandLoop h ⟨⟨parent, depth + 1, f parent⟩ :: ⟨current, depth, iter⟩ :: stack, visited,
        insert parent visiting, output ++ [parent]⟩).run.eval env := by
  rw [expandLoop_parent rfl, if_neg hdeep, if_neg hvisiting, if_neg hvisited, Fallible.eval_bind,
    hf]
  rfl

theorem eval_skip (hdeep : ¬ depth + 1 > h.maxDepth) (hvisiting : parent ∉ visiting)
    (hvisited : parent ∈ visited) :
    (expandLoop h
        ⟨⟨current, depth, parent :: iter⟩ :: stack, visited, visiting, output⟩).run.eval env =
      (expandLoop h
        ⟨⟨current, depth, iter⟩ :: stack, visited, visiting, output⟩).run.eval env := by
  rw [expandLoop_parent rfl, if_neg hdeep, if_neg hvisiting, if_pos hvisited]

theorem eval_pop :
    (expandLoop h ⟨⟨current, depth, []⟩ :: stack, visited, visiting, output⟩).run.eval env =
      (expandLoop h
        ⟨stack, insert current visited, visiting.erase current, output⟩).run.eval env := by
  rw [expandLoop_pop rfl]

theorem eval_done :
    (expandLoop h ⟨[], visited, visiting, output⟩).run.eval env =
      .ok ⟨[], visited, visiting, output⟩ := by
  rw [expandLoop_done rfl]
  rfl

theorem eval_tooDeep (hdeep : depth + 1 > h.maxDepth) :
    (expandLoop h
        ⟨⟨current, depth, parent :: iter⟩ :: stack, visited, visiting, output⟩).run.eval env =
      .error (h.depthError parent) := by
  rw [expandLoop_parent rfl, if_pos hdeep]
  rfl

/-- An expansion is the loop from the frame of the root. -/
theorem eval_expandRoles {root : Role} {parents : List Role}
    (hread : (h.parentRoles root).run.eval env = .ok parents) :
    (expandRoles h root).run.eval env =
      ((expandLoop h ⟨[⟨root, 0, parents⟩], ∅, {root}, [root]⟩).run.eval env).map
        Expansion.output := by
  unfold expandRoles expandFrom
  rw [Fallible.eval_bind, Fallible.eval_bind, hread]
  show (expandLoop h ⟨[⟨root, 0, parents⟩], ∅, {root}, [root]⟩).run.eval env >>= _ = _
  cases (expandLoop h ⟨[⟨root, 0, parents⟩], ∅, {root}, [root]⟩).run.eval env <;> rfl

end Iterations

/-! ## The invariant -/

section Search

variable (f : Role → List Role) (root : Role) (maxDepth : ℕ)

/-- A finished role: its parents are finished, no endless chain starts at it,
and it was met on its first chain, with room for one more edge if it has
parents. -/
structure Settled (visited : Finset Role) (w : Role) : Prop where
  closed : ∀ p ∈ f w, p ∈ visited
  acc : Acc (fun p w => Edge f w p) w
  first : ∃ a, First f root a w ∧ a.length ≤ maxDepth ∧ (f w ≠ [] → a.length < maxDepth)

/-- `Below visited stack a v`: the frames below one whose role is `v`, at
address `a`. Each frame waits for the parent that the next one expands. -/
inductive Below (visited : Finset Role) : List (Frame Role) → List ℕ → Role → Prop
  | root : Below visited [] [] root
  | child {stack : List (Frame Role)} {a : List ℕ} {u v : Role} {c : ℕ} :
      Below visited stack a u → (f u)[c]? = some v → (∀ w ∈ (f u).take c, w ∈ visited) →
      a.length < maxDepth → First f root (a ++ [c]) v →
      Below visited (⟨u, a.length, (f u).drop (c + 1)⟩ :: stack) (a ++ [c]) v

/-- The loop is looking at parent number `c` of the role `v` at address `a`. -/
structure Searching (st : Expansion Role) (stack : List (Frame Role)) (v : Role) (a : List ℕ)
    (c : ℕ) : Prop where
  stack_eq : st.stack = ⟨v, a.length, (f v).drop c⟩ :: stack
  cursor_le : c ≤ (f v).length
  below : Below f root maxDepth st.visited stack a v
  passed : ∀ w ∈ (f v).take c, w ∈ st.visited
  depth : 0 < c → a.length < maxDepth
  visiting : ∀ w, w ∈ st.visiting ↔ w ∈ v :: stack.map Frame.role
  roles_nodup : (v :: stack.map Frame.role).Nodup
  disjoint : ∀ w ∈ st.visited, w ∉ st.visiting
  output : ∀ w, w ∈ st.output ↔ w ∈ st.visited ∨ w ∈ st.visiting
  output_nodup : st.output.Nodup
  output_head : st.output.head? = some root
  settled : ∀ w ∈ st.visited, Settled f root maxDepth st.visited w
  met : ∀ b w, b < a ++ [c] → walk f root b = some w → w ∈ st.output

/-- The loop has emptied its stack. -/
structure Searched (st : Expansion Role) : Prop where
  stack_eq : st.stack = []
  root_mem : root ∈ st.visited
  output : ∀ w, w ∈ st.output ↔ w ∈ st.visited
  output_nodup : st.output.Nodup
  output_head : st.output.head? = some root
  settled : ∀ w ∈ st.visited, Settled f root maxDepth st.visited w

variable {f root maxDepth}

theorem Below.first {visited : Finset Role} {stack : List (Frame Role)} {a : List ℕ} {v : Role}
    (h : Below f root maxDepth visited stack a v) : First f root a v := by
  cases h with
  | root => exact first_root root
  | child _ _ _ _ hfirst => exact hfirst

theorem Below.length_le {visited : Finset Role} {stack : List (Frame Role)} {a : List ℕ}
    {v : Role} (h : Below f root maxDepth visited stack a v) : a.length ≤ maxDepth := by
  cases h with
  | root => exact Nat.zero_le _
  | child _ _ _ hlen _ =>
    rw [List.length_append, List.length_singleton]
    omega

theorem Below.mono {visited visited' : Finset Role} (hsub : ∀ w ∈ visited, w ∈ visited')
    {stack : List (Frame Role)} {a : List ℕ} {v : Role}
    (h : Below f root maxDepth visited stack a v) : Below f root maxDepth visited' stack a v := by
  induction h with
  | root => exact .root
  | child _ hc htake hlen hfirst ih =>
    exact .child ih hc (fun w hw => hsub w (htake w hw)) hlen hfirst

/-- From every role on the stack a chain of parents leads to the top. -/
theorem Below.chain {visited : Finset Role} {stack : List (Frame Role)} {a : List ℕ} {v : Role}
    (h : Below f root maxDepth visited stack a v) :
    ∀ w ∈ stack.map Frame.role, Relation.TransGen (Edge f) w v := by
  induction h with
  | root => simp
  | child _ hc _ _ _ ih =>
    have hedge := List.mem_of_getElem? hc
    intro w hw
    rw [List.map_cons, List.mem_cons] at hw
    rcases hw with rfl | hw
    · exact .single hedge
    · exact (ih w hw).tail hedge

theorem Settled.mono {visited visited' : Finset Role} (hsub : ∀ w ∈ visited, w ∈ visited')
    {w : Role} (h : Settled f root maxDepth visited w) : Settled f root maxDepth visited' w :=
  ⟨fun p hp => hsub p (h.closed p hp), h.acc, h.first⟩

/-- Nothing outside a set closed under parents is reachable from inside. -/
theorem mem_of_reaches {visited : Finset Role}
    (hclosed : ∀ w ∈ visited, ∀ p ∈ f w, p ∈ visited) {v w : Role} (hv : v ∈ visited)
    (h : Reaches f v w) : w ∈ visited := by
  induction h with
  | refl => exact hv
  | tail _ hedge ih => exact hclosed _ ih _ hedge

/-! ## What one iteration does -/

/-- What a cursor that has not reached the end points at. -/
theorem cursor_cons {v parent : Role} {c : ℕ} {iter : List Role}
    (hiter : (f v).drop c = parent :: iter) :
    (f v)[c]? = some parent ∧ (f v).drop (c + 1) = iter ∧ c < (f v).length ∧
      (f v).take (c + 1) = (f v).take c ++ [parent] := by
  have hget : (f v)[c]? = some parent := by
    have := congrArg (fun l => l[0]?) hiter
    simpa using this
  have hdrop : (f v).drop (c + 1) = iter := by
    rw [← List.tail_drop, hiter]
    rfl
  have hlt : c < (f v).length := (List.getElem?_eq_some_iff.mp hget).1
  refine ⟨hget, hdrop, hlt, ?_⟩
  rw [List.take_add_one, hget]
  rfl

section Step

variable {st : Expansion Role} {stack : List (Frame Role)} {v parent : Role} {a : List ℕ} {c : ℕ}
  {iter : List Role}

/-- Passing over a finished role: everything behind it has been met. -/
theorem Searching.skip (hs : Searching f root maxDepth st stack v a c)
    (hiter : (f v).drop c = parent :: iter)
    (hdepth : ¬ a.length + 1 > maxDepth) (hvisited : parent ∈ st.visited) :
    Searching f root maxDepth
      ⟨⟨v, a.length, iter⟩ :: stack, st.visited, st.visiting, st.output⟩ stack v a (c + 1) := by
  rcases cursor_cons hiter with ⟨hget, hdrop, hlt, htake⟩
  refine ⟨by rw [hdrop], hlt, hs.below, ?_, fun _ => by omega, hs.visiting, hs.roles_nodup,
    hs.disjoint, hs.output, hs.output_nodup, hs.output_head, hs.settled, ?_⟩
  · intro w hw
    rw [htake, List.mem_append, List.mem_singleton] at hw
    rcases hw with hw | rfl
    · exact hs.passed w hw
    · exact hvisited
  · -- what is newly passed is reachable from `parent`, so it is finished too
    intro b w hb hw
    rcases lt_snoc_succ hb with hb | ⟨b', rfl⟩
    · exact hs.met b w hb hw
    · rw [walk_append, walk_snoc hs.below.first.1 c, hget] at hw
      have hreach : Reaches f parent w := reaches_of_walk hw
      exact (hs.output w).mpr
        (.inl (mem_of_reaches (fun w hw => (hs.settled w hw).closed) hvisited hreach))

/-- A parent that is still being expanded closes a cycle. -/
theorem Searching.cycle (hs : Searching f root maxDepth st stack v a c)
    (hiter : (f v).drop c = parent :: iter) (hvisiting : parent ∈ st.visiting) :
    Reaches f root parent ∧ OnCycle f parent := by
  have hedge : Edge f v parent := List.mem_of_getElem? (cursor_cons hiter).1
  have hreach : Reaches f root v := reaches_of_walk hs.below.first.1
  refine ⟨hreach.tail hedge, ?_⟩
  rcases List.mem_cons.mp ((hs.visiting parent).mp hvisiting) with rfl | hmem
  · exact .single hedge
  · exact (hs.below.chain parent hmem).tail hedge

variable [DecidableEq Role]

/-- Expanding a role that has not been met. -/
theorem Searching.push (hs : Searching f root maxDepth st stack v a c)
    (hiter : (f v).drop c = parent :: iter)
    (hdepth : ¬ a.length + 1 > maxDepth) (hvisiting : parent ∉ st.visiting)
    (hvisited : parent ∉ st.visited) :
    Searching f root maxDepth
      ⟨⟨parent, a.length + 1, f parent⟩ :: ⟨v, a.length, iter⟩ :: stack, st.visited,
        insert parent st.visiting, st.output ++ [parent]⟩
      (⟨v, a.length, iter⟩ :: stack) parent (a ++ [c]) 0 := by
  rcases cursor_cons hiter with ⟨hget, hdrop, hlt, -⟩
  have hnew : parent ∉ st.output := by
    rw [hs.output]
    exact fun h => h.elim hvisited hvisiting
  have hfirst : First f root (a ++ [c]) parent := by
    refine ⟨(walk_snoc hs.below.first.1 c).trans hget, fun b hb hw => ?_⟩
    exact hnew (hs.met b parent hb hw)
  have hbelow : Below f root maxDepth st.visited (⟨v, a.length, iter⟩ :: stack) (a ++ [c])
      parent := by
    rw [← hdrop]
    exact .child hs.below hget hs.passed (by omega) hfirst
  -- `parent` joins the roles being expanded and the output; nothing is finished by this
  constructor
  · simp
  · exact Nat.zero_le _
  · exact hbelow
  · simp
  · intro h
    exact absurd h (lt_irrefl 0)
  · intro w
    simp only [Finset.mem_insert, hs.visiting, List.map_cons, List.mem_cons]
  · rw [List.map_cons, List.nodup_cons]
    exact ⟨fun h => hvisiting ((hs.visiting parent).mpr h), hs.roles_nodup⟩
  · intro w hw hmem
    rcases Finset.mem_insert.mp hmem with rfl | hmem
    · exact hvisited hw
    · exact hs.disjoint w hw hmem
  · intro w
    rw [List.mem_append, hs.output, Finset.mem_insert, List.mem_singleton]
    tauto
  · exact List.nodup_append.mpr ⟨hs.output_nodup, List.nodup_singleton parent, by
      rintro x hx y hy rfl
      rw [List.mem_singleton.mp hy] at hx
      exact hnew hx⟩
  · rw [List.head?_append, hs.output_head]
    rfl
  · exact hs.settled
  · -- the only address passed is the one of `parent`
    intro b w hb hw
    rw [List.mem_append]
    rcases lt_snoc_zero hb with hb | rfl
    · exact .inl (hs.met b w hb hw)
    · right
      rw [hfirst.1] at hw
      exact List.mem_singleton.mpr (Option.some.inj hw).symm

/-- The top role is finished once all its parents are. -/
theorem Searching.settled_top (hs : Searching f root maxDepth st stack v a c)
    (hiter : (f v).drop c = []) :
    Settled f root maxDepth (insert v st.visited) v := by
  have hc : c = (f v).length := le_antisymm hs.cursor_le (List.drop_eq_nil_iff.mp hiter)
  have hparents : ∀ p ∈ f v, p ∈ st.visited := by
    intro p hp
    apply hs.passed
    rwa [hc, List.take_length]
  refine ⟨fun p hp => Finset.mem_insert_of_mem (hparents p hp), ?_, a, hs.below.first,
    hs.below.length_le, fun hne => ?_⟩
  -- its parents are accessible, so it is
  · exact ⟨v, fun p hp => (hs.settled p (hparents p hp)).acc⟩
  · exact hs.depth (hc ▸ List.length_pos_iff.mpr hne)

/-- Popping the root ends the search. -/
theorem Searching.finish (hs : Searching f root maxDepth st [] v a c)
    (hiter : (f v).drop c = []) :
    Searched f root maxDepth ⟨[], insert v st.visited, st.visiting.erase v, st.output⟩ := by
  have hroot : v = root := by
    have hb := hs.below
    cases hb
    rfl
  refine ⟨rfl, hroot ▸ Finset.mem_insert_self _ _, ?_, hs.output_nodup, hs.output_head, ?_⟩
  · intro w
    rw [hs.output, hs.visiting, Finset.mem_insert]
    simp
    tauto
  · intro w hw
    rcases Finset.mem_insert.mp hw with rfl | hw
    · exact hs.settled_top hiter
    · exact (hs.settled w hw).mono fun _ => Finset.mem_insert_of_mem

/-- Popping any other role moves the cursor of the frame below past it. -/
theorem Searching.pop {u : Role} {depth : ℕ}
    (hs : Searching f root maxDepth st (⟨u, depth, iter⟩ :: stack) v a c)
    (hiter : (f v).drop c = []) :
    ∃ a' c', Searching f root maxDepth
      ⟨⟨u, depth, iter⟩ :: stack, insert v st.visited, st.visiting.erase v, st.output⟩ stack u a'
      c' := by
  have hc : c = (f v).length := le_antisymm hs.cursor_le (List.drop_eq_nil_iff.mp hiter)
  have hb := hs.below
  cases hb with
  | @child _ a' _ _ c' hb hget hpassed hlen hfirst =>
    have hnodup := hs.roles_nodup
    have hnot : v ∉ u :: stack.map Frame.role := (List.nodup_cons.mp hnodup).1
    have hlt : c' < (f u).length := (List.getElem?_eq_some_iff.mp hget).1
    -- `v` leaves the stack, is no longer being expanded, and is finished; nothing else changes
    refine ⟨a', c' + 1, rfl, hlt, hb.mono fun _ => Finset.mem_insert_of_mem, ?_, fun _ => hlen,
      ?_, (List.nodup_cons.mp hnodup).2, ?_, ?_, hs.output_nodup, hs.output_head, ?_, ?_⟩
    · intro w hw
      rw [List.take_add_one, hget, List.mem_append] at hw
      rcases hw with hw | hw
      · exact Finset.mem_insert_of_mem (hpassed w hw)
      · rw [Option.toList_some, List.mem_singleton] at hw
        exact hw ▸ Finset.mem_insert_self _ _
    · intro w
      rw [Finset.mem_erase, hs.visiting, List.mem_cons]
      constructor
      · rintro ⟨hne, h⟩
        exact h.resolve_left hne
      · intro h
        exact ⟨fun he => hnot (he ▸ h), .inr h⟩
    · intro w hw hmem
      rcases Finset.mem_insert.mp hw with rfl | hw
      · exact (Finset.mem_erase.mp hmem).1 rfl
      · exact hs.disjoint w hw (Finset.mem_erase.mp hmem).2
    · intro w
      have hv : v ∈ st.visiting := (hs.visiting v).mpr List.mem_cons_self
      rw [hs.output, Finset.mem_insert, Finset.mem_erase]
      by_cases hw : w = v
      · simp [hw, hv]
      · simp [hw]
    · intro w hw
      rcases Finset.mem_insert.mp hw with rfl | hw
      · exact hs.settled_top hiter
      · exact (hs.settled w hw).mono fun _ => Finset.mem_insert_of_mem
    · -- nothing lies between the last parent of `v` and the next one of `u`
      intro b w hb' hw
      rcases lt_snoc_succ_of_finished hfirst.1 hb' (by simp [hw]) with hlt | rfl
      · exact hs.met b w (hc ▸ hlt) hw
      · rw [hfirst.1] at hw
        rw [hs.output, hs.visiting]
        exact .inr (Option.some.inj hw ▸ List.mem_cons_self)

end Step

/-! ## What the whole loop computes -/

variable (f root maxDepth) in
/-- No role with parents is `maxDepth` edges down its first chain. -/
def Shallow : Prop := ∀ a u, First f root a u → f u ≠ [] → a.length < maxDepth

variable (f root maxDepth) in
/-- `r` is a parent of a role `maxDepth` edges down its first chain. -/
def TooDeep (r : Role) : Prop := ∃ a u, First f root a u ∧ a.length = maxDepth ∧ r ∈ f u

variable (f root maxDepth) in
/-- What a successful expansion returns, and what its success says about the
graph. -/
structure Expanded (output : List Role) : Prop where
  head : output.head? = some root
  nodup : output.Nodup
  mem : ∀ w, w ∈ output ↔ Reaches f root w
  acyclic : Acyclic f root
  shallow : Shallow f root maxDepth

/-- What a failed expansion says about the graph. -/
def Refused (h : RoleHierarchy S Role) (f : Role → List Role) (root : Role) (e : Error) : Prop :=
  (∃ r, e = h.cycleError r ∧ Reaches f root r ∧ OnCycle f r) ∨
    ∃ r, e = h.depthError r ∧ TooDeep f root h.maxDepth r

/-- Success or refusal, each for its reason. -/
def Outcome {α : Type} (h : RoleHierarchy S Role) (f : Role → List Role) (root : Role)
    (Q : α → Prop) : Except Error α → Prop
  | .ok a => Q a
  | .error e => Refused h f root e

/-- A parent past the bound hangs off a role at the bound. -/
theorem Searching.tooDeep {st : Expansion Role} {stack : List (Frame Role)} {v parent : Role}
    {a : List ℕ} {c : ℕ} {iter : List Role} (hs : Searching f root maxDepth st stack v a c)
    (hiter : (f v).drop c = parent :: iter) (hdeep : a.length + 1 > maxDepth) :
    TooDeep f root maxDepth parent := by
  have hle : a.length ≤ maxDepth := hs.below.length_le
  exact ⟨a, v, hs.below.first, by omega, List.mem_of_getElem? (cursor_cons hiter).1⟩

theorem Searched.expanded {st : Expansion Role} (hs : Searched f root maxDepth st) :
    Expanded f root maxDepth st.output := by
  have hclosed : ∀ w ∈ st.visited, ∀ p ∈ f w, p ∈ st.visited := fun w hw => (hs.settled w hw).closed
  constructor
  · exact hs.output_head
  · exact hs.output_nodup
  · intro w
    rw [hs.output]
    constructor
    · intro hw
      obtain ⟨a, hfirst, _⟩ := (hs.settled w hw).first
      exact reaches_of_walk hfirst.1
    · exact mem_of_reaches hclosed hs.root_mem
  · exact acyclic_of_acc (hs.settled root hs.root_mem).acc
  · intro a u hfirst hne
    have hu : u ∈ st.visited := mem_of_reaches hclosed hs.root_mem (reaches_of_walk hfirst.1)
    obtain ⟨a', hfirst', _, hlt⟩ := (hs.settled u hu).first
    rw [hfirst.unique hfirst']
    exact hlt hne

/-- With a frame on top of the stack the search is on at that frame's role. -/
theorem searching_top {st : Expansion Role}
    (hst : (∃ stack v a c, Searching f root maxDepth st stack v a c) ∨
      Searched f root maxDepth st) {current : Role} {depth : ℕ} {iter : List Role}
    {stack : List (Frame Role)} (hcons : st.stack = ⟨current, depth, iter⟩ :: stack) :
    ∃ a c, Searching f root maxDepth st stack current a c ∧ a.length = depth ∧
      (f current).drop c = iter := by
  rcases hst with ⟨stack', v, a, c, hs⟩ | hs
  · obtain ⟨⟨rfl, hdepth, hiter⟩, rfl⟩ : (v = current ∧ a.length = depth ∧
        (f v).drop c = iter) ∧ stack' = stack := by
      simpa [hs.stack_eq] using hcons
    exact ⟨a, c, hs, hdepth, hiter⟩
  · simp [hs.stack_eq] at hcons

section Loop

variable [DecidableEq Role] {h : RoleHierarchy S Role} {env : (op : S.Op) → S.Resp op}

/-- From any state of the invariant the loop ends, in success or in a refusal
that has its reason. -/
theorem expandLoop_outcome (hf : ∀ r, (h.parentRoles r).run.eval env = .ok (f r))
    (st : Expansion Role)
    (hst : (∃ stack v a c, Searching f root h.maxDepth st stack v a c) ∨
      Searched f root h.maxDepth st) :
    Outcome h f root (Searched f root h.maxDepth) ((expandLoop h st).run.eval env) := by
  -- the induction is on the loop's own recursion; each branch is one rule of the invariant
  induction st using expandLoop.induct h with
  | case1 st hnil =>
    rw [expandLoop_done hnil]
    rcases hst with ⟨stack, v, a, c, hs⟩ | hs
    · simp [hs.stack_eq] at hnil
    · exact hs
  | case2 st current depth parent iter stack hcons hdeep =>
    rcases searching_top hst hcons with ⟨a, c, hs, rfl, hiter⟩
    rw [expandLoop_parent hcons, if_pos hdeep]
    exact .inr ⟨parent, rfl, hs.tooDeep hiter hdeep⟩
  | case3 st current depth parent iter stack hcons hdeep hcycle =>
    rcases searching_top hst hcons with ⟨a, c, hs, rfl, hiter⟩
    rw [expandLoop_parent hcons, if_neg hdeep, if_pos hcycle]
    exact .inl ⟨parent, rfl, hs.cycle hiter hcycle⟩
  | case4 st current depth parent iter stack hcons hdeep hcycle hvisited ih =>
    rcases searching_top hst hcons with ⟨a, c, hs, rfl, hiter⟩
    rw [expandLoop_parent hcons, if_neg hdeep, if_neg hcycle, if_pos hvisited]
    exact ih (.inl ⟨_, _, _, _, hs.skip hiter hdeep hvisited⟩)
  | case5 st current depth parent iter stack hcons hdeep hcycle hvisited ih =>
    rcases searching_top hst hcons with ⟨a, c, hs, rfl, hiter⟩
    rw [expandLoop_parent hcons, if_neg hdeep, if_neg hcycle, if_neg hvisited,
      Fallible.eval_bind, hf]
    exact ih _ (.inl ⟨_, _, _, _, hs.push hiter hdeep hcycle hvisited⟩)
  | case6 st current depth stack hcons ih =>
    rcases searching_top hst hcons with ⟨a, c, hs, rfl, hiter⟩
    rw [expandLoop_pop hcons]
    apply ih
    -- below the root's frame there is nothing left to go back to
    cases stack with
    | nil => exact .inr (hs.finish hiter)
    | cons frame stack =>
      obtain ⟨a', c', hs'⟩ := hs.pop hiter
      exact .inl ⟨_, _, a', c', hs'⟩

/-- The loop starts at the root with nothing met but the root. -/
theorem searching_start (f : Role → List Role) (root : Role) (maxDepth : ℕ) :
    Searching f root maxDepth ⟨[⟨root, 0, f root⟩], ∅, insert root ∅, [] ++ [root]⟩ [] root []
      0 := by
  constructor
  · rfl
  · exact Nat.zero_le _
  · exact .root
  · simp
  · intro h
    exact absurd h (lt_irrefl 0)
  · simp
  · simp
  · simp
  · simp
  · simp
  · rfl
  · simp
  -- the root's own address is the only one before its first parent
  · intro b w hb hw
    rcases lt_snoc_zero hb with hb | rfl
    · exact absurd hb (List.not_lt_nil b)
    · exact List.mem_singleton.mpr (Option.some.inj hw).symm

/-- Expansion when all parent lists can be read. -/
theorem expandRoles_outcome (hf : ∀ r, (h.parentRoles r).run.eval env = .ok (f r)) (root : Role) :
    Outcome h f root (Expanded f root h.maxDepth) ((expandRoles h root).run.eval env) := by
  have hloop := expandLoop_outcome hf _ (.inl ⟨_, _, _, _, searching_start f root h.maxDepth⟩)
  unfold expandRoles expandFrom
  rw [Fallible.eval_bind, Fallible.eval_bind, hf]
  show Outcome h f root _ ((expandLoop h _).run.eval env >>= _)
  cases hres : (expandLoop h ⟨[⟨root, 0, f root⟩], ∅, insert root ∅,
      [] ++ [root]⟩).run.eval env with
  | ok st =>
    rw [hres] at hloop
    exact Searched.expanded hloop
  | error e =>
    rw [hres] at hloop
    exact hloop

theorem expandRoles_eq_ok (hf : ∀ r, (h.parentRoles r).run.eval env = .ok (f r)) {root : Role}
    {output : List Role} (hok : (expandRoles h root).run.eval env = .ok output) :
    Expanded f root h.maxDepth output := by
  have hout := expandRoles_outcome hf root
  rw [hok] at hout
  exact hout

/-- Expansion fails on a reachable cycle and on a first chain that is too
long, and on nothing else. -/
theorem expandRoles_ok_iff (hf : ∀ r, (h.parentRoles r).run.eval env = .ok (f r)) (root : Role) :
    (∃ output, (expandRoles h root).run.eval env = .ok output) ↔
      Acyclic f root ∧ Shallow f root h.maxDepth := by
  constructor
  · rintro ⟨output, hok⟩
    have hexp := expandRoles_eq_ok hf hok
    exact ⟨hexp.acyclic, hexp.shallow⟩
  · rintro ⟨hacyclic, hshallow⟩
    have hout := expandRoles_outcome hf root
    cases hres : (expandRoles h root).run.eval env with
    | ok output => exact ⟨output, rfl⟩
    | error e =>
      rw [hres] at hout
      rcases hout with ⟨r, -, hreach, hcycle⟩ | ⟨r, -, a, u, hfirst, hlen, hr⟩
      · exact absurd hcycle (hacyclic r hreach)
      · have hlt := hshallow a u hfirst (List.ne_nil_of_mem hr)
        omega

end Loop

end Search

end RsTenant
