import Mathlib.Logic.Hydra
import Mathlib.Data.Finset.Insert
import Mathlib.Tactic.Abel
import RsTenant.Source

/-! # Role expansion

`expandRoles` walks the inheritance graph depth first with an explicit stack
of half-consumed parent lists. The loop is shared by the tenant and the
platform engine through the `RoleHierarchy` trait.

It ends on every graph, for parent lists of any length: each iteration chops
one head off a hydra (an entry of a stack frame) and grows back only heads one
level deeper, and there are `maxDepth + 1` levels.
-/

namespace RsTenant

open Interact

/-- How an engine reads its role graph and names its errors. -/
structure RoleHierarchy (S : Sig) (Role : Type) where
  parentRoles : Role → Fallible S Error (List Role)
  maxDepth : ℕ
  cycleError : Role → Error
  depthError : Role → Error

/-- A stack entry: a role, its depth, and its parents not looked at yet. -/
structure Frame (Role : Type) where
  role : Role
  depth : ℕ
  iter : List Role

/-- The state of the loop; the top of the stack is the head of the list. -/
structure Expansion (Role : Type) where
  stack : List (Frame Role)
  visited : Finset Role
  visiting : Finset Role
  output : List Role

/-! ## Termination measure -/

/-- A bag of head levels. -/
structure Hydra where
  heads : Multiset ℕ

instance : WellFoundedRelation Hydra :=
  invImage Hydra.heads ⟨Relation.CutExpand (· < ·), WellFounded.cutExpand wellFounded_lt⟩

/-- A frame has one head for itself and one for each parent left, the higher
the closer it is to the root. -/
def Frame.heads {Role : Type} (maxDepth : ℕ) (f : Frame Role) : Multiset ℕ :=
  Multiset.replicate (f.iter.length + 1) (maxDepth + 1 - f.depth)

def Expansion.hydra {Role : Type} (maxDepth : ℕ) (st : Expansion Role) : Hydra :=
  ⟨(st.stack.map (Frame.heads maxDepth)).sum⟩

/-- Chopping a head off the top frame and growing heads below its level
shrinks the hydra. -/
theorem cutExpand_top (level n : ℕ) (new rest : Multiset ℕ) (hnew : ∀ i ∈ new, i < level) :
    Relation.CutExpand (· < ·) (new + (Multiset.replicate n level + rest))
      (Multiset.replicate (n + 1) level + rest) := by
  refine ⟨new, level, hnew, ?_⟩
  rw [Multiset.replicate_succ, ← Multiset.singleton_add]
  abel

section Measure

variable {Role : Type} {st : Expansion Role} {current parent : Role} {depth maxDepth : ℕ}
  {iter parents : List Role} {stack : List (Frame Role)} {visited visiting : Finset Role}
  {output : List Role}

/-- A parent passed over: one head less. -/
theorem hydra_skip (hst : st.stack = ⟨current, depth, parent :: iter⟩ :: stack) :
    Relation.CutExpand (· < ·)
      (Expansion.hydra maxDepth
        ⟨⟨current, depth, iter⟩ :: stack, visited, visiting, output⟩).heads
      (st.hydra maxDepth).heads := by
  simp only [Expansion.hydra, hst, List.map_cons, List.sum_cons, Frame.heads, List.length_cons]
  have h := cutExpand_top (maxDepth + 1 - depth) (iter.length + 1) 0
    (stack.map (Frame.heads maxDepth)).sum (by simp)
  simpa using h

/-- A parent pushed: its heads grow one level down. -/
theorem hydra_push (hst : st.stack = ⟨current, depth, parent :: iter⟩ :: stack)
    (hdepth : ¬ depth + 1 > maxDepth) :
    Relation.CutExpand (· < ·)
      (Expansion.hydra maxDepth ⟨⟨parent, depth + 1, parents⟩ :: ⟨current, depth, iter⟩ :: stack,
        visited, visiting, output⟩).heads
      (st.hydra maxDepth).heads := by
  simp only [Expansion.hydra, hst, List.map_cons, List.sum_cons, Frame.heads, List.length_cons]
  apply cutExpand_top
  intro i hi
  rw [Multiset.eq_of_mem_replicate hi]
  omega

/-- A frame popped: its own head goes. -/
theorem hydra_pop (hst : st.stack = ⟨current, depth, []⟩ :: stack) :
    Relation.CutExpand (· < ·)
      (Expansion.hydra maxDepth ⟨stack, visited, visiting, output⟩).heads
      (st.hydra maxDepth).heads := by
  simp only [Expansion.hydra, hst, List.map_cons, List.sum_cons, Frame.heads, List.length_nil]
  have h := cutExpand_top (maxDepth + 1 - depth) 0 0
    (stack.map (Frame.heads maxDepth)).sum (by simp)
  simpa using h

end Measure

variable {S : Sig} {Role : Type} [DecidableEq Role]

/-- The loop of `expand_from`. -/
def expandLoop (h : RoleHierarchy S Role) (st : Expansion Role) :
    Fallible S Error (Expansion Role) :=
  match _hst : st.stack with
  | [] => pure st
  | ⟨current, depth, parent :: iter⟩ :: stack =>
    -- the bound is checked first, also for a parent met before
    if depth + 1 > h.maxDepth then
      throw (h.depthError parent)
    else if parent ∈ st.visiting then
      throw (h.cycleError parent)
    else if parent ∈ st.visited then
      expandLoop h { st with stack := ⟨current, depth, iter⟩ :: stack }
    else do
      let parents ← h.parentRoles parent
      expandLoop h
        { stack := ⟨parent, depth + 1, parents⟩ :: ⟨current, depth, iter⟩ :: stack
          visited := st.visited
          visiting := insert parent st.visiting
          output := st.output ++ [parent] }
  | ⟨current, _, []⟩ :: stack =>
    expandLoop h
      { stack := stack
        visited := insert current st.visited
        visiting := st.visiting.erase current
        output := st.output }
termination_by st.hydra h.maxDepth
decreasing_by
  · exact hydra_skip _hst
  · exact hydra_push _hst ‹_›
  · exact hydra_pop _hst

def expandFrom (h : RoleHierarchy S Role) (root : Role) (visited visiting : Finset Role)
    (output : List Role) : Fallible S Error (Expansion Role) := do
  let visiting := insert root visiting
  let output := output ++ [root]
  let parents ← h.parentRoles root
  expandLoop h ⟨[⟨root, 0, parents⟩], visited, visiting, output⟩

/-- A role and everything it inherits from. -/
def expandRoles (h : RoleHierarchy S Role) (root : Role) : Fallible S Error (List Role) := do
  let st ← expandFrom h root ∅ ∅ []
  return st.output

end RsTenant
