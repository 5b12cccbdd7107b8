import RsTenant.Expansion

/-! # Role expansion as a recursive search

`search` is the depth-first search that one would write down: for each parent
in turn, fail if the path to it is too long or closes a cycle, skip it if it has
been searched, else search its own parents with one level less. The roles on
the path are an argument that a call hands down, so nothing is ever taken out
of them again.

`expandRoles` keeps the half-consumed parent lists on a stack of its own and
one mutable set for the path. It is the same program (`expandRoles_eq_search`):
the same reads in the same order, whatever they answer, and the same result or
error.
-/

namespace RsTenant

open Interact

variable {S : Sig} {Role : Type} [DecidableEq Role]

/-- What a search has found: the roles whose parents have all been searched,
and all roles in the order in which they were met. -/
structure Found (Role : Type) where
  searched : Finset Role
  met : List Role

/-- Search a list of parents, which may go `levels` edges on. -/
def search (h : RoleHierarchy S Role) :
    (levels : ℕ) → (path : Finset Role) → (parents : List Role) → Found Role →
      Fallible S Error (Found Role)
  | _, _, [], found => pure found
  | 0, _, parent :: _, _ => throw (h.depthError parent)
  | levels + 1, path, parent :: parents, found =>
    if parent ∈ path then
      throw (h.cycleError parent)
    else if parent ∈ found.searched then
      search h (levels + 1) path parents found
    else do
      let grandparents ← h.parentRoles parent
      let inner ← search h levels (insert parent path) grandparents
        { found with met := found.met ++ [parent] }
      search h (levels + 1) path parents
        { inner with searched := insert parent inner.searched }
termination_by levels _ parents _ => (levels, parents.length)

/-- A role and everything it inherits from, by recursive search. -/
def searchRoles (h : RoleHierarchy S Role) (root : Role) : Fallible S Error (List Role) := do
  let parents ← h.parentRoles root
  let found ← search h h.maxDepth {root} parents ⟨∅, [root]⟩
  return found.met

/-- The loop, started on a frame, searches the parents left in the frame, with
the path in `visiting`; then it pops the frame and goes on with the others. -/
theorem expandLoop_frame (h : RoleHierarchy S Role) (levels : ℕ) (path : Finset Role)
    (parents : List Role) (found : Found Role) (current : Role) (depth : ℕ)
    (hdepth : depth + levels = h.maxDepth) (stack : List (Frame Role)) :
    expandLoop h ⟨⟨current, depth, parents⟩ :: stack, found.searched, path, found.met⟩ =
      search h levels path parents found >>= fun found' =>
        expandLoop h ⟨stack, insert current found'.searched, path.erase current, found'.met⟩ := by
  -- the induction is on the calls of the search
  induction levels, path, parents, found using search.induct generalizing current depth stack with
  | case1 levels path found =>
    rw [expandLoop_pop rfl, search, pure_bind]
  | case2 path parent parents found =>
    rw [expandLoop_parent rfl, search, if_pos (by omega)]
    rfl
  | case3 levels path parent parents found hpath =>
    rw [expandLoop_parent rfl, search, if_neg (by omega), if_pos hpath, if_pos hpath]
    rfl
  | case4 levels path parent parents found hpath hsearched ih =>
    rw [expandLoop_parent rfl, search, if_neg (by omega), if_neg hpath, if_neg hpath,
      if_pos hsearched, if_pos hsearched]
    exact ih current depth hdepth stack
  | case5 levels path parent parents found hpath hsearched ihinner ihrest =>
    rw [expandLoop_parent rfl, search, if_neg (by omega), if_neg hpath, if_neg hpath,
      if_neg hsearched, if_neg hsearched, bind_assoc]
    refine congrArg (h.parentRoles parent >>= ·) (funext fun grandparents => ?_)
    have hinner := ihinner grandparents parent (depth + 1) (by omega)
      (⟨current, depth, parents⟩ :: stack)
    rw [bind_assoc]
    refine hinner.trans ?_
    refine congrArg (search h levels _ grandparents _ >>= ·) (funext fun inner => ?_)
    -- the path below the parent is the path again
    rw [Finset.erase_insert hpath]
    exact ihrest inner current depth hdepth stack

/-- Expanding a role with a stack is searching it recursively: as programs, with
the same reads in the same order and the same errors, whatever is read. -/
theorem expandRoles_eq_search (h : RoleHierarchy S Role) (root : Role) :
    expandRoles h root = searchRoles h root := by
  have hloop : ∀ parents, expandLoop h ⟨[⟨root, 0, parents⟩], ∅, {root}, [root]⟩ =
      search h h.maxDepth {root} parents ⟨∅, [root]⟩ >>= fun found =>
        pure ⟨[], insert root found.searched, Finset.erase {root} root, found.met⟩ := by
    intro parents
    rw [expandLoop_frame h h.maxDepth {root} parents ⟨∅, [root]⟩ root 0 (Nat.zero_add _)
      []]
    exact congrArg (search h h.maxDepth {root} parents ⟨∅, [root]⟩ >>= ·)
      (funext fun found => expandLoop_done rfl)
  unfold expandRoles expandFrom searchRoles
  rw [bind_assoc]
  refine congrArg (h.parentRoles root >>= ·) (funext fun parents => ?_)
  show (expandLoop h ⟨[⟨root, 0, parents⟩], ∅, {root}, [root]⟩ >>= fun st => pure st.output) = _
  rw [hloop, bind_assoc]
  rfl

end RsTenant
