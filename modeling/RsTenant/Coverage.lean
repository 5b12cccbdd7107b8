import Mathlib.Data.Set.Prod
import Mathlib.Data.List.Infix
import Mathlib.Order.Preorder.Chain
import RsTenant.Grammar

/-! # What covers what

Two tests decide an access: whether a granted permission matches a required
one, and whether a root allows a path. Both are syntactic. A permission stands
for a set of concrete permissions and the first test is inclusion of these sets
(`matches_iff_extent`); a path stands for its list of segments and the second
test is the prefix order on lists (`allows_iff_segments`). That both are partial
orders is read off these.
-/

namespace RsTenant

open Words

/-! ## Parts -/

namespace Part

variable {kind : PartKind} {g r c : Part kind}

/-- The test on one part of a permission. -/
def Covers (g r : Part kind) : Prop := g.isWildcard = true ∨ g = r

/-- The concrete parts that a part stands for. -/
def extent (p : Part kind) : Set (Part kind) := {c | c.isWildcard = false ∧ p.Covers c}

theorem eq_of_wildcard (hg : g.isWildcard = true) (hr : r.isWildcard = true) : g = r := by
  have hgval : g.val = ['*'] := by simpa [isWildcard] using hg
  have hrval : r.val = ['*'] := by simpa [isWildcard] using hr
  exact val_injective (hgval.trans hrval.symm)

/-- Covering is transitive. -/
theorem Covers.trans (hgr : g.Covers r) (hrc : r.Covers c) : g.Covers c := by
  rcases hgr with hg | rfl
  · exact .inl hg
  · exact hrc

/-- Parts that cover each other are the same. -/
theorem Covers.antisymm (hgr : g.Covers r) (hrg : r.Covers g) : g = r := by
  rcases hgr with hg | hgr
  · rcases hrg with hr | hrg
    · exact eq_of_wildcard hg hr
    · exact hrg.symm
  · exact hgr

/-- There is more than one concrete part, so no concrete part covers them all. -/
theorem exists_concrete_ne (g : Part kind) : ∃ c : Part kind, c.isWildcard = false ∧ c ≠ g := by
  have ha : PartValid kind.allowSlash ['a'] := by cases kind <;> decide
  have hb : PartValid kind.allowSlash ['b'] := by cases kind <;> decide
  by_cases hg : g.val = ['a']
  · refine ⟨⟨['b'], hb⟩, rfl, ?_⟩
    rintro rfl
    have hab : ['b'] = ['a'] := hg
    simp at hab
  · refine ⟨⟨['a'], ha⟩, rfl, ?_⟩
    rintro rfl
    exact hg rfl

/-- Every part stands for something. -/
theorem extent_nonempty (p : Part kind) : p.extent.Nonempty := by
  cases hp : p.isWildcard with
  | true =>
    obtain ⟨c, hc, -⟩ := exists_concrete_ne p
    exact ⟨c, hc, .inl hp⟩
  | false => exact ⟨p, hp, .inr rfl⟩

/-- One part covers another when it stands for more. -/
theorem covers_iff_extent : g.Covers r ↔ r.extent ⊆ g.extent := by
  constructor
  · intro hgr c hc
    exact ⟨hc.1, hgr.trans hc.2⟩
  · intro hsub
    cases hr : r.isWildcard with
    | true =>
      -- a concrete part other than `g` separates the two unless `g` is a wildcard
      obtain ⟨c, hc, hne⟩ := exists_concrete_ne g
      rcases (hsub ⟨hc, .inl hr⟩).2 with hg | hgc
      · exact .inl hg
      · exact absurd hgc.symm hne
    | false => exact (hsub ⟨hr, .inr rfl⟩).2

end Part

/-! ## Permissions -/

namespace Permission

variable {g r c : Permission}

/-- With wildcards on, a permission matches part by part. -/
theorem matches_on_iff :
    g.matches r true = true ↔ g.resource.Covers r.resource ∧ g.action.Covers r.action := by
  simp [«matches», Part.Covers]

/-- Without wildcards only the same concrete permission matches. -/
theorem matches_off_iff : g.matches r false = true ↔ g = r ∧ g.hasWildcard = false := by
  cases hg : g.hasWildcard <;> simp [«matches», hg]

/-- The concrete permissions that a permission stands for. -/
def extent (p : Permission) : Set (Resource × Action) := p.resource.extent ×ˢ p.action.extent

/-- The extent holds the concrete permissions that are matched. -/
theorem mem_extent :
    (c.resource, c.action) ∈ g.extent ↔ c.hasWildcard = false ∧ g.matches c true = true := by
  rw [extent, Set.mem_prod, matches_on_iff, hasWildcard, Bool.or_eq_false_iff]
  constructor
  · rintro ⟨⟨hresource, hr⟩, haction, ha⟩
    exact ⟨⟨hresource, haction⟩, hr, ha⟩
  · rintro ⟨⟨hresource, haction⟩, hr, ha⟩
    exact ⟨⟨hresource, hr⟩, haction, ha⟩

/-- Matching is inclusion of what the permissions stand for. -/
theorem matches_iff_extent : g.matches r true = true ↔ r.extent ⊆ g.extent := by
  have hne : r.extent.Nonempty := r.resource.extent_nonempty.prod r.action.extent_nonempty
  rw [matches_on_iff, Part.covers_iff_extent, Part.covers_iff_extent, extent, extent,
    Set.prod_subset_prod_iff' hne]

theorem extent_subset_iff :
    r.extent ⊆ g.extent ↔ ∀ c : Permission, c.hasWildcard = false →
      r.matches c true = true → g.matches c true = true := by
  constructor
  · intro hsub c hc hr
    exact (mem_extent.mp (hsub (mem_extent.mpr ⟨hc, hr⟩))).2
  · rintro h ⟨resource, action⟩ hmem
    have hr := mem_extent (c := ⟨resource, action⟩).mp hmem
    exact mem_extent (c := ⟨resource, action⟩).mpr ⟨hr.1, h _ hr.1 hr.2⟩

/-- Matching orders the permissions. -/
theorem matches_partialOrder :
    IsPartialOrder Permission fun g r => g.matches r true = true where
  refl g := matches_iff_extent.mpr subset_rfl
  trans g r c hgr hrc :=
    matches_iff_extent.mpr ((matches_iff_extent.mp hrc).trans (matches_iff_extent.mp hgr))
  antisymm g r hgr hrg := by
    obtain ⟨hresource, haction⟩ := matches_on_iff.mp hgr
    obtain ⟨hresource', haction'⟩ := matches_on_iff.mp hrg
    have hres : g.resource = r.resource := hresource.antisymm hresource'
    have hact : g.action = r.action := haction.antisymm haction'
    cases g
    cases r
    cases hres
    cases hact
    rfl

end Permission

/-- With wildcards on, one permission matches another when it matches every
concrete permission the other matches, and this is a partial order; with
wildcards off only a concrete permission matches, and only itself. -/
theorem wildcard_subsumption :
    (∀ g r : Permission, g.matches r true = true ↔ ∀ c : Permission, c.hasWildcard = false →
      r.matches c true = true → g.matches c true = true) ∧
    (IsPartialOrder Permission fun g r => g.matches r true = true) ∧
    (∀ g r : Permission, g.matches r false = true ↔ g = r ∧ g.hasWildcard = false) ∧
    (∀ g r : Permission, g.matches r false = true → g.matches r true = true) ∧
    ∀ g r : Permission, g.hasWildcard = true ∨ r.hasWildcard = true →
      g.matches r false = false := by
  refine ⟨?_, Permission.matches_partialOrder, ?_, ?_, ?_⟩
  · intro g r
    rw [Permission.matches_iff_extent, Permission.extent_subset_iff]
  · intro g r
    exact Permission.matches_off_iff
  · intro g r h
    exact Permission.matches_mono (by simp) h
  · intro g r hwild
    rw [Bool.eq_false_iff]
    intro h
    obtain ⟨rfl, hconcrete⟩ := Permission.matches_off_iff.mp h
    rcases hwild with hwild | hwild
    · rw [hconcrete] at hwild
      cases hwild
    · rw [hconcrete] at hwild
      cases hwild

/-! ## Paths -/

namespace ScopePath

variable {a b : ScopePath}

/-- The `/`-separated segments of a path. -/
def segments (p : ScopePath) : List Str := p.val.splitOn '/'

/-- A path is its segments. -/
theorem segments_injective : Function.Injective segments :=
  splitOn_injective.comp val_injective

/-- A root allows the paths whose segments go on from its own. -/
theorem allows_iff_segments : a.allows b = true ↔ a.segments <+: b.segments := by
  rw [allows_iff, segments, segments, splitOn_prefix_iff, val_injective.eq_iff]

theorem isAncestorOf_iff_allows : a.isAncestorOf b = true ↔ a.allows b = true ∧ a ≠ b := by
  simp only [allows, isAncestorOf, Bool.or_eq_true, Bool.and_eq_true, decide_eq_true_eq]
  tauto

theorem isAncestorOf_iff_segments :
    a.isAncestorOf b = true ↔ a.segments <+: b.segments ∧ a.segments ≠ b.segments := by
  rw [isAncestorOf_iff_allows, allows_iff_segments, segments_injective.ne_iff]

/-- Allowing orders the paths. -/
theorem allows_partialOrder : IsPartialOrder ScopePath fun a b => a.allows b = true where
  refl a := allows_iff_segments.mpr List.prefix_rfl
  trans a b c hab hbc :=
    allows_iff_segments.mpr ((allows_iff_segments.mp hab).trans (allows_iff_segments.mp hbc))
  antisymm a b hab hba := by
    have hle := (allows_iff_segments.mp hab).length_le
    have hge := (allows_iff_segments.mp hba).length_le
    exact segments_injective ((allows_iff_segments.mp hab).eq_of_length (by omega))

/-- Two paths above a third are one above the other. -/
theorem ancestors_chain (p : ScopePath) :
    IsChain (fun a b : ScopePath => a.allows b = true)
      {a : ScopePath | a.isAncestorOf p = true} := by
  intro a ha b hb _
  have hpa := (isAncestorOf_iff_segments.mp ha).1
  have hpb := (isAncestorOf_iff_segments.mp hb).1
  rcases List.prefix_or_prefix_of_prefix hpa hpb with h | h
  · exact .inl (allows_iff_segments.mpr h)
  · exact .inr (allows_iff_segments.mpr h)

/-- An ancestor is listed before its descendants. -/
theorem lt_of_isAncestorOf (h : a.isAncestorOf b = true) : a < b := by
  obtain ⟨hallows, hne⟩ := isAncestorOf_iff_allows.mp h
  exact lt_of_le_of_ne (allows_covering.le hallows) hne

end ScopePath

/-- Allowing is the prefix order on segments and being an ancestor its strict
part: a partial order in which what lies above a path is a chain, and which the
order of the texts extends. -/
theorem path_prefix_order :
    (∀ a b : ScopePath, a.allows b = true ↔ a.segments <+: b.segments) ∧
    (∀ a b : ScopePath, a.isAncestorOf b = true ↔
      a.segments <+: b.segments ∧ a.segments ≠ b.segments) ∧
    (IsPartialOrder ScopePath fun a b => a.allows b = true) ∧
    (∀ p : ScopePath, IsChain (fun a b : ScopePath => a.allows b = true)
      {a : ScopePath | a.isAncestorOf p = true}) ∧
    ∀ a b : ScopePath, a.isAncestorOf b = true → a < b := by
  refine ⟨?_, ?_, ScopePath.allows_partialOrder, ScopePath.ancestors_chain, ?_⟩
  · intro a b
    exact ScopePath.allows_iff_segments
  · intro a b
    exact ScopePath.isAncestorOf_iff_segments
  · intro a b h
    exact ScopePath.lt_of_isAncestorOf h

/-- A common beginning of the texts is not enough. -/
example :
    ScopePath.allows ⟨['a', '/', '1'], by decide⟩ ⟨['a', '/', '1', '0'], by decide⟩ = false := by
  decide

end RsTenant
