import RsTenant.Lib.Ordered
import RsTenant.Lib.Results
import RsTenant.Lib.Words
import RsTenant.Permission

/-! # Scopes inside one tenant

A scope path is a `/`-separated text; a root allows itself and everything
below it. A grant covers the whole tenant or a non-empty set of roots, kept
compacted: ascending, no root below another. `AccessScope.merge` is what a
query makes of the scopes of all grants that match it.
-/

namespace RsTenant

open Ordered

def maxScopePathLen : ℕ := 256

/-- What an accepted path looks like. -/
def PathValid (s : Str) : Prop :=
  s ≠ [] ∧ byteLen s ≤ maxScopePathLen ∧
    ∀ segment ∈ s.splitOn '/', segment ≠ [] ∧ ∀ c ∈ segment, idChar c

instance : DecidablePred PathValid := fun s =>
  inferInstanceAs (Decidable (s ≠ [] ∧ byteLen s ≤ maxScopePathLen ∧
    ∀ segment ∈ s.splitOn '/', segment ≠ [] ∧ ∀ c ∈ segment, idChar c))

/-- A hierarchical path such as `agent/123/store/456`. -/
structure ScopePath where
  val : Str
  valid : PathValid val
deriving DecidableEq

namespace ScopePath

theorem val_injective : Function.Injective ScopePath.val := by
  rintro ⟨a, ha⟩ ⟨b, hb⟩ h
  cases h
  rfl

/-- Paths are ordered as their texts. -/
instance : LinearOrder ScopePath := LinearOrder.lift' ScopePath.val val_injective

/-- The loop over the segments of a path. -/
def checkSegments : List Str → Except Error Unit
  | [] => .ok ()
  | segment :: segments =>
    if segment = [] then
      .error (.invalidScope "scope path contains empty segment")
    else if ¬ segment.all idChar then
      .error (.invalidScope "scope path contains invalid characters")
    else
      checkSegments segments

/-- The checks `parse` makes on the trimmed text. -/
def check (trimmed : Str) : Except Error Unit :=
  if trimmed = [] then
    .error (.invalidScope "scope path must not be empty")
  else if byteLen trimmed > maxScopePathLen then
    .error (.invalidScope s!"scope path length must be <= {maxScopePathLen}")
  else
    checkSegments (trimmed.splitOn '/')

theorem checkSegments_eq_ok {segments : List Str} :
    checkSegments segments = .ok () ↔
      ∀ segment ∈ segments, segment ≠ [] ∧ ∀ c ∈ segment, idChar c := by
  induction segments with
  | nil => simp [checkSegments]
  | cons segment segments ih =>
    rw [checkSegments, List.forall_mem_cons, ← ih]
    by_cases h1 : segment = []
    · simp [h1]
    · by_cases h2 : segment.all idChar
      · have h2' : ∀ c ∈ segment, idChar c := by simpa using h2
        rw [if_neg h1, if_neg (by simp [h2])]
        exact ⟨fun h => ⟨⟨h1, h2'⟩, h⟩, fun h => h.2⟩
      · rw [if_neg h1, if_pos h2]
        constructor
        · intro h
          cases h
        · rintro ⟨⟨-, h⟩, -⟩
          exact absurd (by simpa using h) h2

/-- The checks pass on exactly the valid texts. -/
theorem check_eq_ok {s : Str} : check s = .ok () ↔ PathValid s := by
  unfold check PathValid
  by_cases h1 : s = []
  · simp [h1]
  · by_cases h2 : byteLen s > maxScopePathLen
    · rw [if_neg h1, if_pos h2]
      constructor
      · intro h
        cases h
      · intro h
        exact absurd h.2.1 (not_le.mpr h2)
    · rw [if_neg h1, if_neg h2, checkSegments_eq_ok]
      exact ⟨fun h => ⟨h1, not_lt.mp h2, h⟩, fun h => h.2.2⟩

def parse (value : Str) : Except Error ScopePath :=
  match h : check (trim value) with
  | .ok () => .ok ⟨trim value, check_eq_ok.mp h⟩
  | .error e => .error e

/-- A text parses to `p` exactly when it is `p`'s text with whitespace around
it. -/
theorem parse_eq_ok {value : Str} {p : ScopePath} : parse value = .ok p ↔ trim value = p.val := by
  unfold parse
  split
  · constructor
    · intro he
      rw [← Except.ok.inj he]
    · intro he
      exact congrArg Except.ok (val_injective he)
  · rename_i e h
    constructor
    · intro he
      cases he
    · intro he
      have hok : check (trim value) = .ok () := check_eq_ok.mpr (he ▸ p.valid)
      rw [h] at hok
      cases hok

/-- A path's text is its segments with `/` between them, so no whitespace is
in it. -/
theorem not_whitespace (p : ScopePath) : ∀ c ∈ p.val, isWhitespace c = false := by
  intro c hc
  rcases Words.eq_sep_or_mem_word '/' hc with rfl | ⟨segment, hsegment, hc⟩
  · decide
  · exact idChar_not_whitespace ((p.valid.2.2 segment hsegment).2 c hc)

/-- A path's text parses to the path. -/
@[simp] theorem parse_val (p : ScopePath) : parse p.val = .ok p :=
  parse_eq_ok.mpr (trim_eq_self p.not_whitespace)

/-- The path is a strict ancestor of `other`. -/
def isAncestorOf (self other : ScopePath) : Bool :=
  self ≠ other && (self.val ++ ['/']).isPrefixOf other.val

/-- A root at `self` gives access to `target`. -/
def allows (self target : ScopePath) : Bool := self = target || self.isAncestorOf target

theorem allows_iff {a b : ScopePath} : a.allows b ↔ a = b ∨ a.val ++ ['/'] <+: b.val := by
  have hne : ∀ {a b : ScopePath}, a.val ++ ['/'] <+: b.val → a ≠ b := by
    rintro a b h rfl
    have hlen := h.length_le
    rw [List.length_append, List.length_singleton] at hlen
    omega
  simp only [allows, isAncestorOf, Bool.or_eq_true, Bool.and_eq_true, decide_eq_true_eq,
    List.isPrefixOf_iff_prefix]
  exact or_congr_right ⟨fun h => h.2, fun h => ⟨hne h, h⟩⟩

end ScopePath

/-- Allowing is reflexive and transitive, and a path comes before everything
below it. -/
theorem ScopePath.allows_covering : Covering ScopePath.allows where
  refl a := by simp [ScopePath.allows]
  trans {a b c} hab hbc := by
    rcases ScopePath.allows_iff.mp hab with rfl | hab
    · exact hbc
    · rcases ScopePath.allows_iff.mp hbc with rfl | hbc
      · exact ScopePath.allows_iff.mpr (.inr hab)
      · have hb : b.val <+: c.val := (List.prefix_append b.val ['/']).trans hbc
        exact ScopePath.allows_iff.mpr (.inr (hab.trans hb))
  le {a b} hab := by
    rcases ScopePath.allows_iff.mp hab with rfl | hab
    · exact le_refl a
    · have hpre : a.val <+: b.val := (List.prefix_append a.val ['/']).trans hab
      exact le_of_not_gt fun h : b.val < a.val => hpre.le h

/-- Remove duplicates and every path below another one. -/
def compactPaths (paths : List ScopePath) : List ScopePath :=
  let ordered := collect paths
  ordered.foldl
    (fun compacted path =>
      if compacted.any fun root => root.allows path then compacted else compacted ++ [path]) []

/-- Compaction is the library's scan, with `allows` for the covering. -/
theorem compactPaths_eq_roots (paths : List ScopePath) :
    compactPaths paths = roots ScopePath.allows paths := rfl

/-! ## Roots and grants -/

/-- A non-empty compacted set of roots. -/
structure ScopeRoots where
  roots : List ScopePath
  nonempty : roots ≠ []
  compacted : Antichain ScopePath.allows roots
deriving DecidableEq

namespace ScopeRoots

theorem roots_injective : Function.Injective ScopeRoots.roots := by
  rintro ⟨a, _, _⟩ ⟨b, _, _⟩ h
  cases h
  rfl

def new (roots : List ScopePath) : Except Error ScopeRoots :=
  if h : roots = [] then
    .error (.invalidScope "grant scope paths must not be empty")
  else
    .ok { roots := compactPaths roots
          nonempty := fun hnil => h (ScopePath.allows_covering.roots_eq_nil.mp hnil)
          compacted := ScopePath.allows_covering.roots_antichain roots }

theorem new_eq_ok {paths : List ScopePath} {r : ScopeRoots} :
    new paths = .ok r ↔ paths ≠ [] ∧ compactPaths paths = r.roots := by
  unfold new
  by_cases h : paths = []
  · simp [h]
  · rw [dif_neg h]
    constructor
    · intro he
      cases he
      exact ⟨h, rfl⟩
    · intro he
      exact congrArg Except.ok (roots_injective he.2)

theorem new_of_ne_nil {paths : List ScopePath} (h : paths ≠ []) : ∃ r, new paths = .ok r := by
  unfold new
  rw [dif_neg h]
  exact ⟨_, rfl⟩

/-- Roots are rebuilt from their own list unchanged. -/
@[simp] theorem new_roots (r : ScopeRoots) : new r.roots = .ok r :=
  new_eq_ok.mpr ⟨r.nonempty, ScopePath.allows_covering.roots_eq_self r.compacted⟩

/-- Some root gives access to `target`. -/
def Covers (r : ScopeRoots) (target : ScopePath) : Prop := ∃ p ∈ r.roots, p.allows target

end ScopeRoots

/-- The scope one role assignment grants. -/
inductive GrantScope where
  | tenant
  | paths (roots : ScopeRoots)
deriving DecidableEq

namespace GrantScope

def ofPaths (roots : List ScopePath) : Except Error GrantScope :=
  GrantScope.paths <$> ScopeRoots.new roots

/-- The roots of a path grant. -/
def roots : GrantScope → List ScopePath
  | .tenant => []
  | .paths r => r.roots

/-- The grant gives access to `target`. -/
def Covers : GrantScope → ScopePath → Prop
  | .tenant, _ => True
  | .paths r, target => r.Covers target

theorem covers_iff (g : GrantScope) (target : ScopePath) :
    g.Covers target ↔ g = .tenant ∨ ∃ root ∈ g.roots, root.allows target = true := by
  cases g with
  | tenant => simp [Covers]
  | paths r => simp [Covers, ScopeRoots.Covers, roots]

end GrantScope

/-! ## The merged scope of a query -/

inductive AccessScope where
  | none
  | tenant (tenant : TenantId)
  | paths (tenant : TenantId) (roots : List ScopePath)
deriving DecidableEq

namespace AccessScope

/-- The loop of `merge`, with the roots collected so far. -/
def mergeLoop (tenant : TenantId) : List ScopePath → List GrantScope → AccessScope
  | roots, [] => if roots = [] then .none else .paths tenant (compactPaths roots)
  | _, .tenant :: _ => .tenant tenant
  | roots, .paths grantRoots :: grants => mergeLoop tenant (roots ++ grantRoots.roots) grants

def merge (tenant : TenantId) (grants : List GrantScope) : AccessScope :=
  mergeLoop tenant [] grants

def allowsPath : AccessScope → ScopePath → Bool
  | .none, _ => false
  | .tenant _, _ => true
  | .paths _ roots, target => roots.any fun root => root.allows target

theorem mergeLoop_eq (t : TenantId) (roots : List ScopePath) (grants : List GrantScope) :
    mergeLoop t roots grants =
      if GrantScope.tenant ∈ grants then .tenant t
      else if roots ++ grants.flatMap GrantScope.roots = [] then .none
      else .paths t (compactPaths (roots ++ grants.flatMap GrantScope.roots)) := by
  induction grants generalizing roots with
  | nil => simp [mergeLoop]
  | cons g grants ih =>
    cases g with
    | tenant => simp [mergeLoop]
    | paths r => simp [mergeLoop, ih, GrantScope.roots]

/-- Merging takes one tenant grant if there is one, and otherwise compacts all
roots. -/
theorem merge_eq (t : TenantId) (grants : List GrantScope) :
    merge t grants =
      if GrantScope.tenant ∈ grants then .tenant t
      else if grants = [] then .none
      else .paths t (compactPaths (grants.flatMap GrantScope.roots)) := by
  rw [merge, mergeLoop_eq]
  by_cases ht : GrantScope.tenant ∈ grants
  · simp [ht]
  -- no path grant is without roots
  · have hnil : grants.flatMap GrantScope.roots = [] ↔ grants = [] := by
      constructor
      · intro h
        cases grants with
        | nil => rfl
        | cons g grants =>
          cases g with
          | tenant => simp at ht
          | paths r =>
            simp only [List.flatMap_cons, List.append_eq_nil_iff] at h
            exact absurd h.1 r.nonempty
      · rintro rfl
        rfl
    simp [ht, hnil]

/-- The merged scope depends only on which scopes were granted. -/
theorem merge_congr (t : TenantId) {grants grants' : List GrantScope}
    (h : ∀ g, g ∈ grants ↔ g ∈ grants') : merge t grants = merge t grants' := by
  have hnil : grants = [] ↔ grants' = [] := by
    simp only [List.eq_nil_iff_forall_not_mem, h]
  have hroots : compactPaths (grants.flatMap GrantScope.roots) =
      compactPaths (grants'.flatMap GrantScope.roots) :=
    ScopePath.allows_covering.roots_congr fun a => by simp [h]
  rw [merge_eq, merge_eq, hroots]
  simp only [h, hnil]

/-- Without a grant for the whole tenant, coverage is up to the joined roots. -/
theorem covers_iff_roots {grants : List GrantScope} (htenant : GrantScope.tenant ∉ grants)
    {target : ScopePath} :
    (∃ g ∈ grants, g.Covers target) ↔
      ∃ r ∈ grants.flatMap GrantScope.roots, r.allows target = true := by
  constructor
  · rintro ⟨g, hg, hcov⟩
    cases g with
    | tenant => exact absurd hg htenant
    | paths r =>
      rcases hcov with ⟨p, hp, hallow⟩
      exact ⟨p, List.mem_flatMap.mpr ⟨_, hg, hp⟩, hallow⟩
  · rintro ⟨p, hp, hallow⟩
    rcases List.mem_flatMap.mp hp with ⟨g, hg, hpg⟩
    cases g with
    | tenant => exact absurd hg htenant
    | paths r => exact ⟨_, hg, p, hpg, hallow⟩

/-- The merged scope allows what some grant covers. -/
theorem allowsPath_merge (t : TenantId) (grants : List GrantScope) (target : ScopePath) :
    (merge t grants).allowsPath target = true ↔ ∃ g ∈ grants, g.Covers target := by
  rw [merge_eq]
  by_cases ht : GrantScope.tenant ∈ grants
  · rw [if_pos ht]
    exact ⟨fun _ => ⟨.tenant, ht, trivial⟩, fun _ => rfl⟩
  · rw [if_neg ht]
    rw [covers_iff_roots ht]
    by_cases hnil : grants = []
    · simp [hnil, allowsPath]
    · -- compacting the joined roots keeps what they cover
      rw [if_neg hnil]
      simp only [allowsPath, List.any_eq_true]
      exact ScopePath.allows_covering.roots_cover

theorem merge_eq_tenant (t : TenantId) (grants : List GrantScope) :
    merge t grants = .tenant t ↔ GrantScope.tenant ∈ grants := by
  rw [merge_eq]
  split
  · simp_all
  · split <;> simp_all

/-- A merge speaks of the tenant it was made for. -/
theorem eq_of_merge_eq_tenant {t t' : TenantId} {grants : List GrantScope}
    (h : merge t grants = .tenant t') : t' = t := by
  rw [merge_eq] at h
  split at h
  · injection h with h
    exact h.symm
  · split at h <;> cases h

theorem merge_eq_none (t : TenantId) (grants : List GrantScope) :
    merge t grants = .none ↔ grants = [] := by
  rw [merge_eq]
  split
  · rename_i h
    simp [List.ne_nil_of_mem h]
  · split <;> simp_all

/-- The tenant a scope speaks about. -/
def tenant? : AccessScope → Option TenantId
  | .none => Option.none
  | .tenant t => some t
  | .paths t _ => some t

end AccessScope

end RsTenant
