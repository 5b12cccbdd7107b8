import Mathlib.Data.List.Basic
import RsTenant.Ids

/-! # Permissions

A permission is a resource and an action, both normalised to lower case. Each
part is either the whole wildcard `*` or a concrete word; a wildcard part of a
granted permission covers any part of a required one, but only when wildcards
are switched on.
-/

namespace RsTenant

/-- `MAX_PERMISSION_PART_LEN`, in bytes. -/
def maxPermissionPartLen : ℕ := 128

/-- Trim a permission part and lower its ASCII letters. -/
def normalize (value : Str) : Str := (trim value).map Char.toLower

/-- The alphabet of a concrete part. -/
def partChar (c : Char) : Bool :=
  ('a' ≤ c && c ≤ 'z') || ('0' ≤ c && c ≤ '9') || c = '_' || c = '-'

/-- The loop over the `/`-separated segments of `value`. -/
def validateSegments (value : Str) (kind : String) (allowSlash : Bool) :
    List Str → Except Error Unit
  | [] => .ok ()
  | segment :: segments =>
    if segment = [] then
      .error (.invalidPermission s!"{kind} contains empty segment")
    else if ¬ allowSlash ∧ segment ≠ value then
      .error (.invalidPermission s!"{kind} must not contain '/'")
    else if ¬ segment.all partChar then
      .error (.invalidPermission s!"{kind} contains invalid characters")
    else
      validateSegments value kind allowSlash segments

/-- The check of a part: not empty, not too long, and `*` or words of the alphabet. -/
def validateSegment (value : Str) (kind : String) (allowSlash : Bool) : Except Error Unit :=
  if value = [] then
    .error (.invalidPermission s!"{kind} must not be empty")
  else if byteLen value > maxPermissionPartLen then
    .error (.invalidPermission s!"{kind} length must be <= {maxPermissionPartLen}")
  else if value = ['*'] then
    .ok ()
  else
    validateSegments value kind allowSlash (value.splitOn '/')

/-- What an accepted part looks like. -/
def PartValid (allowSlash : Bool) (value : Str) : Prop :=
  value ≠ [] ∧ byteLen value ≤ maxPermissionPartLen ∧
    (value = ['*'] ∨ ∀ segment ∈ value.splitOn '/',
      segment ≠ [] ∧ (allowSlash ∨ segment = value) ∧ ∀ c ∈ segment, partChar c)

instance (allowSlash : Bool) : DecidablePred (PartValid allowSlash) := fun value =>
  inferInstanceAs (Decidable (value ≠ [] ∧ byteLen value ≤ maxPermissionPartLen ∧
    (value = ['*'] ∨ ∀ segment ∈ value.splitOn '/',
      segment ≠ [] ∧ (allowSlash ∨ segment = value) ∧ ∀ c ∈ segment, partChar c)))

/-- The loop over the words succeeds when every word passes. -/
theorem validateSegments_eq_ok {value : Str} {kind : String} {allowSlash : Bool}
    {segments : List Str} :
    validateSegments value kind allowSlash segments = .ok () ↔
      ∀ segment ∈ segments,
        segment ≠ [] ∧ (allowSlash ∨ segment = value) ∧ ∀ c ∈ segment, partChar c := by
  induction segments with
  | nil => simp [validateSegments]
  | cons segment segments ih =>
    rw [validateSegments, List.forall_mem_cons, ← ih]
    -- the checks of one segment, in the order in which they are made
    by_cases h1 : segment = []
    · simp [h1]
    · by_cases h2 : ¬ allowSlash ∧ segment ≠ value
      · rw [if_neg h1, if_pos h2]
        constructor
        · intro h
          cases h
        · rintro ⟨⟨-, h | h, -⟩, -⟩
          · exact absurd h h2.1
          · exact absurd h h2.2
      · have h2' : allowSlash ∨ segment = value := by
          by_contra hn
          exact h2 ⟨fun h => hn (.inl h), fun h => hn (.inr h)⟩
        by_cases h3 : segment.all partChar
        · have h3' : ∀ c ∈ segment, partChar c := by simpa using h3
          rw [if_neg h1, if_neg h2, if_neg (by simp [h3])]
          exact ⟨fun h => ⟨⟨h1, h2', h3'⟩, h⟩, fun h => h.2⟩
        · rw [if_neg h1, if_neg h2, if_pos h3]
          constructor
          · intro h
            cases h
          · rintro ⟨⟨-, -, h⟩, -⟩
            exact absurd (by simpa using h) h3

/-- The check accepts exactly the valid parts. -/
theorem validateSegment_eq_ok {value : Str} {kind : String} {allowSlash : Bool} :
    validateSegment value kind allowSlash = .ok () ↔ PartValid allowSlash value := by
  unfold validateSegment PartValid
  by_cases h1 : value = []
  · simp [h1]
  · by_cases h2 : byteLen value > maxPermissionPartLen
    · rw [if_neg h1, if_pos h2]
      constructor
      · intro h
        cases h
      · intro h
        exact absurd h.2.1 (not_le.mpr h2)
    · rw [if_neg h1, if_neg h2]
      by_cases h3 : value = ['*']
      · simp only [h3, if_true, true_iff]
        exact ⟨by simp, h3 ▸ not_lt.mp h2, .inl trivial⟩
      · rw [if_neg h3, validateSegments_eq_ok]
        exact ⟨fun h => ⟨h1, not_lt.mp h2, .inr h⟩, fun h => h.2.2.resolve_left h3⟩

/-- Resources and actions are parsed by one macro. -/
inductive PartKind where
  | resource | action
deriving DecidableEq, Repr

/-- The name that error messages give the part. -/
def PartKind.text : PartKind → String
  | .resource => "resource"
  | .action => "action"

/-- Only a resource may have several words. -/
def PartKind.allowSlash : PartKind → Bool
  | .resource => true
  | .action => false

/-- An accepted part of one kind. -/
structure Part (kind : PartKind) where
  val : Str
  valid : PartValid kind.allowSlash val
deriving DecidableEq

abbrev Resource : Type := Part .resource
abbrev Action : Type := Part .action

namespace Part

variable {kind : PartKind}

def parse (kind : PartKind) (value : Str) : Except Error (Part kind) :=
  match h : validateSegment (normalize value) kind.text kind.allowSlash with
  | .ok () => .ok ⟨normalize value, validateSegment_eq_ok.mp h⟩
  | .error e => .error e

/-- The part is the whole wildcard. -/
def isWildcard (p : Part kind) : Bool := p.val = ['*']

end Part

/-- `Resource::parse`. -/
def Resource.parse (value : Str) : Except Error Resource := Part.parse .resource value
/-- `Action::parse`. -/
def Action.parse (value : Str) : Except Error Action := Part.parse .action value

/-- A normalised `resource:action` permission. -/
structure Permission where
  resource : Resource
  action : Action
deriving DecidableEq

instance : Inhabited Permission := ⟨⟨⟨['*'], by decide⟩, ⟨['*'], by decide⟩⟩⟩

namespace Permission

/-- The normalised text is cut at every `:`, and there has to be exactly one. -/
def parse (value : Str) : Except Error Permission :=
  match (normalize value).splitOn ':' with
  | [] | [_] =>
    .error (.invalidPermission "permission must be in resource:action format")
  | [resource, action] => do
    let resource ← Resource.parse resource
    let action ← Action.parse action
    return ⟨resource, action⟩
  | _ =>
    .error (.invalidPermission "permission must contain exactly one ':' separator")

/-- The permission as text. -/
def display (p : Permission) : Str := p.resource.val ++ ':' :: p.action.val

def hasWildcard (p : Permission) : Bool := p.resource.isWildcard || p.action.isWildcard

/-- Whether the granted permission covers the required one. -/
def «matches» (granted required : Permission) (enableWildcard : Bool) : Bool :=
  if ¬ enableWildcard ∧ granted.hasWildcard then
    false
  else if ¬ enableWildcard then
    granted = required
  else
    let resourceMatches := granted.resource.isWildcard || granted.resource = required.resource
    let actionMatches := granted.action.isWildcard || granted.action = required.action
    resourceMatches && actionMatches

/-- Switching wildcards on keeps every match. -/
theorem matches_mono {granted required : Permission} {w w' : Bool} (hw : w = true → w' = true)
    (h : granted.matches required w = true) : granted.matches required w' = true := by
  cases w with
  | true => rw [hw rfl]; exact h
  | false =>
    cases w' with
    | false => exact h
    | true =>
      have heq : granted = required := by
        simp only [«matches»] at h
        split at h
        · cases h
        · simpa using h
      subst heq
      simp [«matches»]

end Permission

end RsTenant
