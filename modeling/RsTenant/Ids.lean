import Mathlib.Data.Char
import Mathlib.Data.List.Lex
import Mathlib.Data.List.DropRight
import Mathlib.Order.Basic

/-! # Identifiers and errors

The five identifier types are one macro in the source: a trimmed text over a
small alphabet, with a kind that only shows in error messages. Here they are
one structure indexed by the kind, and a value carries the proof that its text
was accepted.

Texts are lists of characters; lengths are counted in UTF-8 bytes.
-/

namespace RsTenant

/-- A text, by its characters. -/
abbrev Str : Type := List Char

/-- The length of a text in UTF-8 bytes. -/
def byteLen (s : Str) : ℕ := s.foldl (fun len c => len + c.utf8Size) 0

/-- The Unicode `White_Space` characters. -/
def isWhitespace (c : Char) : Bool :=
  let n := c.toNat
  (9 ≤ n && n ≤ 13) || n = 0x20 || n = 0x85 || n = 0xA0 || n = 0x1680 ||
    (0x2000 ≤ n && n ≤ 0x200A) || n = 0x2028 || n = 0x2029 || n = 0x202F || n = 0x205F ||
    n = 0x3000

/-- Drop surrounding whitespace. -/
def trim (s : Str) : Str := (s.dropWhile isWhitespace).rdropWhile isWhitespace

/-- `MAX_ID_LEN`, in bytes. -/
def maxIdLen : ℕ := 128

/-- The alphabet of identifiers and of path segments. -/
def idChar (c : Char) : Bool := c.isAlphanum || c = '_' || c = '-' || c = '.'

/-- Decided along the text, and not over all characters. -/
instance (s : Str) (p : Char → Bool) : Decidable (∀ c ∈ s, p c) := List.decidableBAll _ s

/-- What an accepted identifier looks like. -/
def IdValid (s : Str) : Prop :=
  s ≠ [] ∧ byteLen s ≤ maxIdLen ∧ ∀ c ∈ s, idChar c

instance : DecidablePred IdValid := fun s =>
  inferInstanceAs (Decidable (s ≠ [] ∧ byteLen s ≤ maxIdLen ∧ ∀ c ∈ s, idChar c))

/-- The macro makes one type for each of these. -/
inductive IdKind where
  | tenant | principal | role | platformPrincipal | platformRole
deriving DecidableEq, Repr

/-- The kind as error messages name it. -/
def IdKind.text : IdKind → String
  | .tenant => "tenant id"
  | .principal => "principal id"
  | .role => "role id"
  | .platformPrincipal => "platform principal id"
  | .platformRole => "platform role id"

/-- An accepted identifier of one kind. -/
structure Id (kind : IdKind) where
  val : Str
  valid : IdValid val
deriving DecidableEq

abbrev TenantId : Type := Id .tenant
abbrev PrincipalId : Type := Id .principal
abbrev RoleId : Type := Id .role
abbrev PlatformPrincipalId : Type := Id .platformPrincipal
abbrev PlatformRoleId : Type := Id .platformRole

namespace Id

variable {kind : IdKind}

/-- An identifier is its text. -/
theorem val_injective : Function.Injective (Id.val : Id kind → Str) := by
  rintro ⟨a, ha⟩ ⟨b, hb⟩ h
  cases h
  rfl

/-- Identifiers are ordered as their texts. -/
instance : LinearOrder (Id kind) := LinearOrder.lift' Id.val val_injective

/-- The text as messages show it. -/
def text (id : Id kind) : String := String.ofList id.val

end Id

/-! ## Errors -/

/-- A data source's error; the engines only hand it through. -/
structure SourceError where
  message : String
deriving DecidableEq, Repr

/-- All that can go wrong in the crate. -/
inductive Error where
  | source (e : SourceError)
  | invalidId (msg : String)
  | invalidPermission (msg : String)
  | invalidScope (msg : String)
  | roleCycleDetected (tenant : TenantId) (role : RoleId)
  | roleDepthExceeded (tenant : TenantId) (role : RoleId) (maxDepth : ℕ)
  | platformRoleCycleDetected (role : PlatformRoleId)
  | platformRoleDepthExceeded (role : PlatformRoleId) (maxDepth : ℕ)
deriving DecidableEq

/-- How an error reads. -/
def Error.display : Error → String
  | .source e => s!"source error: {e.message}"
  | .invalidId msg => s!"invalid id: {msg}"
  | .invalidPermission msg => s!"invalid permission: {msg}"
  | .invalidScope msg => s!"invalid scope: {msg}"
  | .roleCycleDetected tenant role =>
    s!"role cycle detected for tenant {tenant.text} at role {role.text}"
  | .roleDepthExceeded tenant role maxDepth =>
    s!"role inheritance depth exceeded for tenant {tenant.text} at role {role.text}" ++
      s!"; max depth {maxDepth}"
  | .platformRoleCycleDetected role => s!"platform role cycle detected at role {role.text}"
  | .platformRoleDepthExceeded role maxDepth =>
    s!"platform role inheritance depth exceeded at role {role.text}; max depth {maxDepth}"

/-! ## Parsing -/

/-- The checks of `validate_id`, in their order. -/
def validateId (value : Str) (kind : String) : Except Error Str :=
  let trimmed := trim value
  if trimmed = [] then
    .error (.invalidId s!"{kind} must not be empty")
  else if byteLen trimmed > maxIdLen then
    .error (.invalidId s!"{kind} length must be <= {maxIdLen}")
  else if ¬ trimmed.all idChar then
    .error (.invalidId s!"{kind} contains invalid characters")
  else
    .ok trimmed

/-- Validation returns the trimmed text, and returns it exactly when it is an
identifier. -/
theorem validateId_eq_ok {value : Str} {kind : String} {s : Str} :
    validateId value kind = .ok s ↔ trim value = s ∧ IdValid s := by
  simp only [validateId, IdValid]
  constructor
  · intro h
    split at h
    · simp at h
    · split at h
      · simp at h
      · split at h
        · simp at h
        · rename_i h1 h2 h3
          have hs : trim value = s := by simpa using h
          subst hs
          exact ⟨rfl, h1, not_lt.mp h2, by simpa using h3⟩
  · rintro ⟨rfl, h1, h2, h3⟩
    rw [if_neg h1, if_neg (not_lt.mpr h2), if_neg (by simpa using h3)]

/-- Parse an identifier of a kind. -/
def Id.parse (kind : IdKind) (value : Str) : Except Error (Id kind) :=
  match h : validateId value kind.text with
  | .ok s => .ok ⟨s, (validateId_eq_ok.mp h).2⟩
  | .error e => .error e

def TenantId.parse (value : Str) : Except Error TenantId := Id.parse .tenant value
def PrincipalId.parse (value : Str) : Except Error PrincipalId := Id.parse .principal value
def RoleId.parse (value : Str) : Except Error RoleId := Id.parse .role value
def PlatformPrincipalId.parse (value : Str) : Except Error PlatformPrincipalId :=
  Id.parse .platformPrincipal value
def PlatformRoleId.parse (value : Str) : Except Error PlatformRoleId :=
  Id.parse .platformRole value

/-- A text parses to `id` exactly when it is `id`'s text with whitespace around
it. -/
theorem Id.parse_eq_ok {kind : IdKind} {value : Str} {id : Id kind} :
    Id.parse kind value = .ok id ↔ trim value = id.val := by
  unfold Id.parse
  split
  · rename_i s h
    have hs := validateId_eq_ok.mp h
    constructor
    · intro he
      rw [hs.1, ← Except.ok.inj he]
    · intro he
      exact congrArg Except.ok (Id.val_injective (hs.1.symm.trans he))
  · rename_i e h
    constructor
    · intro he
      cases he
    · intro he
      have hok : validateId value kind.text = .ok id.val :=
        validateId_eq_ok.mpr ⟨he, id.valid⟩
      rw [h] at hok
      cases hok

/-! ## Trimming -/

/-- The ranges of capital letters, small letters and digits. -/
theorem isAlphanum_iff {c : Char} :
    c.isAlphanum = true ↔ ((65 ≤ c.toNat ∧ c.toNat ≤ 90) ∨ (97 ≤ c.toNat ∧ c.toNat ≤ 122)) ∨
      (48 ≤ c.toNat ∧ c.toNat ≤ 57) := by
  have hranges : c.isAlphanum =
      ((decide (c.val ≥ 65 ∧ c.val ≤ 90) || (c.val ≥ 97 && c.val ≤ 122)) ||
        (c.val ≥ 48 && c.val ≤ 57)) := rfl
  have hval : c.toNat = c.val.toNat := rfl
  rw [hranges]
  simp only [Bool.or_eq_true, Bool.and_eq_true, decide_eq_true_eq, ge_iff_le,
    UInt32.le_iff_toNat_le, UInt32.reduceToNat, hval]

/-- Trimming takes nothing of a valid identifier away. -/
theorem idChar_not_whitespace {c : Char} (h : idChar c) : isWhitespace c = false := by
  have hc : c.isAlphanum = true ∨ c = '_' ∨ c = '-' ∨ c = '.' := by
    simpa [idChar, or_assoc] using h
  rcases hc with hc | rfl | rfl | rfl
  · have hranges := isAlphanum_iff.mp hc
    simp only [isWhitespace, Bool.or_eq_false_iff, Bool.and_eq_false_iff, decide_eq_false_iff_not]
    omega
  all_goals decide

/-- Trimming leaves a text alone that has no whitespace in it. -/
theorem trim_eq_self {s : Str} (h : ∀ c ∈ s, isWhitespace c = false) : trim s = s := by
  unfold trim
  have hl : s.dropWhile isWhitespace = s := by
    cases s with
    | nil => rfl
    | cons c s => simp [h c]
  rw [hl, List.rdropWhile_eq_self_iff]
  intro hs
  simp [h _ (List.getLast_mem hs)]

/-- An identifier's text parses to the identifier. -/
@[simp] theorem Id.parse_val {kind : IdKind} (id : Id kind) : Id.parse kind id.val = .ok id :=
  Id.parse_eq_ok.mpr (trim_eq_self fun c hc => idChar_not_whitespace (id.valid.2.2 c hc))

end RsTenant
