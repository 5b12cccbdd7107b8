import RsTenant.Lib.Words
import RsTenant.Scope

/-! # What the parsers accept

Every value of the crate enters through a parser that normalises its input and
checks it in loops with early returns. Here the accepted texts are grammars:
identifiers and scope paths over `NameChar`, permissions over `WordChar`. The
grammars do not mention the loops.

A parser of identifiers or paths returns the trimmed text and nothing else
(`ParsesTrimmed`), so two inputs parse alike exactly when they trim alike. A
permission is normalised twice, as a whole and part by part; what counts is the
two sides of its only `:`, each trimmed and in lower case.
-/

namespace RsTenant

open Words

/-! ## Lengths -/

/-- Counting the bytes never goes down. -/
theorem le_foldl_utf8Size (n : ℕ) (s : Str) : n ≤ s.foldl (fun len c => len + c.utf8Size) n := by
  induction s generalizing n with
  | nil => exact le_refl n
  | cons c s ih =>
    have h := ih (n + c.utf8Size)
    rw [List.foldl_cons]
    omega

/-- Only the empty text has no bytes. -/
theorem one_le_byteLen_iff {s : Str} : 1 ≤ byteLen s ↔ s ≠ [] := by
  cases s with
  | nil => simp [byteLen]
  | cons c s =>
    have hc := c.utf8Size_pos
    have hle : 0 + c.utf8Size ≤ byteLen (c :: s) := le_foldl_utf8Size (0 + c.utf8Size) s
    have hlen : 1 ≤ byteLen (c :: s) := by omega
    exact ⟨fun _ => List.cons_ne_nil c s, fun _ => hlen⟩

/-! ## Identifiers and paths -/

/-- `[A-Za-z0-9_.-]`. -/
def NameChar (c : Char) : Prop :=
  ('A' ≤ c ∧ c ≤ 'Z') ∨ ('a' ≤ c ∧ c ≤ 'z') ∨ ('0' ≤ c ∧ c ≤ '9') ∨ c = '_' ∨ c = '.' ∨ c = '-'

/-- The check of one character is the alphabet. -/
theorem idChar_iff {c : Char} : idChar c ↔ NameChar c := by
  have hlast : (c = '-' ∨ c = '.') ↔ (c = '.' ∨ c = '-') := or_comm
  simp only [idChar, Bool.or_eq_true, decide_eq_true_eq, isAlphanum_iff, or_assoc, hlast]
  exact Iff.rfl

/-- The separator of paths is no character of their words. -/
theorem not_nameChar_slash : ¬ NameChar '/' := by
  rw [← idChar_iff]
  decide

/-- An identifier: up to 128 bytes of the alphabet. -/
def IdText (s : Str) : Prop := 1 ≤ byteLen s ∧ byteLen s ≤ 128 ∧ ∀ c ∈ s, NameChar c

/-- A path: up to 256 bytes of non-empty words with `/` between them. -/
def PathText (s : Str) : Prop := 1 ≤ byteLen s ∧ byteLen s ≤ 256 ∧ Separated '/' NameChar s

/-- What `Id.parse` checks is the grammar of identifiers. -/
theorem idValid_iff {s : Str} : IdValid s ↔ IdText s := by
  simp only [IdValid, IdText, one_le_byteLen_iff, idChar_iff, maxIdLen]

/-- What `ScopePath.parse` checks is the grammar of paths. -/
theorem pathValid_iff {s : Str} : PathValid s ↔ PathText s := by
  simp only [PathValid, PathText, one_le_byteLen_iff, separated_iff not_nameChar_slash,
    idChar_iff, maxScopePathLen]

/-- A parser that trims: it accepts the texts of a grammar with whitespace
around them and stores the text without it. -/
structure ParsesTrimmed {T : Type} (parse : Str → Except Error T) (text : T → Str)
    (Accepted : Str → Prop) : Prop where
  accepts : ∀ s, (∃ v, parse s = .ok v) ↔ Accepted (trim s)
  stores : ∀ s v, parse s = .ok v → text v = trim s
  stored : ∀ v, parse (text v) = .ok v
  agree : ∀ s t, (∃ v, parse s = .ok v ∧ parse t = .ok v) ↔
    (∃ v, parse s = .ok v) ∧ (∃ v, parse t = .ok v) ∧ trim s = trim t

/-- It is enough that parsing compares the trimmed text, and that the stored texts are
those of the grammar. -/
theorem parsesTrimmed_of {T : Type} {parse : Str → Except Error T} {text : T → Str}
    {Accepted : Str → Prop} (hparse : ∀ s v, parse s = .ok v ↔ trim s = text v)
    (htext : ∀ v, Accepted (text v)) (hof : ∀ s, Accepted s → ∃ v, text v = s)
    (hstored : ∀ v, parse (text v) = .ok v) : ParsesTrimmed parse text Accepted where
  accepts s := by
    constructor
    · rintro ⟨v, hv⟩
      rw [(hparse s v).mp hv]
      exact htext v
    · intro h
      obtain ⟨v, hv⟩ := hof (trim s) h
      exact ⟨v, (hparse s v).mpr hv.symm⟩
  stores s v h := ((hparse s v).mp h).symm
  stored := hstored
  agree s t := by
    constructor
    · rintro ⟨v, hs, ht⟩
      have htrim : trim s = trim t := ((hparse s v).mp hs).trans ((hparse t v).mp ht).symm
      exact ⟨⟨v, hs⟩, ⟨v, ht⟩, htrim⟩
    · rintro ⟨⟨v, hs⟩, -, htrim⟩
      have ht : trim t = text v := htrim.symm.trans ((hparse s v).mp hs)
      exact ⟨v, hs, (hparse t v).mpr ht⟩

/-- Identifiers of every kind are parsed alike. -/
theorem Id.parsesTrimmed (kind : IdKind) : ParsesTrimmed (Id.parse kind) Id.val IdText :=
  parsesTrimmed_of (fun _ _ => Id.parse_eq_ok) (fun id => idValid_iff.mp id.valid)
    (fun s h => ⟨⟨s, idValid_iff.mpr h⟩, rfl⟩) Id.parse_val

/-- Paths are parsed in the same manner over a grammar of their own. -/
theorem ScopePath.parsesTrimmed : ParsesTrimmed ScopePath.parse ScopePath.val PathText :=
  parsesTrimmed_of (fun _ _ => ScopePath.parse_eq_ok) (fun p => pathValid_iff.mp p.valid)
    (fun s h => ⟨⟨s, pathValid_iff.mpr h⟩, rfl⟩) ScopePath.parse_val

/-- Paths and identifiers of every kind are exactly their grammars: a text is
accepted when what is left after trimming is in the grammar, the trimmed text is
what is stored, and a stored path has no empty segment. -/
theorem trimmed_text_grammar :
    ParsesTrimmed ScopePath.parse ScopePath.val PathText ∧
      (∀ kind, ParsesTrimmed (Id.parse kind) Id.val IdText) ∧
      ∀ (p : ScopePath), ∀ segment ∈ p.val.splitOn '/', segment ≠ [] := by
  refine ⟨ScopePath.parsesTrimmed, Id.parsesTrimmed, ?_⟩
  intro p segment hsegment
  exact (p.valid.2.2 segment hsegment).1

/-! ## Lower case -/

/-- Only the capital letters move, 32 places up. -/
theorem toLower_cases (c : Char) :
    (65 ≤ c.toNat ∧ c.toNat ≤ 90 ∧ c.toLower.toNat = c.toNat + 32) ∨
      ((c.toNat < 65 ∨ 90 < c.toNat) ∧ c.toLower = c) := by
  have hval : c.toNat = c.val.toNat := rfl
  unfold Char.toLower
  split
  · rename_i h
    left
    have hrange : 65 ≤ c.val.toNat ∧ c.val.toNat ≤ 90 := by
      simpa [UInt32.le_iff_toNat_le] using h
    -- no overflow: a capital letter is far below `2 ^ 32`
    have hadd : (c.val + 32).toNat = c.toNat + 32 := by
      have h32 : (32 : UInt32).toNat = 32 := rfl
      rw [UInt32.toNat_add]
      omega
    exact ⟨by omega, by omega, hadd⟩
  · rename_i h
    right
    have hrange : ¬ (65 ≤ c.val.toNat ∧ c.val.toNat ≤ 90) := by
      simpa [UInt32.le_iff_toNat_le] using h
    exact ⟨by omega, rfl⟩

/-- Lower case is a normal form. -/
theorem toLower_toLower (c : Char) : c.toLower.toLower = c.toLower := by
  rcases toLower_cases c with ⟨h1, h2, h⟩ | ⟨-, h⟩
  · rcases toLower_cases c.toLower with ⟨h3, h4, -⟩ | ⟨-, h'⟩
    · omega
    · exact h'
  · rw [h, h]

/-- Lower case neither makes nor takes whitespace. -/
theorem isWhitespace_toLower (c : Char) : isWhitespace c.toLower = isWhitespace c := by
  rcases toLower_cases c with ⟨h1, h2, h⟩ | ⟨-, h⟩
  · -- no letter is whitespace
    have hc : isWhitespace c = false := by
      simp only [isWhitespace, Bool.or_eq_false_iff, Bool.and_eq_false_iff,
        decide_eq_false_iff_not]
      omega
    have hl : isWhitespace c.toLower = false := by
      simp only [isWhitespace, Bool.or_eq_false_iff, Bool.and_eq_false_iff,
        decide_eq_false_iff_not]
      omega
    rw [hc, hl]
  · rw [h]

/-- Lower case does not move the separator. -/
theorem toLower_eq_colon (c : Char) : c.toLower = ':' ↔ c = ':' := by
  have hcolon : ':'.toNat = 58 := rfl
  rcases toLower_cases c with ⟨h1, h2, h⟩ | ⟨-, h⟩
  · constructor
    · intro hc
      rw [hc] at h
      omega
    · intro hc
      rw [hc] at h1
      omega
  · rw [h]

/-! ## Normalising -/

/-- Whitespace around a text is gone when it is normalised. -/
theorem normalize_padded {core s : Str} (h : Padded isWhitespace core s) :
    normalize s = normalize core :=
  congrArg (List.map Char.toLower) (strip_padded h)

/-- The case of a text is gone when it is normalised. -/
theorem normalize_toLower (s : Str) : normalize (s.map Char.toLower) = normalize s := by
  have hmap : trim (s.map Char.toLower) = (trim s).map Char.toLower :=
    strip_map isWhitespace_toLower s
  have hcomp : Char.toLower ∘ Char.toLower = Char.toLower := funext toLower_toLower
  rw [normalize, hmap, List.map_map, hcomp, normalize]

/-- Normalising twice is normalising once. -/
theorem normalize_normalize (s : Str) : normalize (normalize s) = normalize s := by
  rw [normalize.eq_def s, normalize_toLower, normalize]
  exact congrArg (List.map Char.toLower) (strip_strip isWhitespace s)

/-- A text already in lower case is only trimmed. -/
theorem normalize_of_lower {s : Str} (h : ∀ c ∈ s, c.toLower = c) : normalize s = trim s := by
  have hmap : (trim s).map Char.toLower = (trim s).map id :=
    List.map_congr_left fun c hc => h c (mem_of_mem_strip hc)
  rw [normalize, hmap, List.map_id]

/-- No capital letter is left in a normalised text. -/
theorem lower_of_mem_normalize {s : Str} {c : Char} (h : c ∈ normalize s) : c.toLower = c := by
  obtain ⟨d, -, rfl⟩ := List.mem_map.mp h
  exact toLower_toLower d

/-- Normalising a text first makes no difference to its normalised sides. -/
theorem map_normalize_splitOn (s : Str) :
    ((normalize s).splitOn ':').map normalize = (s.splitOn ':').map normalize := by
  have hsplit : (normalize s).splitOn ':' = ((trim s).splitOn ':').map (List.map Char.toLower) :=
    splitOn_map toLower_eq_colon (trim s)
  -- lower case and splitting commute, and so do trimming the whole and then the sides
  have hcomp : normalize ∘ List.map Char.toLower = normalize := funext normalize_toLower
  have hstrip : ((trim s).splitOn ':').map trim = (s.splitOn ':').map trim :=
    map_strip_splitOn (by decide) s
  have hnorm : ∀ sides : List Str,
      sides.map normalize = (sides.map trim).map (List.map Char.toLower) := by
    intro sides
    rw [List.map_map]
    rfl
  rw [hsplit, List.map_map, hcomp, hnorm, hstrip, ← hnorm]

/-! ## Parts of a permission -/

/-- `[a-z0-9_-]`. -/
def WordChar (c : Char) : Prop :=
  ('a' ≤ c ∧ c ≤ 'z') ∨ ('0' ≤ c ∧ c ≤ '9') ∨ c = '_' ∨ c = '-'

/-- The check of one character of a part is the alphabet of the words. -/
theorem partChar_iff {c : Char} : partChar c ↔ WordChar c := by
  simp only [partChar, WordChar, Bool.or_eq_true, Bool.and_eq_true, decide_eq_true_eq, or_assoc]

/-- Words are written in a part of the alphabet of names. -/
theorem WordChar.nameChar {c : Char} (h : WordChar c) : NameChar c := by
  rcases h with h | h | h | h
  · exact .inr (.inl h)
  · exact .inr (.inr (.inl h))
  · exact .inr (.inr (.inr (.inl h)))
  · exact .inr (.inr (.inr (.inr (.inr h))))

/-- The separator of a resource is no character of its words. -/
theorem not_wordChar_slash : ¬ WordChar '/' := by
  rw [← partChar_iff]
  decide

/-- A resource: `*`, or non-empty words with `/` between them. -/
def ResourceText (s : Str) : Prop :=
  byteLen s ≤ 128 ∧ (s = ['*'] ∨ Separated '/' WordChar s)

/-- An action: `*`, or one non-empty word. -/
def ActionText (s : Str) : Prop :=
  byteLen s ≤ 128 ∧ (s = ['*'] ∨ s ≠ [] ∧ ∀ c ∈ s, WordChar c)

/-- With slashes allowed, the check of a part is the grammar of resources. -/
theorem resourceValid_iff {s : Str} : PartValid true s ↔ ResourceText s := by
  simp only [PartValid, ResourceText, separated_iff not_wordChar_slash, partChar_iff,
    maxPermissionPartLen]
  constructor
  · rintro ⟨-, hlen, rfl | hwords⟩
    · exact ⟨hlen, .inl rfl⟩
    · exact ⟨hlen, .inr fun word hword => ⟨(hwords word hword).1, (hwords word hword).2.2⟩⟩
  · rintro ⟨hlen, rfl | hwords⟩
    · exact ⟨by simp, hlen, .inl rfl⟩
    · -- the words of the empty text are one empty word
      have hne : s ≠ [] := by
        intro hnil
        rw [hnil, List.splitOn_nil] at hwords
        exact (hwords [] (List.mem_singleton_self _)).1 rfl
      exact ⟨hne, hlen, .inr fun word hword => ⟨(hwords word hword).1, .inl trivial,
        (hwords word hword).2⟩⟩

/-- Without them it is the grammar of actions. -/
theorem actionValid_iff {s : Str} : PartValid false s ↔ ActionText s := by
  simp only [PartValid, ActionText, partChar_iff, maxPermissionPartLen]
  constructor
  · rintro ⟨hne, hlen, rfl | hwords⟩
    · exact ⟨hlen, .inl rfl⟩
    · -- every word is the whole text, and there is a word
      obtain ⟨word, words, hs⟩ := List.exists_cons_of_ne_nil (List.splitOn_ne_nil '/' s)
      obtain ⟨-, hslash | hword, hchars⟩ := hwords word (hs ▸ List.mem_cons_self)
      · cases hslash
      · exact ⟨hlen, .inr ⟨hne, hword ▸ hchars⟩⟩
  · rintro ⟨hlen, rfl | ⟨hne, hchars⟩⟩
    · exact ⟨by simp, hlen, .inl rfl⟩
    · -- without a separator the text is its only word
      have hslash : '/' ∉ s := fun hmem => not_wordChar_slash (hchars '/' hmem)
      refine ⟨hne, hlen, .inr ?_⟩
      intro word hword
      rw [List.splitOn_eq_singleton hslash, List.mem_singleton] at hword
      subst hword
      exact ⟨hne, .inr rfl, hchars⟩

/-- A part is its text. -/
theorem Part.val_injective {kind : PartKind} : Function.Injective (Part.val : Part kind → Str) := by
  rintro ⟨a, ha⟩ ⟨b, hb⟩ h
  cases h
  rfl

/-- A part is parsed when its normalised text is the one that is stored. -/
theorem Part.parse_eq_ok {kind : PartKind} {value : Str} {p : Part kind} :
    Part.parse kind value = .ok p ↔ normalize value = p.val := by
  unfold Part.parse
  split
  · constructor
    · intro he
      rw [← Except.ok.inj he]
    · intro he
      exact congrArg Except.ok (Part.val_injective he)
  · rename_i e h
    constructor
    · intro he
      cases he
    · intro he
      have hok : validateSegment (normalize value) kind.text kind.allowSlash = .ok () :=
        validateSegment_eq_ok.mpr (he ▸ p.valid)
      rw [h] at hok
      cases hok

/-- Texts that normalise alike parse alike, and fail alike. -/
theorem Part.parse_congr {kind : PartKind} {v w : Str} (h : normalize v = normalize w) :
    Part.parse kind v = Part.parse kind w := by
  unfold Part.parse
  split
  · rename_i hv
    split
    · exact congrArg Except.ok (Part.val_injective h)
    · rename_i e hw
      rw [h, hw] at hv
      cases hv
  · rename_i e hv
    rw [h] at hv
    split
    · rename_i hw
      rw [hw] at hv
      cases hv
    · rename_i e' hw
      rw [hw] at hv
      exact congrArg Except.error (Except.error.inj hv).symm

/-- A part parses when its normalised text passes the check. -/
theorem Part.exists_parse_iff {kind : PartKind} {value : Str} :
    (∃ p, Part.parse kind value = .ok p) ↔ PartValid kind.allowSlash (normalize value) := by
  constructor
  · rintro ⟨p, hp⟩
    rw [Part.parse_eq_ok.mp hp]
    exact p.valid
  · intro h
    exact ⟨⟨normalize value, h⟩, Part.parse_eq_ok.mpr rfl⟩

/-- A resource parses when its normalised text is in the grammar. -/
theorem Resource.exists_parse_iff {value : Str} :
    (∃ r, Resource.parse value = .ok r) ↔ ResourceText (normalize value) :=
  Part.exists_parse_iff.trans resourceValid_iff

/-- And so does an action. -/
theorem Action.exists_parse_iff {value : Str} :
    (∃ a, Action.parse value = .ok a) ↔ ActionText (normalize value) :=
  Part.exists_parse_iff.trans actionValid_iff

/-- A part holds no capital letter, no whitespace and no `:`. -/
theorem Part.plain {kind : PartKind} (p : Part kind) :
    ∀ c ∈ p.val, c.toLower = c ∧ isWhitespace c = false ∧ c ≠ ':' := by
  intro c hc
  have hword : WordChar c ∨ c = '*' ∨ c = '/' := by
    rcases p.valid.2.2 with hstar | hwords
    · rw [hstar, List.mem_singleton] at hc
      exact .inr (.inl hc)
    · rcases eq_sep_or_mem_word '/' hc with hslash | ⟨word, hword, hc⟩
      · exact .inr (.inr hslash)
      · exact .inl (partChar_iff.mp ((hwords word hword).2.2 c hc))
  -- the two other characters are settled by computation
  rcases hword with hword | rfl | rfl
  · have hname : idChar c := idChar_iff.mpr hword.nameChar
    have hlow : ¬ (65 ≤ c.toNat ∧ c.toNat ≤ 90) := by
      rcases hword with ⟨h, -⟩ | ⟨-, h⟩ | rfl | rfl
      · have h97 : 97 ≤ c.toNat := h
        omega
      · have h57 : c.toNat ≤ 57 := h
        omega
      · decide
      · decide
    refine ⟨?_, idChar_not_whitespace hname, ?_⟩
    · rcases toLower_cases c with ⟨h1, h2, -⟩ | ⟨-, h⟩
      · exact absurd ⟨h1, h2⟩ hlow
      · exact h
    · rintro rfl
      exact absurd hname (by decide)
  · decide
  · decide

/-! ## Permissions -/

namespace Permission

/-- What `parse` makes of the sides it has cut. -/
def parseSides : List Str → Except Error Permission
  | [] | [_] =>
    .error (.invalidPermission "permission must be in resource:action format")
  | [resource, action] => do
    let resource ← Resource.parse resource
    let action ← Action.parse action
    return ⟨resource, action⟩
  | _ =>
    .error (.invalidPermission "permission must contain exactly one ':' separator")

/-- `parse` cuts the normalised text at every `:`. -/
theorem parse_eq_parseSides (s : Str) : parse s = parseSides ((normalize s).splitOn ':') := by
  unfold parse
  generalize (normalize s).splitOn ':' = sides
  match sides with
  | [] | [_] | [_, _] | _ :: _ :: _ :: _ => rfl

/-- The sides are normalised once more, so it does not matter whether they were. -/
theorem parseSides_map_normalize (sides : List Str) :
    parseSides (sides.map normalize) = parseSides sides := by
  match sides with
  | [] => rfl
  | [_] => rfl
  | [resource, action] =>
    have hresource : Resource.parse (normalize resource) = Resource.parse resource :=
      Part.parse_congr (normalize_normalize resource)
    have haction : Action.parse (normalize action) = Action.parse action :=
      Part.parse_congr (normalize_normalize action)
    simp only [List.map_cons, List.map_nil, parseSides, hresource, haction]
  | _ :: _ :: _ :: _ => rfl

/-- Only the normalised sides of a text count. -/
theorem parse_eq (s : Str) : parse s = parseSides ((s.splitOn ':').map normalize) := by
  rw [parse_eq_parseSides, ← parseSides_map_normalize, map_normalize_splitOn]

/-- The trimmed text in lower case has one `:`, between these sides. -/
def Sides (s left right : Str) : Prop :=
  normalize s = left ++ ':' :: right ∧ ':' ∉ left ∧ ':' ∉ right

/-- Having these sides means that cutting the text leaves the two. -/
theorem sides_iff {s left right : Str} :
    Sides s left right ↔ (normalize s).splitOn ':' = [left, right] :=
  splitOn_eq_pair.symm

/-- A side has no capital letters, so all that is left to do is trimming. -/
theorem Sides.normalize_eq {s left right : Str} (h : Sides s left right) :
    normalize left = trim left ∧ normalize right = trim right := by
  have hlower : ∀ c ∈ left ++ ':' :: right, c.toLower = c := by
    intro c hc
    rw [← h.1] at hc
    exact lower_of_mem_normalize hc
  constructor
  · exact normalize_of_lower fun c hc => hlower c (List.mem_append_left _ hc)
  · exact normalize_of_lower fun c hc =>
      hlower c (List.mem_append_right _ (List.mem_cons_of_mem _ hc))

/-- Exactly two sides make a permission, when both parse. -/
theorem parseSides_eq_ok {sides : List Str} {p : Permission} :
    parseSides sides = .ok p ↔ ∃ left right, sides = [left, right] ∧
      Resource.parse left = .ok p.resource ∧ Action.parse right = .ok p.action := by
  constructor
  · intro h
    match sides with
    | [] => cases h
    | [_] => cases h
    | [left, right] =>
      obtain ⟨resource, hresource, h⟩ := Results.bind_eq_ok.mp h
      obtain ⟨action, haction, h⟩ := Results.bind_eq_ok.mp h
      cases h
      exact ⟨left, right, rfl, hresource, haction⟩
    | _ :: _ :: _ :: _ => cases h
  · rintro ⟨left, right, rfl, hresource, haction⟩
    simp only [parseSides, hresource, haction]
    rfl

/-- A permission is parsed from the two sides of its text. -/
theorem parse_eq_ok {s : Str} {p : Permission} :
    parse s = .ok p ↔ ∃ left right, Sides s left right ∧
      Resource.parse left = .ok p.resource ∧ Action.parse right = .ok p.action := by
  rw [parse_eq_parseSides, parseSides_eq_ok]
  simp only [sides_iff]

/-- The accepted texts, by the grammars of their trimmed sides. -/
theorem exists_parse_iff {s : Str} :
    (∃ p, parse s = .ok p) ↔
      ∃ left right, Sides s left right ∧ ResourceText (trim left) ∧ ActionText (trim right) := by
  constructor
  · rintro ⟨p, hp⟩
    obtain ⟨left, right, hsides, hresource, haction⟩ := parse_eq_ok.mp hp
    have hleft := Resource.exists_parse_iff.mp ⟨p.resource, hresource⟩
    have hright := Action.exists_parse_iff.mp ⟨p.action, haction⟩
    rw [hsides.normalize_eq.1] at hleft
    rw [hsides.normalize_eq.2] at hright
    exact ⟨left, right, hsides, hleft, hright⟩
  · rintro ⟨left, right, hsides, hleft, hright⟩
    rw [← hsides.normalize_eq.1] at hleft
    rw [← hsides.normalize_eq.2] at hright
    obtain ⟨resource, hresource⟩ := Resource.exists_parse_iff.mpr hleft
    obtain ⟨action, haction⟩ := Action.exists_parse_iff.mpr hright
    exact ⟨⟨resource, action⟩, parse_eq_ok.mpr ⟨left, right, hsides, hresource, haction⟩⟩

/-- What is stored are the two trimmed sides. -/
theorem val_of_parse {s left right : Str} {p : Permission} (h : parse s = .ok p)
    (hsides : Sides s left right) :
    p.resource.val = trim left ∧ p.action.val = trim right := by
  obtain ⟨left', right', hsides', hresource, haction⟩ := parse_eq_ok.mp h
  have heq : [left', right'] = [left, right] := by
    rw [← sides_iff.mp hsides', ← sides_iff.mp hsides]
  cases heq
  have hleft := Part.parse_eq_ok.mp hresource
  have hright := Part.parse_eq_ok.mp haction
  rw [hsides.normalize_eq.1] at hleft
  rw [hsides.normalize_eq.2] at hright
  exact ⟨hleft.symm, hright.symm⟩

/-- A printed permission parses to itself. -/
theorem parse_display (p : Permission) : parse p.display = .ok p := by
  have hself : ∀ {kind : PartKind} (q : Part kind), normalize q.val = q.val := by
    intro kind q
    rw [normalize_of_lower fun c hc => (q.plain c hc).1]
    exact trim_eq_self fun c hc => (q.plain c hc).2.1
  -- so the `:` between the parts is the only one, and nothing else moves
  have hcolon : ∀ {kind : PartKind} (q : Part kind), ':' ∉ q.val := by
    intro kind q hmem
    exact (q.plain ':' hmem).2.2 rfl
  have hsplit : p.display.splitOn ':' = [p.resource.val, p.action.val] :=
    splitOn_eq_pair.mpr ⟨rfl, hcolon p.resource, hcolon p.action⟩
  rw [parse_eq, parseSides_eq_ok, hsplit]
  refine ⟨p.resource.val, p.action.val, ?_, ?_, ?_⟩
  · simp only [List.map_cons, List.map_nil, hself]
  · exact Part.parse_eq_ok.mpr (hself p.resource)
  · exact Part.parse_eq_ok.mpr (hself p.action)

/-- Permissions that are printed alike are the same. -/
theorem display_injective : Function.Injective display := by
  intro p q h
  have hp : (.ok p : Except Error Permission) = .ok q := by
    rw [← parse_display p, ← parse_display q, h]
  exact Except.ok.inj hp

/-- One text up to the case of ASCII letters and whitespace around it. -/
def SameSide (a b : Str) : Prop :=
  ∃ core core', Padded isWhitespace core a ∧ Padded isWhitespace core' b ∧
    core.map Char.toLower = core'.map Char.toLower

/-- Texts that differ only in ASCII case and in whitespace around the ends and
around `:`. -/
def SameText (s t : Str) : Prop := List.Forall₂ SameSide (s.splitOn ':') (t.splitOn ':')

/-- Such sides normalise alike. -/
theorem SameSide.normalize_eq {a b : Str} (h : SameSide a b) : normalize a = normalize b := by
  obtain ⟨core, core', ha, hb, hcase⟩ := h
  rw [normalize_padded ha, normalize_padded hb, ← normalize_toLower core, hcase,
    normalize_toLower]

/-- Such texts parse alike. -/
theorem SameText.parse_eq {s t : Str} (h : SameText s t) : parse s = parse t := by
  have hsides : (s.splitOn ':').map normalize = (t.splitOn ':').map normalize := by
    unfold SameText at h
    generalize s.splitOn ':' = left at h ⊢
    generalize t.splitOn ':' = right at h ⊢
    -- the texts have equally many sides, and these normalise alike one by one
    induction h with
    | nil => rfl
    | cons hside _ ih => rw [List.map_cons, List.map_cons, hside.normalize_eq, ih]
  rw [Permission.parse_eq, Permission.parse_eq, hsides]

end Permission

/-- Parsing a permission accepts exactly its grammar and stores the trimmed
sides in lower case; printing is inverted by parsing, and texts that differ only
in case and whitespace around the sides parse alike, also when they are refused. -/
theorem permission_grammar :
    (∀ s, (∃ p, Permission.parse s = .ok p) ↔ ∃ left right, Permission.Sides s left right ∧
      ResourceText (trim left) ∧ ActionText (trim right)) ∧
    (∀ s left right p, Permission.parse s = .ok p → Permission.Sides s left right →
      p.resource.val = trim left ∧ p.action.val = trim right) ∧
    (∀ (resource : Resource) (action : Action),
      Permission.parse (Permission.display ⟨resource, action⟩) = .ok ⟨resource, action⟩) ∧
    Function.Injective Permission.display ∧
    ∀ s t, Permission.SameText s t → Permission.parse s = Permission.parse t := by
  refine ⟨fun s => Permission.exists_parse_iff, ?_, ?_, Permission.display_injective, ?_⟩
  · intro s left right p hp hsides
    exact Permission.val_of_parse hp hsides
  · intro resource action
    exact Permission.parse_display ⟨resource, action⟩
  · intro s t h
    exact h.parse_eq

/-- Whitespace around `:` and capital letters are gone. -/
example : Permission.parse [' ', 'A', '/', 'B', ' ', ':', '*'] =
    .ok ⟨⟨['a', '/', 'b'], by decide⟩, ⟨['*'], by decide⟩⟩ := by decide

end RsTenant
