import Mathlib.Data.List.Basic
import Mathlib.Data.List.DropRight
import Mathlib.Data.List.Forall2

/-! # Words and padding

A text is cut at a separator into words, and the words determine the text: one
word list is a prefix of another exactly when the texts are equal or the
longer text goes on with a separator (`splitOn_prefix_iff`). `Separated` is the
grammar of non-empty words over an alphabet.

`strip` removes padding from both ends. Cutting a stripped text gives the
same words up to padding (`map_strip_splitOn`), so a reader that strips each
word cannot tell whether the whole text was stripped first.
-/

namespace Words

variable {α β : Type*}

/-! ## Words -/

section Split

variable [BEq α] [LawfulBEq α] {sep : α} {s t : List α}

theorem splitOn_injective : Function.Injective (List.splitOn sep : List α → List (List α)) :=
  Function.LeftInverse.injective fun _ => List.intercalate_splitOn sep

omit [BEq α] [LawfulBEq α] in
theorem intercalate_append {left right : List (List α)} (hl : left ≠ []) (hr : right ≠ []) :
    [sep].intercalate (left ++ right) =
      [sep].intercalate left ++ sep :: [sep].intercalate right := by
  induction left with
  | nil => exact absurd rfl hl
  | cons word left ih =>
    by_cases hleft : left = []
    · subst hleft
      rw [List.singleton_append, List.intercalate_cons_of_ne_nil hr, List.intercalate_singleton,
        List.append_assoc, List.singleton_append]
    · have happ : left ++ right ≠ [] := List.append_ne_nil_of_left_ne_nil hleft right
      rw [List.cons_append, List.intercalate_cons_of_ne_nil happ, ih hleft,
        List.intercalate_cons_of_ne_nil hleft]
      simp only [List.append_assoc]

/-- A text's words begin another's when the texts are equal, or the longer one
goes on with a separator. -/
theorem splitOn_prefix_iff : s.splitOn sep <+: t.splitOn sep ↔ s = t ∨ s ++ [sep] <+: t := by
  constructor
  · rintro ⟨words, hwords⟩
    by_cases hnil : words = []
    · rw [hnil, List.append_nil] at hwords
      exact .inl (splitOn_injective hwords)
    · have happ : [sep].intercalate (s.splitOn sep ++ words) =
          [sep].intercalate (s.splitOn sep) ++ sep :: [sep].intercalate words :=
        intercalate_append (List.splitOn_ne_nil sep s) hnil
      rw [hwords, List.intercalate_splitOn, List.intercalate_splitOn] at happ
      exact .inr ⟨[sep].intercalate words, by simp [happ]⟩
  · rintro (rfl | ⟨rest, rfl⟩)
    · exact List.prefix_rfl
    · rw [List.append_assoc, List.singleton_append, List.splitOn_append_cons_self]
      exact List.prefix_append _ _

theorem not_mem_of_mem_splitOn {word : List α} (h : word ∈ s.splitOn sep) : sep ∉ word := by
  induction s generalizing word with
  | nil =>
    rw [List.splitOn_nil, List.mem_singleton] at h
    simp [h]
  | cons c s ih =>
    rw [List.splitOn_cons_eq_if_modifyHead] at h
    obtain ⟨head, words, hs⟩ := List.exists_cons_of_ne_nil (List.splitOn_ne_nil sep s)
    split at h
    · rcases List.mem_cons.mp h with rfl | h
      · simp
      · exact ih h
    · rename_i hc
      have hne : sep ≠ c := fun heq => hc (by simp [heq])
      rw [hs, List.modifyHead_cons] at h
      rcases List.mem_cons.mp h with rfl | h
      · have hhead : sep ∉ head := ih (hs ▸ List.mem_cons_self)
        simp [hne, hhead]
      · exact ih (hs ▸ List.mem_cons_of_mem _ h)

/-- Everything in a text is a separator or stands in a word. -/
theorem eq_sep_or_mem_word (sep : α) {c : α} (h : c ∈ s) :
    c = sep ∨ ∃ word ∈ s.splitOn sep, c ∈ word := by
  induction s with
  | nil => simp at h
  | cons d s ih =>
    rw [List.splitOn_cons_eq_if_modifyHead]
    obtain ⟨head, words, hs⟩ := List.exists_cons_of_ne_nil (List.splitOn_ne_nil sep s)
    split
    · rename_i hd
      rcases List.mem_cons.mp h with rfl | h
      · exact .inl (eq_of_beq hd)
      · exact (ih h).imp_right fun ⟨word, hword, hc⟩ => ⟨word, List.mem_cons_of_mem _ hword, hc⟩
    · -- the first character joins the first word
      rw [hs, List.modifyHead_cons]
      rcases List.mem_cons.mp h with rfl | h
      · exact .inr ⟨c :: head, List.mem_cons_self, List.mem_cons_self⟩
      · rcases ih h with hsep | ⟨word, hword, hc⟩
        · exact .inl hsep
        · rw [hs] at hword
          rcases List.mem_cons.mp hword with rfl | hword
          · exact .inr ⟨d :: word, List.mem_cons_self, List.mem_cons_of_mem _ hc⟩
          · exact .inr ⟨word, List.mem_cons_of_mem _ hword, hc⟩

/-- One or more non-empty words over `P` with separators between them. -/
def Separated (sep : α) (P : α → Prop) (s : List α) : Prop :=
  ∃ words : List (List α), words ≠ [] ∧ (∀ word ∈ words, word ≠ [] ∧ ∀ c ∈ word, P c) ∧
    s = [sep].intercalate words

/-- When the separator is not in the alphabet, the words are what cutting
finds. -/
theorem separated_iff {P : α → Prop} (hsep : ¬ P sep) :
    Separated sep P s ↔ ∀ word ∈ s.splitOn sep, word ≠ [] ∧ ∀ c ∈ word, P c := by
  constructor
  · rintro ⟨words, hne, hwords, rfl⟩
    have hnot : ∀ word ∈ words, sep ∉ word := by
      intro word hword hmem
      exact hsep ((hwords word hword).2 sep hmem)
    rw [List.splitOn_intercalate sep hnot hne]
    exact hwords
  · intro h
    exact ⟨s.splitOn sep, List.splitOn_ne_nil sep s, h, (List.intercalate_splitOn sep).symm⟩

/-- A text of two words has one separator. -/
theorem splitOn_eq_pair {left right : List α} :
    s.splitOn sep = [left, right] ↔ s = left ++ sep :: right ∧ sep ∉ left ∧ sep ∉ right := by
  constructor
  · intro h
    have hs : [sep].intercalate (s.splitOn sep) = s := List.intercalate_splitOn sep
    rw [h, List.intercalate_cons_cons, List.intercalate_singleton, List.append_assoc,
      List.singleton_append] at hs
    have hleft : sep ∉ left := not_mem_of_mem_splitOn (s := s) (by simp [h])
    have hright : sep ∉ right := not_mem_of_mem_splitOn (s := s) (by simp [h])
    exact ⟨hs.symm, hleft, hright⟩
  · rintro ⟨rfl, hleft, hright⟩
    rw [List.splitOn_append_cons_self_of_not_mem hleft, List.splitOn_eq_singleton hright]

/-- A map that tells the separators apart from the rest maps the words. -/
theorem splitOn_map [BEq β] [LawfulBEq β] {f : α → β} {sep' : β}
    (hf : ∀ c, f c = sep' ↔ c = sep) (s : List α) :
    (s.map f).splitOn sep' = (s.splitOn sep).map (List.map f) := by
  induction s with
  | nil => simp
  | cons c s ih =>
    rw [List.map_cons, List.splitOn_cons_eq_if_modifyHead, List.splitOn_cons_eq_if_modifyHead, ih]
    obtain ⟨head, words, hs⟩ := List.exists_cons_of_ne_nil (List.splitOn_ne_nil sep s)
    by_cases hc : c = sep
    · have hfc : f sep = sep' := (hf sep).mpr rfl
      simp [hc, hfc]
    · have hfc : f c ≠ sep' := fun h => hc ((hf c).mp h)
      simp [hc, hfc, hs]

end Split

/-! ## Padding -/

section Strip

variable {p : α → Bool} {sep : α} {core s : List α}

/-- Drop what satisfies `p` from both ends. -/
def strip (p : α → Bool) (s : List α) : List α := (s.dropWhile p).rdropWhile p

/-- `s` is `core` with padding around it. -/
def Padded (p : α → Bool) (core s : List α) : Prop :=
  ∃ before after, (∀ c ∈ before, p c) ∧ (∀ c ∈ after, p c) ∧ s = before ++ core ++ after

theorem rdropWhile_append_of_pos {after : List α} (h : ∀ c ∈ after, p c) (s : List α) :
    (s ++ after).rdropWhile p = s.rdropWhile p := by
  have hrev : ∀ c ∈ after.reverse, p c := by simpa using h
  rw [List.rdropWhile, List.reverse_append, List.dropWhile_append_of_pos hrev, List.rdropWhile]

theorem strip_padded (h : Padded p core s) : strip p s = strip p core := by
  obtain ⟨before, after, hbefore, hafter, rfl⟩ := h
  unfold strip
  rw [List.append_assoc, List.dropWhile_append_of_pos hbefore, List.dropWhile_append]
  split
  · -- the core is all padding
    rename_i hcore
    have hall : after.dropWhile p = [] := List.dropWhile_eq_nil_iff.mpr hafter
    rw [hall, List.isEmpty_iff.mp hcore]
  · rw [rdropWhile_append_of_pos hafter]

theorem padded_strip (p : α → Bool) (s : List α) : Padded p (strip p s) s := by
  refine ⟨s.takeWhile p, (s.dropWhile p).rtakeWhile p, ?_, ?_, ?_⟩
  · exact fun c hc => List.mem_takeWhile_imp hc
  · exact fun c hc => List.mem_rtakeWhile_imp hc
  · rw [strip, List.append_assoc, List.rdropWhile_append_rtakeWhile,
      List.takeWhile_append_dropWhile]

@[simp] theorem strip_strip (p : α → Bool) (s : List α) : strip p (strip p s) = strip p s :=
  (strip_padded (padded_strip p s)).symm

theorem mem_of_mem_strip {c : α} (h : c ∈ strip p s) : c ∈ s := by
  obtain ⟨before, after, -, -, hs⟩ := padded_strip p s
  rw [hs]
  simp [h]

/-- A map that keeps what is padding commutes with stripping. -/
theorem strip_map {q : β → Bool} {f : α → β} (hf : ∀ c, q (f c) = p c) (s : List α) :
    strip q (s.map f) = (strip p s).map f := by
  have hcomp : q ∘ f = p := funext hf
  simp only [strip, List.rdropWhile, List.dropWhile_map, ← List.map_reverse, hcomp]

variable [BEq α] [LawfulBEq α]

/-- Padding at the end of a text is padding at the end of its last word. -/
theorem splitOn_append_padding (hsep : p sep = false) {after : List α}
    (hafter : ∀ c ∈ after, p c) (core : List α) :
    List.Forall₂ (fun word padded => ∃ rest, (∀ c ∈ rest, p c) ∧ padded = word ++ rest)
      (core.splitOn sep) ((core ++ after).splitOn sep) := by
  induction core with
  | nil =>
    have hnot : sep ∉ after := by
      intro hmem
      have hpad := hafter sep hmem
      rw [hsep] at hpad
      exact absurd hpad (by simp)
    rw [List.splitOn_nil, List.nil_append, List.splitOn_eq_singleton hnot]
    exact .cons ⟨after, hafter, rfl⟩ .nil
  | cons c core ih =>
    rw [List.cons_append, List.splitOn_cons_eq_if_modifyHead, List.splitOn_cons_eq_if_modifyHead]
    split
    · exact .cons ⟨[], by simp, rfl⟩ ih
    · -- the character joins the first word on both sides
      generalize core.splitOn sep = words at ih ⊢
      generalize (core ++ after).splitOn sep = words' at ih ⊢
      cases ih with
      | nil => exact .nil
      | cons hhead htail =>
        obtain ⟨rest, hrest, rfl⟩ := hhead
        exact .cons ⟨rest, hrest, rfl⟩ htail

/-- Padding a text pads its first and its last word. -/
theorem splitOn_padded (hsep : p sep = false) (h : Padded p core s) :
    List.Forall₂ (Padded p) (core.splitOn sep) (s.splitOn sep) := by
  obtain ⟨before, after, hbefore, hafter, rfl⟩ := h
  rw [List.append_assoc]
  induction before with
  | nil =>
    refine (splitOn_append_padding hsep hafter core).imp ?_
    rintro word _ ⟨rest, hrest, rfl⟩
    exact ⟨[], rest, by simp, hrest, rfl⟩
  | cons c before ih =>
    have hc : p c := hbefore c List.mem_cons_self
    have hne : ¬ (c == sep) = true := by
      intro heq
      rw [eq_of_beq heq, hsep] at hc
      exact absurd hc (by simp)
    have hwords := ih fun c hc => hbefore c (List.mem_cons_of_mem _ hc)
    rw [List.cons_append, List.splitOn_cons_eq_if_modifyHead, if_neg hne]
    generalize core.splitOn sep = words at hwords ⊢
    generalize (before ++ (core ++ after)).splitOn sep = words' at hwords ⊢
    cases hwords with
    | nil => exact .nil
    | cons hhead htail =>
      obtain ⟨front, rest, hfront, hrest, rfl⟩ := hhead
      have hfront' : ∀ d ∈ c :: front, p d := List.forall_mem_cons.mpr ⟨hc, hfront⟩
      exact .cons ⟨c :: front, rest, hfront', hrest, rfl⟩ htail

/-- Stripping a text first makes no difference to its stripped words. -/
theorem map_strip_splitOn (hsep : p sep = false) (s : List α) :
    ((strip p s).splitOn sep).map (strip p) = (s.splitOn sep).map (strip p) := by
  have hwords := splitOn_padded hsep (padded_strip p s)
  generalize (strip p s).splitOn sep = words at hwords ⊢
  generalize s.splitOn sep = words' at hwords ⊢
  induction hwords with
  | nil => rfl
  | cons hhead _ ih => rw [List.map_cons, List.map_cons, ih, strip_padded hhead]

end Strip

end Words
