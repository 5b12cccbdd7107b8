import Mathlib.Data.List.Forall2

/-! # Wire values and decoders

A wire value is what a derived codec exchanges with a data format. A decoder
reads a value of some type out of one, or fails with a `DecodeError`; the
decoders of sequences, of named fields and of internally tagged variants are
built from the decoders of their parts.

`Yields` is the contract of a fallible computation: it succeeds exactly under a
condition, and what it yields has a property. There is one rule for each way to
build a decoder, so the contract of a nested decoder is assembled from the
contracts of its parts.
-/

namespace Serde

/-- A value of the data model. -/
inductive Value where
  | unit
  | bool (b : Bool)
  | int (n : Int)
  | str (s : List Char)
  | seq (items : List Value)
  | map (fields : List (String × Value))

/-- What a decoder can fail with: a shape that is not there, or a check that fails. -/
inductive DecodeError (ε : Type) where
  | invalidType (expected : String)
  | missingField (name : String)
  | duplicateField (name : String)
  | unknownVariant (tag : List Char)
  | custom (e : ε)

/-- A decoder of `α`, whose checks fail with an `ε`. -/
abbrev Decoder (ε α : Type) : Type := Value → Except (DecodeError ε) α

variable {ε α β ρ : Type}

/-! ## Decoders -/

/-- Only a text is decoded as one. -/
def deserializeStr : Decoder ε (List Char)
  | .str s => .ok s
  | _ => .error (.invalidType "a string")

/-- A list is encoded item by item. -/
def serializeVec (serialize : α → Value) (xs : List α) : Value := .seq (xs.map serialize)

/-- A list is decoded item by item; the first failure ends the loop. -/
def deserializeVec (d : Decoder ε α) : Decoder ε (List α)
  | .seq items => items.mapM d
  | _ => .error (.invalidType "a sequence")

/-- Decode the field of a name. Other fields are not looked at. -/
def deserializeField (name : String) (d : Decoder ε α) : Decoder ε α
  | .map fields =>
    match fields.filter fun field => field.1 = name with
    | [] => .error (.missingField name)
    | [field] => d field.2
    | _ => .error (.duplicateField name)
  | _ => .error (.invalidType "a map")

/-- Decode, then check what was decoded. -/
def validated (d : Decoder ε α) (check : α → Except ε β) : Decoder ε β := fun v => do
  let x ← d v
  (check x).mapError .custom

/-- The fields of a variant, next to the field that names it. -/
def tagged (tag : String) (fields : List (String × Value)) : Value :=
  .map (("type", .str tag.toList) :: fields)

/-- Decode the variant that the field `type` names. -/
def deserializeTagged (variants : List (String × Decoder ε α)) : Decoder ε α := fun v => do
  let tag ← deserializeField "type" deserializeStr v
  match variants.find? fun variant => variant.1.toList = tag with
  | some variant => variant.2 v
  | none => .error (.unknownVariant tag)

/-- The value is a map with exactly one field of the name. -/
def Value.HasField (v : Value) (name : String) (w : Value) : Prop :=
  ∃ fields, v = .map fields ∧ (fields.filter fun field => field.1 = name) = [(name, w)]

/-! ## Decoding what was encoded -/

/-- A text is decoded as it is. -/
@[simp] theorem deserializeStr_str (s : List Char) :
    (deserializeStr (.str s) : Except (DecodeError ε) (List Char)) = .ok s := rfl

/-- A field that occurs once is the one that is decoded. -/
theorem deserializeField_eq {d : Decoder ε α} {v w : Value} {name : String}
    (h : v.HasField name w) : deserializeField name d v = d w := by
  rcases h with ⟨fields, rfl, hfield⟩
  simp only [deserializeField, hfield]

/-- A variant with one field is decoded from that field. -/
theorem map_deserializeField_eq {d : Decoder ε α} {f : α → β} {v w : Value} {name : String} {x : α}
    (h : v.HasField name w) (hx : d w = .ok x) : f <$> deserializeField name d v = .ok (f x) := by
  rw [deserializeField_eq h, hx]
  rfl

/-- A checked value needs both the decoding and the check to succeed. -/
theorem validated_eq_ok {d : Decoder ε α} {check : α → Except ε β} {v : Value} {x : α} {y : β}
    (hx : d v = .ok x) (hy : check x = .ok y) : validated d check v = .ok y := by
  simp only [validated, hx, bind, Except.bind, hy, Except.mapError]

/-- A list survives when each of its items does. -/
theorem deserializeVec_serializeVec {d : Decoder ε α} {serialize : α → Value} {xs : List α}
    (h : ∀ x ∈ xs, d (serialize x) = .ok x) :
    deserializeVec d (serializeVec serialize xs) = .ok xs := by
  show (xs.map serialize).mapM d = .ok xs
  induction xs with
  | nil => rfl
  | cons x xs ih =>
    rw [List.forall_mem_cons] at h
    rw [List.map_cons, List.mapM_cons, h.1, ih h.2]
    rfl

/-- The tag selects the decoder of the whole value. -/
theorem deserializeTagged_eq {variants : List (String × Decoder ε α)} {v : Value}
    {tag : List Char} {variant : String × Decoder ε α} (htag : v.HasField "type" (.str tag))
    (hfind : variants.find? (fun variant => variant.1.toList = tag) = some variant) :
    deserializeTagged variants v = variant.2 v := by
  simp only [deserializeTagged, deserializeField_eq htag, deserializeStr_str, bind, Except.bind,
    hfind]

/-- A tagged value is decoded by the variant that its tag selects. -/
theorem deserializeTagged_eq_ok {variants : List (String × Decoder ε α)} {v : Value}
    {tag : List Char} {variant : String × Decoder ε α} {x : α}
    (htag : v.HasField "type" (.str tag))
    (hfind : variants.find? (fun variant => variant.1.toList = tag) = some variant)
    (hx : variant.2 v = .ok x) : deserializeTagged variants v = .ok x :=
  (deserializeTagged_eq htag hfind).trans hx

/-! ## Contracts -/

/-- The computation succeeds exactly under `A`, and what it yields has the
property `M`. -/
def Yields {E : Type} (r : Except E α) (A : Prop) (M : α → Prop) : Prop :=
  ((∃ x, r = .ok x) ↔ A) ∧ ∀ x, r = .ok x → M x

namespace Yields

variable {E : Type} {r : Except E α} {A B : Prop} {M : α → Prop} {N : β → Prop}

/-- What has succeeded yields its value, under no condition. -/
theorem ok {x : α} (h : M x) : Yields (.ok x : Except E α) True M :=
  ⟨iff_true_intro ⟨x, rfl⟩, fun _ hy => Except.ok.inj hy ▸ h⟩

/-- What has failed succeeds under no condition. -/
theorem error {e : E} : Yields (.error e : Except E α) False M := by
  refine ⟨⟨?_, False.elim⟩, ?_⟩
  · rintro ⟨x, h⟩
    cases h
  · intro x h
    cases h

/-- The condition of a failed computation does not hold. -/
theorem not_of_error {e : E} (h : Yields (.error e : Except E α) A M) : ¬ A := by
  intro hA
  rcases h.1.mpr hA with ⟨x, hx⟩
  cases hx

/-- The condition of a computation that succeeded holds, and so does the property. -/
theorem of_ok {x : α} (h : Yields (.ok x : Except E α) A M) : A ∧ M x :=
  ⟨h.1.mp ⟨x, rfl⟩, h.2 x rfl⟩

/-- The condition up to equivalence, the property up to weakening. -/
theorem congr (h : Yields r A M) {A' : Prop} {M' : α → Prop} (hA : A ↔ A')
    (hM : ∀ x, M x → M' x) : Yields r A' M' :=
  ⟨h.1.trans hA, fun x hx => hM x (h.2 x hx)⟩

/-- A sequence of two steps succeeds when both do. -/
theorem bind (h : Yields r A M) {f : α → Except E β} (hf : ∀ x, M x → Yields (f x) B N) :
    Yields (r >>= f) (A ∧ B) N := by
  cases r with
  | error e => exact error.congr ⟨False.elim, fun hAB => h.not_of_error hAB.1⟩ fun _ => id
  | ok x =>
    obtain ⟨hA, hM⟩ := h.of_ok
    exact (hf x hM).congr ⟨fun hB => ⟨hA, hB⟩, And.right⟩ fun _ => id

/-- What fails first fails altogether. -/
theorem bind_of_false (h : Yields r False M) (f : α → Except E β) : Yields (r >>= f) False N := by
  cases r with
  | error e => exact error
  | ok x => exact absurd h.of_ok.1 id

/-- A function on the result keeps the condition. -/
theorem map (h : Yields r A M) {f : α → β} (hf : ∀ x, M x → N (f x)) : Yields (f <$> r) A N := by
  cases r with
  | error e => exact error.congr ⟨False.elim, h.not_of_error⟩ fun _ => id
  | ok x =>
    obtain ⟨hA, hM⟩ := h.of_ok
    exact (ok (hf x hM)).congr ⟨fun _ => hA, fun _ => trivial⟩ fun _ => id

/-- Which error is reported does not matter to the contract. -/
theorem mapError {E' : Type} (h : Yields r A M) (f : E → E') : Yields (r.mapError f) A M := by
  cases r with
  | error e => exact error.congr ⟨False.elim, h.not_of_error⟩ fun _ => id
  | ok x =>
    obtain ⟨hA, hM⟩ := h.of_ok
    exact (ok hM).congr ⟨fun _ => hA, fun _ => trivial⟩ fun _ => id

/-- A loop over a list succeeds when every step does. -/
theorem mapM {f : α → Except E β} {items : List α} {raws : List ρ} {A : ρ → Prop}
    {M : β → ρ → Prop}
    (h : List.Forall₂ (fun item raw => Yields (f item) (A raw) fun y => M y raw) items raws) :
    Yields (items.mapM f) (∀ raw ∈ raws, A raw) fun ys => List.Forall₂ M ys raws := by
  induction h with
  | nil =>
    have hnil : Yields (.ok [] : Except E (List β)) True fun ys => List.Forall₂ M ys [] :=
      ok List.Forall₂.nil
    exact hnil.congr (by simp) fun _ => id
  | @cons item raw items raws hitem _ ih =>
    rw [List.mapM_cons, List.forall_mem_cons]
    refine hitem.bind fun y hy => ?_
    have hrest : Yields (items.mapM f >>= fun ys => pure (y :: ys))
        ((∀ raw ∈ raws, A raw) ∧ True) fun ys => List.Forall₂ M ys (raw :: raws) :=
      ih.bind fun ys hys => ok (List.Forall₂.cons hy hys)
    exact hrest.congr (and_iff_left trivial) fun _ => id

/-! ### Contracts of decoders -/

variable {d : Decoder ε α} {v w : Value}

/-- Decoding and checking are two steps. -/
theorem validated (h : Yields (d v) A M) {check : α → Except ε β}
    (hcheck : ∀ x, M x → Yields (check x) B N) : Yields (validated d check v) (A ∧ B) N :=
  h.bind fun x hx => (hcheck x hx).mapError _

/-- A sequence is decoded when each of its items is. -/
theorem vec {items : List Value} {raws : List ρ} {A : ρ → Prop} {M : α → ρ → Prop}
    (h : List.Forall₂ (fun item raw => Yields (d item) (A raw) fun x => M x raw) items raws) :
    Yields (deserializeVec d (.seq items)) (∀ raw ∈ raws, A raw)
      fun xs => List.Forall₂ M xs raws :=
  mapM h

/-- A field is decoded when its value is. -/
theorem field {name : String} (hfield : v.HasField name w) (h : Yields (d w) A M) :
    Yields (deserializeField name d v) A M := by
  rw [deserializeField_eq hfield]
  exact h

section Tagged

variable {variants : List (String × Decoder ε α)} {tag : List Char}
  (htag : v.HasField "type" (.str tag))
include htag

/-- A known tag leaves the contract of its variant. -/
theorem variant {variant : String × Decoder ε α}
    (hfind : variants.find? (fun variant => variant.1.toList = tag) = some variant)
    (h : Yields (variant.2 v) A M) : Yields (deserializeTagged variants v) A M := by
  rw [deserializeTagged_eq htag hfind]
  exact h

/-- An unknown tag is an error, whatever the other fields are. -/
theorem unknown (h : tag ∉ variants.map fun variant => variant.1.toList) :
    Yields (deserializeTagged variants v) False M := by
  have hfind : variants.find? (fun variant => variant.1.toList = tag) = none := by
    rw [List.find?_eq_none]
    intro variant hmem heq
    exact h (List.mem_map.mpr ⟨variant, hmem, by simpa using heq⟩)
  simp only [deserializeTagged, deserializeField_eq htag, deserializeStr_str, Bind.bind,
    Except.bind, hfind]
  exact error

end Tagged

end Yields

/-! ## Lists related element by element -/

/-- Related elements carry a property from one list to the other. -/
theorem exists_mem_iff {R : α → ρ → Prop} {P : α → Prop} {Q : ρ → Prop} {xs : List α}
    {raws : List ρ} (h : List.Forall₂ R xs raws) (hPQ : ∀ x raw, R x raw → (P x ↔ Q raw)) :
    (∃ x ∈ xs, P x) ↔ ∃ raw ∈ raws, Q raw := by
  induction h with
  | nil => simp
  | cons hR _ ih => simp only [List.exists_mem_cons_iff, ih, hPQ _ _ hR]

/-- Related lists are empty together. -/
theorem ne_nil_iff {R : α → ρ → Prop} {xs : List α} {raws : List ρ}
    (h : List.Forall₂ R xs raws) : xs ≠ [] ↔ raws ≠ [] := by
  cases h <;> simp

end Serde
