/-
This file shows what the parser of fields answers. The type was spelled as its
canonical tokens, so the word it starts with is the one that was taken neither
for a label nor for the start of another member. A label that is not printed was
the word `required`.
-/

import ProtoSchema.Grammar.Fields
import ProtoSchema.Proofs.Canonical.Fields
import ProtoSchema.Proofs.Grammar.Options

namespace ProtoSchema

theorem Scalar.name_of_ofName? {text : String} {scalar : Scalar}
    (found : Scalar.ofName? text = some scalar) : scalar.name = text := by
  unfold Scalar.ofName? at found
  split at found <;> cases found <;> rfl

/-- One for a field that was written with a label that is not printed. -/
def Field.droppedLabels (field : Field) : Nat :=
  if field.labelSpan.isSome ∧ field.label = .singular then 1 else 0

theorem Field.labelShown_of_droppedLabels {field : Field} (none : field.droppedLabels = 0) :
    field.LabelShown := by
  intro labelled singular
  rw [droppedLabels, if_pos ⟨labelled, singular⟩] at none
  cases none

namespace Parser

variable {declared : Option Edition} {context : FieldContext} {input : List Token}

/-! ### Labels -/

/-- Without a label nothing is taken, and the next word is no label. -/
theorem ensures_fieldLabel :
    Ensures declared input (fieldLabel context) fun found rest =>
      (found.2 = none → found.1 = .singular ∧ rest = input ∧
        ∀ word, input.head? = some (.word word) → word ∉ labelWords) ∧
      (∀ span, found.2 = some span → found.1 = .singular →
        requiredFaults declared context span = []) ∧
      requiredWords (found.1.tokens ++ rest) +
        (if found.2.isSome ∧ found.1 = .singular then 1 else 0) ≤ requiredWords input := by
  refine Ensures.look ?_
  split
  · next head =>
    obtain ⟨rest, rfl⟩ := List.head?_eq_some_iff.mp head
    refine Ensures.advance fun span => Ensures.pure ⟨by simp, by simp, ?_⟩
    simp [FieldLabel.tokens, FieldLabel.word?]
  · next head =>
    obtain ⟨rest, rfl⟩ := List.head?_eq_some_iff.mp head
    refine Ensures.advance fun span => Ensures.pure ⟨by simp, by simp, ?_⟩
    simp [FieldLabel.tokens, FieldLabel.word?]
  · next head =>
    obtain ⟨rest, rfl⟩ := List.head?_eq_some_iff.mp head
    refine Ensures.advance fun span => Ensures.edition (Ensures.report fun sound => ?_)
    refine Ensures.pure ⟨by simp, ?_, by simp [FieldLabel.tokens, FieldLabel.word?]⟩
    rintro found eq -
    obtain rfl : span = found := Option.some.inj eq
    exact sound
  · next noOptional noRepeated noRequired =>
    refine Ensures.pure ⟨fun _ => ⟨rfl, rfl, ?_⟩, by simp, by simp [FieldLabel.tokens, FieldLabel.word?]⟩
    rintro word head member
    simp only [labelWords, List.mem_cons, List.not_mem_nil, or_false] at member
    rcases member with rfl | rfl | rfl
    · exact noOptional head
    · exact noRepeated head
    · exact noRequired head

/-! ### Types -/

theorem ensures_reference (noScalar : scalarAhead? (input.take 2) = none) :
    Ensures declared input reference fun found rest =>
      found.WellFormed ∧ input = found.tokens ++ rest := by
  refine ensures_typeName.bind ?_
  rintro name rest ⟨wellFormed, rfl, ends⟩
  refine Ensures.pure ⟨⟨rfl, wellFormed, fun word eq => ?_⟩, rfl⟩
  rw [eq] at noScalar
  cases rest with
  | nil => exact noScalar
  | cons token rest =>
    have ends : [token].head? ≠ some (.symbol .dot) := ends
    exact (scalarAhead?_word word ends).symm.trans noScalar

theorem ofName?_of_scalarAhead? {text : String} {rest : List Token} {scalar : Scalar}
    (found : scalarAhead? (.word text :: rest) = some scalar) :
    Scalar.ofName? text = some scalar := by
  by_cases ends : rest.head? = some (.symbol .dot)
  · obtain ⟨rest, rfl⟩ := List.head?_eq_some_iff.mp ends
    cases found
  · rwa [scalarAhead?_word text ends] at found

theorem ensures_valueType :
    Ensures declared input valueType fun found rest =>
      found.WellFormed ∧ input = found.tokens ++ rest := by
  refine Ensures.look ?_
  split
  · next text head =>
    obtain ⟨rest, rfl⟩ := List.head?_eq_some_iff.mp head
    refine Ensures.ahead ?_
    split
    · next scalar found =>
      rw [← Scalar.name_of_ofName? (ofName?_of_scalarAhead? found)]
      exact Ensures.advance fun span => Ensures.pure ⟨trivial, rfl⟩
    · next noScalar => exact ensures_reference noScalar
  · next head =>
    obtain ⟨rest, rfl⟩ := List.head?_eq_some_iff.mp head
    exact ensures_reference rfl
  · exact Ensures.unexpected

/-- A name that stands for a key type is the word for it. -/
theorem eq_of_mapKey? {name : TypeName} {key : Scalar} (found : mapKey? name = some key) :
    name.tokens = [.word key.name] ∧ key.isMapKey = true := by
  unfold mapKey? at found
  split at found
  · next part =>
    obtain ⟨named, isKey⟩ := Option.filter_eq_some_iff.mp found
    exact ⟨by rw [Scalar.name_of_ofName? named]; rfl, isKey⟩
  · cases found

theorem ensures_mapType :
    Ensures declared input mapType fun found rest => ∃ type, found = some type ∧
      type.WellFormed ∧ input = type.tokens ++ rest := by
  refine Ensures.expect ?_
  rintro start rest rfl
  refine Ensures.expect ?_
  rintro _ rest rfl
  refine ensures_typeName.bind ?_
  rintro keyName rest ⟨-, rfl, -⟩
  refine Ensures.expect ?_
  rintro _ rest rfl
  refine ensures_valueType.bind ?_
  rintro value rest ⟨wellFormed, rfl⟩
  refine Ensures.expect ?_
  rintro stop rest rfl
  split
  · next key found =>
    obtain ⟨eq, isKey⟩ := eq_of_mapKey? found
    refine Ensures.pure ⟨_, rfl, ⟨isKey, rfl, wellFormed⟩, ?_⟩
    simp [FieldType.tokens, eq]
  · exact Ensures.report fun sound => by cases sound

theorem ensures_fieldType :
    Ensures declared input fieldType fun found rest => ∃ type, found = some type ∧
      type.WellFormed ∧ input = type.tokens ++ rest := by
  refine Ensures.ahead ?_
  split
  · exact ensures_mapType
  · refine ensures_valueType.bind ?_
    rintro type rest ⟨wellFormed, rfl⟩
    exact Ensures.pure ⟨_, rfl, wellFormed, rfl⟩

/-! ### Numbers -/

theorem ensures_fieldNumber :
    Ensures declared input fieldNumber fun found rest =>
      fieldNumberFaults found = [] ∧ input = found.tokens ++ rest := by
  refine ensures_signedInt.bind ?_
  rintro literal rest rfl
  exact Ensures.report fun sound => Ensures.pure ⟨sound, rfl⟩

/-! ### Fields -/

/-- A field that starts with no word of another member is well formed, and if the word `required`
was dropped then it was taken. -/
theorem ensures_field
    (leads : ∀ word, input.head? = some (.word word) → word ∉ context.memberWords) :
    Ensures declared input (field context) fun found rest => ∃ field, found = some field ∧
      field.WellFormed declared context ∧
        requiredWords (field.tokens ++ rest) + field.droppedLabels ≤ requiredWords input := by
  refine ensures_leadingComments.bind ?_
  rintro comments spelled rfl
  refine Ensures.here fun start => ensures_fieldLabel.bind ?_
  rintro ⟨label, labelSpan⟩ afterLabel ⟨unlabelled, required, labelWords⟩
  refine Ensures.ahead ?_
  split
  · exact Ensures.here fun _ => Ensures.stop
  refine ensures_fieldType.bind ?_
  rintro _ afterType ⟨type, rfl, typeWellFormed, rfl⟩
  refine ensures_name.bind ?_
  rintro name rest ⟨rfl, nameWellFormed⟩
  refine Ensures.expect ?_
  rintro _ rest rfl
  refine ensures_fieldNumber.bind ?_
  rintro number rest ⟨numberSound, rfl⟩
  refine ensures_optionalSettings.bind ?_
  rintro options rest ⟨optionsWellFormed, optionWords⟩
  refine Ensures.edition (Ensures.report fun defaultsSound => ensures_terminator.bind ?_)
  rintro ⟨stop, trailing⟩ rest rfl
  refine Ensures.pure ⟨_, rfl, ?_, ?_⟩
  · refine
      { type := typeWellFormed
        name := nameWellFormed
        number := numberSound
        options := optionsWellFormed
        defaults := defaultsSound
        oneof := rfl
        unlabelled := fun none => (unlabelled none).1
        required := required
        leads := fun none word head => ?_ }
    obtain ⟨-, same, noLabel⟩ := unlabelled none
    have first : spelled.head? = some (.word word) := by
      rw [← same, List.head?_append, head, Option.some_or]
    exact List.not_mem_append (noLabel word first) (leads word first)
  · simp [Field.tokens, Field.droppedLabels] at labelWords optionWords ⊢
    omega

end Parser

end ProtoSchema
