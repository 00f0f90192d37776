/-
This file shows that fields are read back from their canonical tokens. A label
is printed in front of the type unless the field is singular; without one, the
first word of the type must not be taken for a label. What follows a type and a
name shows that the field is neither a map nor a group.
-/

import ProtoSchema.Proofs.Canonical.Options
import ProtoSchema.Proofs.Tree.IntLiteral
import ProtoSchema.Proofs.Validation.Erasure

namespace ProtoSchema

/-- The literal of a number without a fault has no sign. -/
theorem IntLiteral.negative_of_fieldNumberFaults {literal : IntLiteral}
    (sound : Parser.fieldNumberFaults literal = []) : literal.negative = false := by
  cases negative : literal.negative with
  | false => rfl
  | true =>
    rw [Parser.fieldNumberFaults] at sound
    split at sound
    · cases sound
    · next number fits =>
      have value := value_of_number? fits
      rw [IntLiteral.value, negative, if_pos rfl] at value
      rw [if_neg (by simp only [firstImplementationNumber]; omega), if_neg (by omega)] at sound
      cases sound

/-- Without a label, the field is read as a field. -/
def Field.Clear (context : FieldContext) (field : Field) : Prop :=
  field.label = .singular → field.type.Leads context

/-- The field was read with a label only if its label is written. -/
def Field.LabelShown (field : Field) : Prop := field.labelSpan.isSome → field.label ≠ .singular

namespace Parser

variable {declared : Option Edition} {rest : List Token}

/-! ### Types -/

/-- A word that no dot follows is the name of a scalar or of nothing. -/
theorem scalarAhead?_word (word : String) (ends : rest.head? ≠ some (.symbol .dot)) :
    scalarAhead? (.word word :: rest) = Scalar.ofName? word := by
  cases rest with
  | nil => rfl
  | cons token rest =>
    cases token with
    | symbol mark =>
      cases mark with
      | dot => exact absurd rfl ends
      | _ => rfl
    | _ => rfl

theorem scalarAhead?_tokens {reference : TypeReference} (wellFormed : reference.WellFormed)
    (ends : rest.head? ≠ some (.symbol .dot)) :
    scalarAhead? ((reference.name.tokens ++ rest).take 2) = none := by
  obtain ⟨⟨dot, ⟨parts⟩⟩, kind⟩ := reference
  obtain ⟨first, others, rfl⟩ := List.exists_cons_of_ne_nil wellFormed.name.some
  cases dot with
  | some dot => rfl
  | none =>
    cases others with
    | cons second more => rfl
    | nil =>
      refine (scalarAhead?_word first.text ?_).trans (wellFormed.noScalar first.text rfl)
      cases rest with
      | nil => exact ends
      | cons token rest => exact ends

theorem reads_valueType (type : ValueType) (wellFormed : type.WellFormed)
    (ends : rest.head? ≠ some (.symbol .dot)) :
    Reads declared (type.tokens ++ rest) valueType
      fun found left => found.erased = type.erased ∧ left = rest := by
  cases type with
  | scalar type span =>
    refine Reads.look (Reads.ahead ?_)
    have known : scalarAhead? (([Token.word type.name] ++ rest).take 2) = some type := by
      refine (scalarAhead?_word type.name ?_).trans type.ofName?_name
      cases rest with
      | nil => exact ends
      | cons token rest => exact ends
    rw [ValueType.tokens, known]
    exact Reads.advance fun _ => Reads.pure ⟨rfl, rfl⟩
  | named reference =>
    have back : Reads declared (reference.name.tokens ++ rest) Parser.reference
        fun found left => found.erased = (ValueType.named reference).erased ∧ left = rest := by
      refine (reads_typeName reference.name wellFormed.name ends).bind ?_
      rintro found _ ⟨same, rfl⟩
      refine Reads.pure ⟨?_, rfl⟩
      rw [ValueType.erased, ValueType.erased, TypeReference.erased, TypeReference.erased, same,
        wellFormed.undecided]
    have noScalar := scalarAhead?_tokens wellFormed ends
    obtain ⟨first, others, eq, starts⟩ := TypeName.tokens_eq_cons wellFormed.name
    rw [ValueType.tokens]
    rw [eq] at back noScalar ⊢
    refine Reads.look ?_
    rcases starts with rfl | ⟨word, rfl⟩
    · exact back
    · refine Reads.ahead ?_
      rw [noScalar]
      exact back

/-- The key type of a map is read back. -/
theorem mapKey?_of_erased {found : TypeName} {key : Scalar} {span : Span}
    (same : found.erased = (⟨none, ⟨[⟨key.name, span⟩]⟩⟩ : TypeName).erased)
    (isMapKey : key.isMapKey = true) : mapKey? found = some key := by
  obtain ⟨dot, ⟨parts⟩⟩ := found
  simp only [TypeName.erased, DottedName.erased, Option.map_none, List.map_cons, List.map_nil,
    TypeName.mk.injEq, Option.map_eq_none_iff, DottedName.mk.injEq] at same
  obtain ⟨rfl, partsEq⟩ := same
  obtain ⟨part, _, rfl, partEq, none⟩ := List.map_eq_cons_iff.mp partsEq
  obtain rfl := List.map_eq_nil_iff.mp none
  have text : part.text = key.name := congrArg Name.text partEq
  simp [mapKey?, text, Scalar.ofName?_name, isMapKey]

theorem reads_mapType (type : MapType) (wellFormed : (FieldType.map type).WellFormed) :
    Reads declared ((FieldType.map type).tokens ++ rest) mapType
      fun found left => found.map FieldType.erased = some (FieldType.map type).erased ∧
        left = rest := by
  obtain ⟨key, keySpan, value, span⟩ := type
  obtain ⟨isMapKey, noMap, valueWellFormed⟩ := wellFormed
  obtain ⟨value, rfl⟩ : ∃ type, value = .single type := ⟨_, FieldType.eq_single noMap⟩
  simp only [FieldType.tokens, List.cons_append, List.append_assoc]
  refine Reads.expect fun start => Reads.expect fun _ => ?_
  have keyName : (⟨none, ⟨[⟨key.name, .erased⟩]⟩⟩ : TypeName).WellFormed :=
    ⟨List.cons_ne_nil _ _, List.forall_mem_singleton.mpr key.isIdentifier_name⟩
  refine (reads_typeName _ keyName (by simp)).bind ?_
  rintro foundKey _ ⟨sameKey, rfl⟩
  refine Reads.expect fun _ => ?_
  refine (reads_valueType value valueWellFormed (by simp)).bind ?_
  rintro foundValue _ ⟨sameValue, rfl⟩
  refine Reads.expect fun stop => ?_
  rw [mapKey?_of_erased sameKey isMapKey]
  refine Reads.pure ⟨?_, rfl⟩
  simp only [Option.map_some, FieldType.erased, sameValue]

theorem startsMap_cons (word : String) {second : Token} {others : List Token}
    (noAngle : second ≠ .symbol .leftAngle) : startsMap (.word word :: second :: others) = false := by
  rw [startsMap.eq_def]
  split
  · next eq =>
    obtain ⟨-, rfl, -⟩ : _ ∧ second = .symbol .leftAngle ∧ _ := by simpa using eq
    exact absurd rfl noAngle
  · rfl

/-- A value type in front of a name is not read as a map. -/
theorem startsMap_tokens {type : ValueType} (wellFormed : type.WellFormed) (name : String) :
    startsMap ((type.tokens ++ .word name :: rest).take 2) = false := by
  rcases wellFormed.tokens_cases with ⟨word, eq⟩ | ⟨others, eq⟩ | ⟨word, others, eq⟩
  · rw [eq]
    exact startsMap_cons word (by simp)
  · rw [eq]
    rfl
  · rw [eq]
    exact startsMap_cons word (by simp)

theorem reads_fieldType (type : FieldType) (wellFormed : type.WellFormed) (name : String) :
    Reads declared (type.tokens ++ .word name :: rest) fieldType
      fun found left => found.map FieldType.erased = some type.erased ∧
        left = .word name :: rest := by
  refine Reads.ahead ?_
  match type with
  | .map ⟨key, keySpan, value, span⟩ => exact reads_mapType ⟨key, keySpan, value, span⟩ wellFormed
  | .single type =>
    rw [FieldType.tokens, startsMap_tokens wellFormed, if_neg Bool.false_ne_true]
    refine (reads_valueType type wellFormed (by simp)).bind ?_
    rintro found _ ⟨same, rfl⟩
    refine Reads.pure ⟨?_, rfl⟩
    rw [Option.map_some, FieldType.erased, FieldType.erased, same]

theorem startsGroup_second {first : Token} {mark : Symbol} {others : List Token} :
    startsGroup (first :: .symbol mark :: others) = false := by
  rw [startsGroup.eq_def]
  split
  · next eq => exact absurd eq (by simp)
  · rfl

theorem startsGroup_last {first second third fourth last : Token}
    (noBrace : last ≠ .symbol .leftBrace) :
    startsGroup [first, second, third, fourth, last] = false := by
  rw [startsGroup.eq_def]
  split
  · next eq =>
    simp only [List.cons.injEq] at eq
    exact absurd eq.2.2.2.2.1 noBrace
  · rfl

/-- A type and what follows it are not read as a group. -/
theorem startsGroup_tokens {type : FieldType} (wellFormed : type.WellFormed) (name : String)
    (number : UInt64) {last : Token} (noBrace : last ≠ .symbol .leftBrace) :
    startsGroup ((type.tokens ++ .word name :: .symbol .equals :: .int number :: last ::
      rest).take 5) = false := by
  match type with
  | .map ⟨_, _, _, _⟩ => exact startsGroup_second
  | .single type =>
    rw [FieldType.tokens]
    rcases wellFormed.tokens_cases with ⟨word, eq⟩ | ⟨others, eq⟩ | ⟨word, others, eq⟩
    · rw [eq]
      exact startsGroup_last noBrace
    · rw [eq]
      rfl
    · rw [eq]
      exact startsGroup_second

/-- The tokens of settings and of the semicolon after them start with a bracket or are the
semicolon. -/
theorem listTokens_eq_cons (settings : List OptionSetting) (rest : List Token) :
    ∃ last tail, OptionSetting.listTokens settings ++ .symbol .semicolon :: rest = last :: tail ∧
      (last = .symbol .leftBracket ∨ last = .symbol .semicolon) := by
  cases settings with
  | nil => exact ⟨_, _, rfl, .inr rfl⟩
  | cons setting others => exact ⟨_, _, rfl, .inl rfl⟩

/-! ### Labels -/

theorem reads_fieldLabel (context : FieldContext) (label : FieldLabel)
    (leads : label = .singular → ∀ word, rest.head? = some (.word word) → word ∉ labelWords) :
    Reads declared (label.tokens ++ rest) (fieldLabel context)
      fun found left => found.1 = label ∧ (found.2.isSome → label ≠ .singular) ∧ left = rest := by
  refine Reads.look ?_
  cases label with
  | optional => exact Reads.advance fun _ => Reads.pure ⟨rfl, by simp, rfl⟩
  | repeated => exact Reads.advance fun _ => Reads.pure ⟨rfl, by simp, rfl⟩
  | singular =>
    have noLabel (word : String) (head : rest.head? = some (.word word)) : word ∉ labelWords :=
      leads rfl word head
    have input : FieldLabel.singular.tokens ++ rest = rest := rfl
    rw [input]
    split
    · next head => exact absurd (noLabel _ head) (by decide)
    · next head => exact absurd (noLabel _ head) (by decide)
    · next head => exact absurd (noLabel _ head) (by decide)
    · exact Reads.pure ⟨rfl, by simp, rfl⟩

/-! ### Numbers -/

theorem reads_fieldNumber (literal : IntLiteral) (sound : fieldNumberFaults literal = []) :
    Reads declared (.int literal.magnitude :: rest) fieldNumber
      fun found left => found.erased = literal.erased ∧ left = rest := by
  have input : .int literal.magnitude :: rest = literal.tokens ++ rest := by
    rw [IntLiteral.tokens, IntLiteral.negative_of_fieldNumberFaults sound]
    rfl
  rw [input]
  refine (reads_signedInt _ literal).bind ?_
  rintro found _ ⟨same, rfl⟩
  refine Reads.report ?_ (Reads.pure ⟨same, rfl⟩)
  rwa [← fieldNumberFaults_erased, same, fieldNumberFaults_erased]

/-! ### Fields -/

/-- A well-formed field is read back if its type is read as a type. -/
theorem reads_field (context : FieldContext) (field : Field)
    (wellFormed : field.WellFormed declared context)
    (clear : field.Clear context) :
    Reads declared (field.tokens ++ rest) (Parser.field context)
      fun found left => (∃ answer, found = some answer ∧ answer.erased = field.erased ∧
        answer.LabelShown) ∧ left = rest := by
  obtain ⟨label, labelSpan, type, name, number, options, oneof, comments, span⟩ := field
  have typeWellFormed : type.WellFormed := wellFormed.type
  obtain ⟨last, tail, after, starts⟩ := listTokens_eq_cons options rest
  have noBrace : last ≠ .symbol .leftBrace := by
    rcases starts with rfl | rfl <;> simp
  simp only [Field.tokens, List.append_assoc, List.cons_append, List.nil_append]
  refine reads_leadingComments fun comments => Reads.here fun start => ?_
  refine (reads_fieldLabel context label ?_).bind ?_
  · intro singular word head
    obtain ⟨first, others, eq, -⟩ := typeWellFormed.tokens_eq_cons
    rw [eq] at head
    exact fun member => clear singular word (by rw [eq]; exact head) (List.mem_append_left _ member)
  rintro ⟨foundLabel, foundSpan⟩ _ ⟨rfl, shown, rfl⟩
  refine Reads.ahead ?_
  rw [after, startsGroup_tokens typeWellFormed name.text number.magnitude noBrace,
    if_neg Bool.false_ne_true, ← after]
  refine (reads_fieldType type typeWellFormed name.text).bind ?_
  rintro foundType _ ⟨sameType, rfl⟩
  refine (reads_name name).bind ?_
  rintro foundName _ ⟨sameName, rfl⟩
  refine Reads.expect fun _ => ?_
  refine (reads_fieldNumber number wellFormed.number).bind ?_
  rintro foundNumber _ ⟨sameNumber, rfl⟩
  refine (reads_optionalSettings options wellFormed.options).bind ?_
  rintro foundOptions _ ⟨sameOptions, rfl⟩
  refine Reads.edition (Reads.report ?_ ?_)
  · rw [← defaultFaults_erased, sameOptions, defaultFaults_erased]
    exact wellFormed.defaults
  refine reads_terminator.bind ?_
  rintro ⟨stop, trailing⟩ _ rfl
  obtain ⟨answer, rfl, sameAnswer⟩ := Option.map_eq_some_iff.mp sameType
  refine Reads.pure ⟨⟨_, rfl, ?_, shown⟩, rfl⟩
  have oneofEq : oneof = context.oneof? := wellFormed.oneof
  simp only [Field.erased, sameAnswer, sameName, sameNumber, sameOptions, oneofEq]

end Parser

end ProtoSchema
