/-
This file says what is asked of a field as a rule on its number, type, label and
options, at each kind of place where a field may stand. The parser checks a field
while it reads it and leaves the rest to the checks of the message, oneof or
extension block around it; whatever passes all of them keeps the rule.
-/

import ProtoSchema.Proofs.Grammar.WellFormed
import ProtoSchema.Proofs.Tree.IntLiteral

namespace ProtoSchema

/-! ### Numbers -/

/-- The rule for the numbers of fields. -/
structure IntLiteral.NumbersField (literal : IntLiteral) : Prop where
  unsigned : literal.negative = false
  least : 1 ≤ literal.magnitude.toNat
  greatest : literal.magnitude.toNat ≤ 536870911
  notSetAside : ¬ (19000 ≤ literal.magnitude.toNat ∧ literal.magnitude.toNat ≤ 19999)

/-- The check of a number finds nothing just in case the number is one that fields may have: one
that does not fit the words that numbers are stored in is too large in any case. -/
theorem Parser.fieldNumberFaults_eq_nil_iff_value (literal : IntLiteral) :
    fieldNumberFaults literal = [] ↔
      (1 ≤ literal.value ∧ literal.value ≤ 536870911) ∧
        ¬ (19000 ≤ literal.value ∧ literal.value ≤ 19999) := by
  have first : (firstImplementationNumber : Int) = 19000 := rfl
  have last : (lastImplementationNumber : Int) = 19999 := rfl
  have greatest : (maxFieldNumber : Int) = 536870911 := rfl
  unfold fieldNumberFaults
  rw [literal.number?_eq, first, last, greatest]
  by_cases fits : literal.FitsInt32
  · rw [if_pos fits]
    dsimp only
    by_cases setAside : 19000 ≤ literal.value ∧ literal.value ≤ 19999
    · simp [setAside]
    · rw [if_neg setAside]
      by_cases inside : 1 ≤ literal.value ∧ literal.value ≤ 536870911
      · simp only [if_pos inside, true_iff]
        exact ⟨inside, setAside⟩
      · simp [inside]
  · rw [if_neg fits]
    rw [IntLiteral.FitsInt32] at fits
    simp only [List.cons_ne_nil, false_iff]
    omega

/-- The check of a number finds nothing just in case the rule is kept. -/
theorem Parser.fieldNumberFaults_eq_nil_iff (literal : IntLiteral) :
    fieldNumberFaults literal = [] ↔ literal.NumbersField := by
  rw [fieldNumberFaults_eq_nil_iff_value, IntLiteral.value]
  cases negative : literal.negative with
  | true =>
    rw [if_pos rfl]
    constructor
    · intro inside
      omega
    · intro rule
      rw [rule.unsigned] at negative
      cases negative
  | false =>
    rw [if_neg Bool.false_ne_true]
    constructor
    · intro inside
      exact ⟨negative, by omega, by omega, by omega⟩
    · rintro ⟨-, least, greatest, notSetAside⟩
      omega

/-! ### Labels and options -/

/-- The field was written with the word `required`. -/
def Field.WrittenRequired (field : Field) : Prop :=
  field.label = .singular ∧ field.labelSpan.isSome = true

theorem Parser.requiredFaults_eq_nil_iff (edition : Option Edition) (context : FieldContext)
    (span : Span) :
    requiredFaults edition context span = [] ↔ context ≠ .extension ∧ edition ≠ some .proto3 := by
  unfold requiredFaults
  by_cases extension : context = .extension
  · simp [extension]
  · by_cases newer : edition = some .proto3
    · simp [extension, newer]
    · simp [extension, newer]

theorem OptionSetting.isNamed_iff (setting : OptionSetting) (word : String) :
    setting.isNamed word = true ↔ ∃ name : Name, setting.name = [.plain name] ∧ name.text = word := by
  unfold isNamed
  split
  · next name eq =>
    rw [eq, decide_eq_true_eq]
    constructor
    · intro same
      exact ⟨name, rfl, same⟩
    · intro ⟨other, single, same⟩
      cases single
      exact same
  · next others =>
    constructor
    · intro impossible
      cases impossible
    · intro ⟨name, single, _⟩
      exact absurd single (others name)

theorem Parser.defaultFaults_eq_nil_iff (edition : Option Edition) (options : List OptionSetting) :
    defaultFaults edition options = [] ↔
      (edition = some .proto3 → ∀ option ∈ options, ∀ name : Name,
        option.name = [.plain name] → name.text ≠ "default") := by
  have unnamed (option : OptionSetting) : ¬ option.isNamed "default" = true ↔
      ∀ name : Name, option.name = [.plain name] → name.text ≠ "default" := by
    rw [option.isNamed_iff]
    simp only [not_exists, not_and, ne_eq]
  unfold defaultFaults
  by_cases newer : edition = some .proto3
  · rw [if_pos newer, List.map_eq_nil_iff, List.filter_eq_nil_iff]
    simp only [unnamed, newer, true_implies]
  · simp [newer]

/-! ### Fields -/

/-- The rule for a map, which is a field that stands directly in a message. -/
structure Field.LegalMap (context : FieldContext) (field : Field) (type : MapType) : Prop where
  direct : context = .message
  singular : field.label = .singular
  unlabelled : field.labelSpan = none
  key : type.key ∉ [Scalar.double, Scalar.float, Scalar.bytes]
  value : type.value.isMap = false

/-- The rule for a field at a kind of place, in a file that declares the given edition. -/
structure Field.Legal (edition : Option Edition) (context : FieldContext) (field : Field) :
    Prop where
  number : field.number.NumbersField
  map : ∀ type, field.type = .map type → field.LegalMap context type
  notRequired : context = .extension ∨ edition = some .proto3 → ¬ field.WrittenRequired
  noDefault : edition = some .proto3 → ∀ option ∈ field.options, ∀ name : Name,
    option.name = [.plain name] → name.text ≠ "default"

theorem Scalar.isMapKey_iff (scalar : Scalar) :
    scalar.isMapKey = true ↔ scalar ∉ [double, float, bytes] := by
  cases scalar <;> decide

/-- The field passes the checks made of maps by the declaration around it. -/
structure Field.MapsChecked (context : FieldContext) (field : Field) : Prop where
  direct : field.type.isMap = true → context = .message
  unlabelled : field.type.isMap = true → field.labelSpan = none

/-- A field that passes the checks made of it, and those of maps, keeps the rule. -/
theorem Field.WellFormed.legal {edition : Option Edition} {context : FieldContext} {field : Field}
    (wellFormed : field.WellFormed edition context) (maps : field.MapsChecked context) :
    field.Legal edition context where
  number := (Parser.fieldNumberFaults_eq_nil_iff _).mp wellFormed.number
  map := by
    intro type eq
    have isMap : field.type.isMap = true := by rw [eq]; rfl
    have typeWellFormed : (FieldType.map type).WellFormed := eq ▸ wellFormed.type
    have unlabelled := maps.unlabelled isMap
    exact
      { direct := maps.direct isMap
        singular := wellFormed.unlabelled unlabelled
        unlabelled := unlabelled
        key := type.key.isMapKey_iff.mp typeWellFormed.1
        value := typeWellFormed.2.1 }
  notRequired := by
    intro forbidden ⟨singular, labelled⟩
    obtain ⟨span, found⟩ := Option.isSome_iff_exists.mp labelled
    have allowed := (Parser.requiredFaults_eq_nil_iff _ _ _).mp
      (wellFormed.required span found singular)
    exact forbidden.elim allowed.1 allowed.2
  noDefault := (Parser.defaultFaults_eq_nil_iff _ _).mp wellFormed.defaults

end ProtoSchema
