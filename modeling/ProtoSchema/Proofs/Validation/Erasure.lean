/-
This file shows that what is asked of declarations is asked of what stays when
they are erased, with the exception of labels: a label that is left out of the
canonical form cannot be found fault with there.
-/

import Mathlib.Tactic.Tauto
import ProtoSchema.Grammar.Files
import ProtoSchema.Proofs.Tree.Erasure
import ProtoSchema.Proofs.Validation.Message

namespace ProtoSchema

/-! ### Names, numbers and ranges -/

/-- Names are told apart by their texts, not by their places. -/
theorem distinct_erased (names : List Name) : Distinct (names.map Name.erased) ↔ Distinct names := by
  rw [Distinct, Distinct, List.map_map]
  rfl

/-- Numbers are told apart without places. -/
theorem distinctNumbers_erased (literals : List IntLiteral) :
    DistinctNumbers (literals.map IntLiteral.erased) ↔ DistinctNumbers literals := by
  rw [DistinctNumbers, DistinctNumbers, List.filterMap_map]
  rfl

namespace Range

theorem numbers?_erased (kind : RangeKind) (range : Range) :
    range.erased.numbers? kind = range.numbers? kind := by
  obtain ⟨first, last⟩ := range
  cases last <;> rfl

/-- A range has the same numbers wherever it stands. -/
theorem covers_erased (kind : RangeKind) (range : Range) (number : Int) :
    range.erased.Covers kind number ↔ range.Covers kind number := by
  rw [Covers, Covers, numbers?_erased]

end Range

/-- Whether the bounds of ranges are in order has nothing to do with places. -/
theorem inOrder_erased (kind : RangeKind) (ranges : List Range) :
    InOrder kind (ranges.map Range.erased) ↔ InOrder kind ranges := by
  simp only [InOrder, List.forall_mem_map, Range.numbers?_erased]

/-- What is reserved is the same without places, ranges and names. -/
theorem rangesOf_erased (reserved : List Reserved) :
    Reserved.rangesOf (reserved.map Reserved.erased) =
      (Reserved.rangesOf reserved).map Range.erased := by
  have one (entry : Reserved) : entry.erased.ranges.map DeclaredRange.range =
      (entry.ranges.map DeclaredRange.range).map Range.erased := by
    obtain ⟨items, comments, span⟩ := entry
    cases items <;> simp [Reserved.ranges, Reserved.erased, ReservedItems.erased, Function.comp_def]
  simp only [Reserved.rangesOf, List.map_flatMap, List.flatMap_map, one]

theorem namesOf_erased (reserved : List Reserved) :
    Reserved.namesOf (reserved.map Reserved.erased) =
      (Reserved.namesOf reserved).map Name.erased := by
  have one (entry : Reserved) : entry.erased.names = entry.names.map Name.erased := by
    obtain ⟨items, comments, span⟩ := entry
    cases items <;> rfl
  simp only [Reserved.namesOf, List.map_flatMap, List.flatMap_map, one]

/-- A use of what is reserved is one wherever it stands. -/
theorem unreserved_erased (kind : RangeKind) (reserved : List Reserved) (number : IntLiteral)
    (name : Name) :
    Unreserved kind (reserved.map Reserved.erased) number.erased name.erased ↔
      Unreserved kind reserved number name := by
  constructor
  · rintro ⟨numbers, names⟩
    rw [rangesOf_erased] at numbers
    rw [namesOf_erased] at names
    refine ⟨fun value eq range member covers => ?_, fun other member => ?_⟩
    · exact numbers value eq range.erased (List.mem_map_of_mem member)
        ((range.covers_erased kind value).mpr covers)
    · exact names other.erased (List.mem_map_of_mem member)
  · rintro ⟨numbers, names⟩
    constructor
    · intro value eq range member covers
      rw [rangesOf_erased] at member
      obtain ⟨original, originalMember, rfl⟩ := List.mem_map.mp member
      exact numbers value eq original originalMember ((original.covers_erased kind value).mp covers)
    · intro other member
      rw [namesOf_erased] at member
      obtain ⟨original, originalMember, rfl⟩ := List.mem_map.mp member
      exact names original originalMember

theorem namesMessage_erased (name : TypeName) : name.erased.namesMessage = name.namesMessage := by
  obtain ⟨dot, ⟨parts⟩⟩ := name
  simp only [TypeName.namesMessage, TypeName.erased, DottedName.erased, List.getLast?_map,
    ← List.map_dropLast, List.all_map, Option.any_map]
  rfl

theorem namesOptions_erased (name : TypeName) : name.erased.namesOptions = name.namesOptions := by
  rw [TypeName.namesOptions, TypeName.namesOptions, TypeName.erased, DottedName.text_erased]

/-! ### Declarations -/

/-- The rules for declarations say nothing of places, here of enums and then of the others. -/
theorem Enumeration.valid_erased (enumeration : Enumeration) :
    enumeration.erased.Valid ↔ enumeration.Valid := by
  obtain ⟨name, values, options, reserved, allows, comments, span⟩ := enumeration
  have names : (values.map EnumValue.erased).map (·.name) =
      (values.map (·.name)).map Name.erased := by
    rw [List.map_map, List.map_map]
    rfl
  have literals : (values.map EnumValue.erased).map (·.number) =
      (values.map (·.number)).map IntLiteral.erased := by
    rw [List.map_map, List.map_map]
    rfl
  have first : (∃ first rest, values.map EnumValue.erased = first :: rest ∧
      first.number.number? = some 0) ↔
      ∃ first rest, values = first :: rest ∧ first.number.number? = some 0 := by
    cases values with
    | nil => simp
    | cons value rest => exact ⟨fun ⟨_, _, eq, zero⟩ => ⟨value, rest, rfl, by
        rw [← (List.cons.inj eq).1] at zero
        exact zero⟩, fun ⟨_, _, eq, zero⟩ => ⟨_, _, rfl, by
        rw [← (List.cons.inj eq).1] at zero
        exact zero⟩⟩
  simp only [valid_iff, erased, names, literals, first, distinct_erased, distinctNumbers_erased,
    rangesOf_erased, inOrder_erased, List.forall_mem_map, EnumValue.erased, unreserved_erased,
    Name.text_erased]

theorem Service.valid_erased (service : Service) : service.erased.Valid ↔ service.Valid := by
  obtain ⟨name, methods, options, comments, span⟩ := service
  have names : (methods.map Method.erased).map (·.name) =
      (methods.map (·.name)).map Name.erased := by
    rw [List.map_map, List.map_map]
    rfl
  simp only [valid_iff, erased, names, distinct_erased, List.forall_mem_map, Method.erased,
    namesMessage_erased, Name.text_erased]

theorem FieldType.isMap_erased (type : FieldType) : type.erased.isMap = type.isMap := by
  induction type with
  | scalar | named | map => rfl

theorem names_of_fields (fields : List Field) :
    (fields.map Field.erased).map (·.name) = (fields.map (·.name)).map Name.erased := by
  rw [List.map_map, List.map_map]
  rfl

theorem literals_of_fields (fields : List Field) :
    (fields.map Field.erased).map (·.number) = (fields.map (·.number)).map IntLiteral.erased := by
  rw [List.map_map, List.map_map]
  rfl

/-- A oneof is valid if it is once erased and no member was written with a label. -/
theorem Oneof.valid_iff_erased (oneof : Oneof) :
    oneof.Valid ↔ oneof.erased.Valid ∧ ∀ field ∈ oneof.fields, field.labelSpan = none := by
  obtain ⟨name, fields, options, comments, span⟩ := oneof
  simp only [valid_iff, erased, names_of_fields, literals_of_fields, distinct_erased,
    distinctNumbers_erased, List.forall_mem_map, Field.erased, FieldType.isMap_erased, ne_eq,
    List.map_eq_nil_iff]
  tauto

theorem Extension.valid_erased (edition : Option Edition) (extension : Extension) :
    extension.erased.Valid edition ↔ extension.Valid edition := by
  obtain ⟨extendee, fields, options, parent, extendsOptions, comments, span⟩ := extension
  simp only [valid_iff, erased, List.forall_mem_map, Field.erased, FieldType.isMap_erased]

/-- The fields of a message, those in oneofs included, are erased one by one. -/
theorem Message.allFields_erased (message : Message) :
    message.erased.allFields = message.allFields.map Field.erased := by
  rw [Message.erased_eq, allFields, allFields, List.map_append, List.map_flatMap, List.flatMap_map]
  rfl

/-- A message is valid if it is once erased and no map was written with a label. -/
theorem Message.valid_iff_erased (message : Message) :
    message.Valid ↔ message.erased.Valid ∧ ∀ field ∈ message.allFields,
      field.type.isMap = true → field.oneof = none → field.labelSpan = none := by
  have ranges : (message.extensionRanges.map ExtensionRanges.erased).flatMap
      ExtensionRanges.ranges =
        (message.extensionRanges.flatMap ExtensionRanges.ranges).map Range.erased := by
    rw [List.flatMap_map, List.map_flatMap]
    rfl
  have nested : (message.messages.map Message.erased).map (·.name) =
      (message.messages.map (·.name)).map Name.erased := by
    rw [List.map_map, List.map_map]
    exact List.map_congr_left fun inner _ => by rw [Function.comp_apply, Message.erased_eq]; rfl
  have enums : (message.enums.map Enumeration.erased).map (·.name) =
      (message.enums.map (·.name)).map Name.erased := by
    rw [List.map_map, List.map_map]
    rfl
  simp only [valid_iff, Message.allFields_erased]
  simp only [Message.erased_eq, names_of_fields, literals_of_fields, distinct_erased, nested, enums,
    ← List.map_append, distinctNumbers_erased, List.forall_mem_map, Field.erased,
    FieldType.isMap_erased, ranges, inOrder_erased, rangesOf_erased, Name.text_erased,
    unreserved_erased, Oneof.erased]
  tauto

/-! ### Faults found by the grammar -/

/-- Options are told by their names. -/
theorem OptionSetting.isNamed_erased (setting : OptionSetting) (word : String) :
    setting.erased.isNamed word = setting.isNamed word := by
  obtain ⟨keys, value⟩ := setting
  match keys with
  | [] => rfl
  | [.plain name] => rfl
  | [.extension name span] => rfl
  | .plain _ :: _ :: _ => rfl
  | .extension _ _ :: _ :: _ => rfl

theorem OptionSetting.isTrue_erased (setting : OptionSetting) :
    setting.erased.isTrue = setting.isTrue := by
  obtain ⟨keys, value⟩ := setting
  cases value with
  | bool value span => cases value <;> rfl
  | _ => rfl

/-- One more option changes an enum in the same way when both are erased. -/
theorem Enumeration.addOption_erased (enumeration : Enumeration) (option : OptionStatement) :
    (enumeration.addOption option).erased = enumeration.erased.addOption option.erased := by
  simp only [Enumeration.erased, addOption, List.map_append, List.map_singleton,
    OptionStatement.erased, OptionSetting.isNamed_erased, OptionSetting.isTrue_erased]

namespace Parser

/-- Whether a number is right does not depend on its place; where it is told does. -/
theorem fieldNumberFaults_erased (literal : IntLiteral) :
    fieldNumberFaults literal.erased = [] ↔ fieldNumberFaults literal = [] := by
  have same : literal.erased.number? = literal.number? := rfl
  rw [fieldNumberFaults, fieldNumberFaults, same]
  cases literal.number? with
  | none => simp
  | some number =>
    simp only
    split
    · simp
    · split <;> simp

theorem enumNumberFaults_erased (literal : IntLiteral) :
    enumNumberFaults literal.erased = [] ↔ enumNumberFaults literal = [] := by
  have same : literal.erased.number? = literal.number? := rfl
  rw [enumNumberFaults, enumNumberFaults, same]
  split <;> simp

theorem defaultFaults_erased (edition : Option Edition) (options : List OptionSetting) :
    defaultFaults edition (options.map OptionSetting.erased) = [] ↔
      defaultFaults edition options = [] := by
  rw [defaultFaults, defaultFaults]
  split
  · rw [List.map_eq_nil_iff, List.map_eq_nil_iff, List.filter_eq_nil_iff, List.filter_eq_nil_iff,
      List.forall_mem_map]
    simp only [OptionSetting.isNamed_erased]
  · exact Iff.rfl

end Parser

end ProtoSchema
