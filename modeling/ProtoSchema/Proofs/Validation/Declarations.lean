/-
This file says which enums, services, oneofs and extension blocks are without
fault, in terms of their names, numbers and labels alone. Whether ranges and
reserved names are in order is said in terms of the numbers that the bounds stand
for: spans only tell where a fault is reported.
-/

import Mathlib.Tactic.MkIffOfInductiveProp
import ProtoSchema.Proofs.Validation.Clashes
import ProtoSchema.Validation.Enumeration
import ProtoSchema.Validation.Extension
import ProtoSchema.Validation.Message
import ProtoSchema.Validation.ReservedNumbers
import ProtoSchema.Validation.Service

namespace ProtoSchema

/-! ### Ranges -/

/-- The number of a bound that fits a word. -/
def IntLiteral.wide? (literal : IntLiteral) : Option Int := literal.toInt64?.map Int64.toInt

namespace Range

/-- The last number of a range whose first is given, if it fits a word. -/
def wideLast? (kind : RangeKind) (first : Int) : RangeEnd → Option Int
  | .absent => some first
  | .int literal => literal.wide?
  | .max _ => some kind.greatest

/-- The first and last number of a range that is in order and within the bounds of its kind. -/
def numbers? (kind : RangeKind) (range : Range) : Option (Int × Int) := do
  let first ← range.first.wide?
  let last ← wideLast? kind first range.last
  if last < first ∨ first < kind.least ∨ kind.greatest < last then none else some (first, last)

/-- The numbers lie between the first and the last of the range. -/
def Covers (kind : RangeKind) (range : Range) (number : Int) : Prop :=
  ∃ first last, range.numbers? kind = some (first, last) ∧ first ≤ number ∧ number ≤ last

theorem toOption_bound (kind : RangeKind) (literal : IntLiteral) :
    (kind.bound literal).toOption = literal.wide? := by
  rw [RangeKind.bound, IntLiteral.wide?]
  cases literal.toInt64? <;> rfl

/-- A range is an interval just in case it has numbers. -/
theorem toOption_interval (range : Range) (kind : RangeKind) (declaration : Span) :
    (range.interval kind declaration).toOption =
      (range.numbers? kind).map fun numbers => ⟨numbers.1, numbers.2, range.span⟩ := by
  have firstEq := toOption_bound kind range.first
  rw [interval, numbers?, ← firstEq]
  cases kind.bound range.first with
  | error fault => rfl
  | ok first =>
    have lastEq : (range.lastNumber kind first).toOption = wideLast? kind first range.last := by
      rw [lastNumber, wideLast?.eq_def]
      cases range.last with
      | absent => rfl
      | int literal => exact toOption_bound kind literal
      | max _ => rfl
    show Except.toOption (do
        let last ← range.lastNumber kind first
        _) = Option.map _ ((wideLast? kind first range.last).bind _)
    rw [← lastEq]
    cases range.lastNumber kind first with
    | error fault => rfl
    | ok last =>
      show Except.toOption (if last < first then _ else _) = Option.map _ (if _ then _ else _)
      by_cases reversed : last < first
      · rw [if_pos reversed, if_pos (.inl reversed)]
        rfl
      · rw [if_neg reversed]
        by_cases outside : first < kind.least ∨ kind.greatest < last
        · rw [if_pos outside, if_pos (.inr outside)]
          rfl
        · rw [if_neg outside, if_neg (by simp only [reversed, outside, or_self, not_false_eq_true])]
          rfl

end Range

/-- The ranges among what is reserved. -/
def Reserved.rangesOf (reserved : List Reserved) : List Range :=
  (reserved.flatMap Reserved.ranges).map DeclaredRange.range

/-- The names among what is reserved. -/
def Reserved.namesOf (reserved : List Reserved) : List Name := reserved.flatMap Reserved.names

/-- Every range is in order and within the bounds of its kind. -/
def InOrder (kind : RangeKind) (ranges : List Range) : Prop :=
  ∀ range ∈ ranges, (range.numbers? kind).isSome

theorem DeclaredRange.faults_eq_nil_iff (kind : RangeKind) (ranges : List DeclaredRange) :
    DeclaredRange.faults kind ranges = [] ↔ InOrder kind (ranges.map DeclaredRange.range) := by
  rw [DeclaredRange.faults, List.filterMap_eq_nil_iff, InOrder, List.forall_mem_map]
  refine forall_congr' fun declared => forall_congr' fun _ => ?_
  have numbers := declared.range.toOption_interval kind declared.declaration
  rw [← Option.isSome_map (f := fun numbers : Int × Int =>
    (⟨numbers.1, numbers.2, declared.range.span⟩ : Interval)), ← numbers, DeclaredRange.interval]
  cases declared.range.interval kind declared.declaration <;> simp [Except.toOption]

theorem DeclaredRange.mem_intervals_iff (kind : RangeKind) (ranges : List DeclaredRange)
    (number : Int) :
    (∃ interval ∈ DeclaredRange.intervals kind ranges, interval.contains number = true) ↔
      ∃ range ∈ ranges.map DeclaredRange.range, range.Covers kind number := by
  simp only [DeclaredRange.intervals, List.mem_filterMap, DeclaredRange.interval,
    Range.toOption_interval, Option.map_eq_some_iff, List.mem_map, Range.Covers,
    Interval.contains, Bool.and_eq_true, decide_eq_true_eq]
  constructor
  · rintro ⟨_, ⟨declared, member, ⟨first, last⟩, eq, rfl⟩, contains⟩
    exact ⟨declared.range, ⟨declared, member, rfl⟩, first, last, eq, contains⟩
  · rintro ⟨_, ⟨declared, member, rfl⟩, first, last, eq, contains⟩
    exact ⟨_, ⟨declared, member, (first, last), eq, rfl⟩, contains⟩

/-! ### Uses -/

/-- Neither the number nor the name is reserved. -/
structure Unreserved (kind : RangeKind) (reserved : List Reserved) (number : IntLiteral)
    (name : Name) : Prop where
  number : ∀ value, number.number? = some value →
    ∀ range ∈ Reserved.rangesOf reserved, ¬ range.Covers kind value
  name : ∀ other ∈ Reserved.namesOf reserved, other.text ≠ name.text

theorem reservationFaults_eq_nil_iff (kind : RangeKind) (reserved : List Reserved)
    (number : IntLiteral) (name : Name) :
    reservationFaults reserved kind number name = [] ↔ Unreserved kind reserved number name := by
  have numbers (value : Int) :
      reservedNumber? (DeclaredRange.intervals kind (reserved.flatMap Reserved.ranges)) value =
        none ↔ ∀ range ∈ Reserved.rangesOf reserved, ¬ range.Covers kind value := by
    rw [reservedNumber?, Option.map_eq_none_iff, List.find?_eq_none, Reserved.rangesOf]
    have covered := DeclaredRange.mem_intervals_iff kind (reserved.flatMap Reserved.ranges) value
    simpa only [not_exists, not_and] using not_congr covered
  have names : reservedName? reserved name.text = none ↔
      ∀ other ∈ Reserved.namesOf reserved, other.text ≠ name.text := by
    simp only [reservedName?, Option.map_eq_none_iff, List.find?_eq_none, Reserved.namesOf,
      decide_eq_true_eq, ne_eq]
  rw [reservationFaults, List.append_eq_nil_iff, Option.toList_eq_nil_iff, Option.toList_eq_nil_iff,
    Option.map_eq_none_iff, names]
  have numberFault : (do
      let value ← number.number?
      let span ← reservedNumber?
        (DeclaredRange.intervals kind (reserved.flatMap Reserved.ranges)) value
      return (⟨.reservedNumberUsed value span, number.span⟩ : SemanticFault)) = none ↔
      ∀ value, number.number? = some value →
        ∀ range ∈ Reserved.rangesOf reserved, ¬ range.Covers kind value := by
    simp only [Option.bind_eq_bind, Option.bind_eq_none_iff, Option.pure_def, reduceCtorEq,
      imp_false, ← Option.eq_none_iff_forall_ne_some, numbers]
  rw [numberFault]
  exact ⟨fun ⟨number, name⟩ => ⟨number, name⟩, fun ⟨number, name⟩ => ⟨number, name⟩⟩

/-! ### Names and numbers -/

/-- No two names have one text. -/
def Distinct (names : List Name) : Prop := (names.map Name.text).Nodup

theorem repeatedNames_eq_nil_iff (names : List Name) :
    repeatedNames names = [] ↔ Distinct names := by
  rw [repeatedNames, List.map_eq_nil_iff, clashes_eq_nil_iff, Distinct]

theorem typeNameFaults_eq_nil_iff (kind : TypeLike) (name : Name) :
    typeNameFaults kind name = [] ↔ isTypeIdentifier name.text = true := by
  rw [typeNameFaults]
  split <;> simp [*]

/-- No two literals that have a number have the same one. -/
def DistinctNumbers (literals : List IntLiteral) : Prop :=
  (literals.filterMap IntLiteral.number?).Nodup

/-! ### Enums -/

/-- What is asked of an enum. -/
@[mk_iff]
structure Enumeration.Valid (enumeration : Enumeration) : Prop where
  name : isTypeIdentifier enumeration.name.text = true
  first : ∃ first rest, enumeration.values = first :: rest ∧ first.number.number? = some 0
  valueNames : ∀ value ∈ enumeration.values, isTypeIdentifier value.name.text = true
  distinct : Distinct (enumeration.values.map (·.name))
  numbers : enumeration.allowsAliases = true ∨ DistinctNumbers (enumeration.values.map (·.number))
  ranges : InOrder .enumValue (Reserved.rangesOf enumeration.reserved)
  unreserved : ∀ value ∈ enumeration.values,
    Unreserved .enumValue enumeration.reserved value.number value.name

theorem Enumeration.faults_eq_nil_iff (enumeration : Enumeration) :
    enumeration.faults = [] ↔ enumeration.Valid := by
  have first : enumeration.firstValueFaults = [] ↔
      ∃ first rest, enumeration.values = first :: rest ∧ first.number.number? = some 0 := by
    rw [firstValueFaults]
    split
    · next empty => simp [empty]
    · next first rest eq => split <;> simp [*]
  have names : enumeration.valueNameFaults = [] ↔
      (∀ value ∈ enumeration.values, isTypeIdentifier value.name.text = true) ∧
        Distinct (enumeration.values.map (·.name)) := by
    rw [valueNameFaults, List.append_eq_nil_iff, List.flatMap_eq_nil_iff, repeatedNames_eq_nil_iff]
    simp only [typeNameFaults_eq_nil_iff]
  have keys : (enumeration.values.filterMap NumberedValue.ofValue?).map NumberedValue.number =
      (enumeration.values.map (·.number)).filterMap IntLiteral.number? := by
    simp [NumberedValue.ofValue?, List.map_filterMap, List.filterMap_map, Function.comp_def]
  have numbers : enumeration.valueNumberFaults = [] ↔
      enumeration.allowsAliases = true ∨
        DistinctNumbers (enumeration.values.map (·.number)) := by
    rw [valueNumberFaults]
    split
    · next allows => simp [allows]
    · next allows =>
      rw [List.map_eq_nil_iff, clashes_eq_nil_iff, keys, DistinctNumbers]
      simp [allows]
  have reserved : enumeration.reservedFaults = [] ↔
      InOrder .enumValue (Reserved.rangesOf enumeration.reserved) ∧
        ∀ value ∈ enumeration.values,
          Unreserved .enumValue enumeration.reserved value.number value.name := by
    rw [reservedFaults, List.append_eq_nil_iff, DeclaredRange.faults_eq_nil_iff,
      List.flatMap_eq_nil_iff, Reserved.rangesOf]
    simp only [reservationFaults_eq_nil_iff]
  rw [faults, List.append_eq_nil_iff, List.append_eq_nil_iff, List.append_eq_nil_iff,
    List.append_eq_nil_iff, typeNameFaults_eq_nil_iff, first, names, numbers, reserved]
  constructor
  · rintro ⟨⟨⟨⟨name, first⟩, valueNames, distinct⟩, numbers⟩, ranges, unreserved⟩
    exact ⟨name, first, valueNames, distinct, numbers, ranges, unreserved⟩
  · rintro ⟨name, first, valueNames, distinct, numbers, ranges, unreserved⟩
    exact ⟨⟨⟨⟨name, first⟩, valueNames, distinct⟩, numbers⟩, ranges, unreserved⟩

/-! ### Services -/

/-- What is asked of a service. -/
@[mk_iff]
structure Service.Valid (service : Service) : Prop where
  name : isTypeIdentifier service.name.text = true
  methods : ∀ method ∈ service.methods, isTypeIdentifier method.name.text = true ∧
    method.input.namesMessage = true ∧ method.output.namesMessage = true
  distinct : Distinct (service.methods.map (·.name))

theorem Service.faults_eq_nil_iff (service : Service) :
    service.faults = [] ↔ service.Valid := by
  have types (method : Method) : method.typeFaults = [] ↔
      method.input.namesMessage = true ∧ method.output.namesMessage = true := by
    simp [Method.typeFaults]
  rw [faults, List.append_eq_nil_iff, List.append_eq_nil_iff, typeNameFaults_eq_nil_iff,
    repeatedNames_eq_nil_iff, List.flatMap_eq_nil_iff]
  simp only [List.append_eq_nil_iff, typeNameFaults_eq_nil_iff, types]
  exact ⟨fun ⟨⟨name, methods⟩, distinct⟩ => ⟨name, methods, distinct⟩,
    fun ⟨name, methods, distinct⟩ => ⟨⟨name, methods⟩, distinct⟩⟩

/-! ### Oneofs -/

/-- What is asked of a oneof. -/
@[mk_iff]
structure Oneof.Valid (oneof : Oneof) : Prop where
  some : oneof.fields ≠ []
  unlabelled : ∀ field ∈ oneof.fields, field.labelSpan = none
  noMaps : ∀ field ∈ oneof.fields, field.type.isMap = false
  distinct : Distinct (oneof.fields.map (·.name))
  numbers : DistinctNumbers (oneof.fields.map (·.number))

theorem numbers_of_fields (fields : List Field) :
    (fields.filterMap NumberedField.ofField?).map NumberedField.number =
      (fields.map (·.number)).filterMap IntLiteral.number? := by
  simp [NumberedField.ofField?, List.map_filterMap, List.filterMap_map, Function.comp_def]

theorem Oneof.faults_eq_nil_iff (oneof : Oneof) : oneof.faults = [] ↔ oneof.Valid := by
  have member (field : Field) :
      memberFaults field = [] ↔ field.labelSpan = none ∧ field.type.isMap = false := by
    rw [memberFaults, List.append_eq_nil_iff, List.map_eq_nil_iff, Option.toList_eq_nil_iff]
    simp
  have some : (if oneof.fields.isEmpty then
      [(⟨.emptyOneof, oneof.name.span⟩ : SemanticFault)] else []) = [] ↔ oneof.fields ≠ [] := by
    simp
  rw [faults, List.append_eq_nil_iff, List.append_eq_nil_iff, List.append_eq_nil_iff, some,
    List.flatMap_eq_nil_iff, repeatedNames_eq_nil_iff, List.map_eq_nil_iff, clashes_eq_nil_iff,
    numbers_of_fields]
  simp only [member]
  constructor
  · rintro ⟨⟨⟨some, members⟩, distinct⟩, numbers⟩
    exact ⟨some, fun field mem => (members field mem).1, fun field mem => (members field mem).2,
      distinct, numbers⟩
  · rintro ⟨some, unlabelled, noMaps, distinct, numbers⟩
    exact ⟨⟨⟨some, fun field mem => ⟨unlabelled field mem, noMaps field mem⟩⟩, distinct⟩, numbers⟩

/-! ### Extension blocks -/

/-- What is asked of an extension block in a file that declares the given edition. -/
@[mk_iff]
structure Extension.Valid (edition : Option Edition) (extension : Extension) : Prop where
  extendee : edition = some .proto3 → extension.extendsOptions = true
  noMaps : ∀ field ∈ extension.fields, field.type.isMap = false

theorem Extension.faults_eq_nil_iff (edition : Option Edition) (extension : Extension) :
    extension.faults edition = [] ↔ extension.Valid edition := by
  have extendee : extendeeFaults edition extension = [] ↔
      (edition = some .proto3 → extension.extendsOptions = true) := by
    simp [extendeeFaults]
  rw [faults, List.append_eq_nil_iff, extendee, List.flatMap_eq_nil_iff]
  simp only [ite_eq_right_iff, List.cons_ne_nil, imp_false, Bool.not_eq_true]
  exact ⟨fun ⟨extendee, noMaps⟩ => ⟨extendee, noMaps⟩, fun ⟨extendee, noMaps⟩ => ⟨extendee, noMaps⟩⟩

end ProtoSchema
