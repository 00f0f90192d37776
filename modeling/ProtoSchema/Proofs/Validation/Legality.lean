/-
This file says what is asked of a message and of an enum as rules on the numbers
and names that they spell, without the words that numbers are stored in and without
the order in which the checks go through them. The checks of a message and of its
oneofs find nothing just in case the rule is kept, and so do those of an enum. A
range that breaks the rule reserves nothing, but then it is itself a fault, so
nothing is missed by that; a number of an enum that fits no word is left out when
numbers are compared, and is a fault of the value itself.
-/

import ProtoSchema.Proofs.Tree.IntLiteral
import ProtoSchema.Proofs.Validation.Message

namespace ProtoSchema

/-! ### Ranges -/

theorem IntLiteral.wide?_eq (literal : IntLiteral) :
    literal.wide? = if literal.FitsInt64 then some literal.value else none :=
  literal.map_toInt64?_eq

/-- A bound that lies within the bounds of its kind fits the words that ranges are worked out in. -/
theorem RangeKind.fitsInt64_of_bounds {kind : RangeKind} {literal : IntLiteral}
    (least : kind.least ≤ literal.value) (greatest : literal.value ≤ kind.greatest) :
    literal.FitsInt64 := by
  have bounds : -(2 ^ 63) ≤ kind.least ∧ kind.greatest < 2 ^ 63 := by
    cases kind <;> decide
  exact ⟨Int.le_trans bounds.1 least, Int.lt_of_le_of_lt greatest bounds.2⟩

namespace Range

/-- The last number of a range as it is written. -/
def lastValue (kind : RangeKind) (range : Range) : Int :=
  match range.last with
  | .absent => range.first.value
  | .int literal => literal.value
  | .max _ => kind.greatest

/-- The numbers of the range are in order and lie within the bounds of its kind. -/
structure Legal (kind : RangeKind) (range : Range) : Prop where
  least : kind.least ≤ range.first.value
  ordered : range.first.value ≤ range.lastValue kind
  greatest : range.lastValue kind ≤ kind.greatest

/-- The number lies between the first and the last number of the range as they are written. -/
def Contains (kind : RangeKind) (range : Range) (number : Int) : Prop :=
  range.first.value ≤ number ∧ number ≤ range.lastValue kind

variable {kind : RangeKind} {range : Range}

/-- A range that is worked out is legal, and what it is worked out to is what is written. -/
theorem numbers?_eq_some {numbers : Int × Int} (found : range.numbers? kind = some numbers) :
    range.Legal kind ∧ numbers = (range.first.value, range.lastValue kind) := by
  rw [numbers?] at found
  obtain ⟨first, firstFound, found⟩ := Option.bind_eq_some_iff.mp found
  obtain ⟨last, lastFound, found⟩ := Option.bind_eq_some_iff.mp found
  rw [IntLiteral.wide?_eq, Option.ite_none_right_eq_some, Option.some.injEq] at firstFound
  obtain ⟨-, rfl⟩ := firstFound
  have lastEq : last = range.lastValue kind := by
    rw [lastValue]
    rw [wideLast?.eq_def] at lastFound
    cases eq : range.last with
    | absent =>
      rw [eq] at lastFound
      exact (Option.some.inj lastFound).symm
    | int literal =>
      rw [eq] at lastFound
      dsimp only at lastFound
      rw [IntLiteral.wide?_eq, Option.ite_none_right_eq_some, Option.some.injEq] at lastFound
      exact lastFound.2.symm
    | max span =>
      rw [eq] at lastFound
      exact (Option.some.inj lastFound).symm
  rw [Option.ite_none_left_eq_some, Option.some.injEq, lastEq] at found
  obtain ⟨inside, rfl⟩ := found
  rw [not_or, not_or, Int.not_lt, Int.not_lt, Int.not_lt] at inside
  exact ⟨⟨inside.2.1, inside.1, inside.2.2⟩, rfl⟩

/-- A legal range is worked out to what is written. -/
theorem Legal.numbers?_eq (legal : range.Legal kind) :
    range.numbers? kind = some (range.first.value, range.lastValue kind) := by
  obtain ⟨least, ordered, greatest⟩ := legal
  have first : range.first.wide? = some range.first.value := by
    rw [IntLiteral.wide?_eq, if_pos (RangeKind.fitsInt64_of_bounds least (by omega))]
  have last : wideLast? kind range.first.value range.last = some (range.lastValue kind) := by
    rw [wideLast?.eq_def]
    rw [lastValue] at ordered greatest ⊢
    cases eq : range.last with
    | absent => rfl
    | int literal =>
      rw [eq] at ordered greatest
      dsimp only at ordered greatest ⊢
      rw [IntLiteral.wide?_eq, if_pos (RangeKind.fitsInt64_of_bounds (by omega) greatest)]
    | max span => rfl
  rw [numbers?, first, Option.bind_eq_bind, Option.bind_some, last, Option.bind_some,
    if_neg (by omega)]

/-- A range is worked out just in case it is legal. -/
theorem isSome_numbers?_iff : (range.numbers? kind).isSome ↔ range.Legal kind := by
  constructor
  · intro some
    obtain ⟨numbers, found⟩ := Option.isSome_iff_exists.mp some
    exact (numbers?_eq_some found).1
  · intro legal
    rw [legal.numbers?_eq]
    rfl

/-- A legal range covers the numbers between those that are written. -/
theorem Legal.covers_iff (legal : range.Legal kind) {number : Int} :
    range.Covers kind number ↔ range.Contains kind number := by
  rw [Covers, Contains, legal.numbers?_eq]
  constructor
  · rintro ⟨first, last, same, inside⟩
    obtain ⟨rfl, rfl⟩ := Prod.mk.inj (Option.some.inj same)
    exact inside
  · exact fun inside => ⟨_, _, rfl, inside⟩

/-- A legal range contains only numbers that fit a word of thirty-two bits. -/
theorem Legal.fits_of_contains (legal : range.Legal kind) {literal : IntLiteral}
    (inside : range.Contains kind literal.value) : literal.FitsInt32 := by
  obtain ⟨least, -, greatest⟩ := legal
  obtain ⟨low, high⟩ := inside
  have bounds : -(2 ^ 31) ≤ kind.least ∧ kind.greatest < 2 ^ 31 := by cases kind <;> decide
  rw [IntLiteral.FitsInt32]
  omega

end Range

theorem inOrder_iff {kind : RangeKind} {ranges : List Range} :
    InOrder kind ranges ↔ ∀ range ∈ ranges, range.Legal kind := by
  simp only [InOrder, Range.isSome_numbers?_iff]

/-- Where all ranges are legal, a number is unreserved if none of them contains it. -/
theorem unreserved_iff {kind : RangeKind} {reserved : List Reserved} {number : IntLiteral}
    {name : Name} (legal : ∀ range ∈ Reserved.rangesOf reserved, range.Legal kind) :
    Unreserved kind reserved number name ↔
      (∀ range ∈ Reserved.rangesOf reserved, ¬ range.Contains kind number.value) ∧
        ∀ other ∈ Reserved.namesOf reserved, other.text ≠ name.text := by
  constructor
  · rintro ⟨numbers, names⟩
    refine ⟨fun range member inside => ?_, names⟩
    have fits := (legal range member).fits_of_contains inside
    have found : number.number? = some number.value := by rw [number.number?_eq, if_pos fits]
    exact numbers number.value found range member ((legal range member).covers_iff.mpr inside)
  · rintro ⟨numbers, names⟩
    refine ⟨fun value found range member covers => ?_, names⟩
    obtain rfl := IntLiteral.value_of_number? found
    exact numbers range member ((legal range member).covers_iff.mp covers)

/-- Literals are read as the numbers of those that fit a word of thirty-two bits. -/
theorem IntLiteral.filterMap_number? (literals : List IntLiteral) :
    literals.filterMap IntLiteral.number? =
      (literals.filter fun literal => literal.FitsInt32).map IntLiteral.value := by
  induction literals with
  | nil => rfl
  | cons literal rest inductionHypothesis =>
    rw [List.filterMap_cons, literal.number?_eq, inductionHypothesis]
    by_cases fits : literal.FitsInt32
    · rw [List.filter_cons_of_pos (by simpa using fits), if_pos fits]
      rfl
    · rw [List.filter_cons_of_neg (by simpa using fits), if_neg fits]

/-! ### Messages -/

/-- The numbers of the fields whose numbers fit a word of thirty-two bits. -/
def numbersOf (fields : List Field) : List Int :=
  (fields.filter fun field => field.number.FitsInt32).map fun field => field.number.value

theorem numbersOf_eq (fields : List Field) :
    numbersOf fields = (fields.map (·.number)).filterMap IntLiteral.number? := by
  rw [IntLiteral.filterMap_number?, List.filter_map, List.map_map]
  rfl

/-- The rule for the members of a oneof. -/
@[mk_iff]
structure Oneof.Legal (oneof : Oneof) : Prop where
  some : oneof.fields ≠ []
  unlabelled : ∀ field ∈ oneof.fields, field.labelSpan = none
  noMaps : ∀ field ∈ oneof.fields, field.type.isMap = false

/-- The rule for messages. -/
@[mk_iff]
structure Message.Legal (message : Message) : Prop where
  name : isTypeIdentifier message.name.text = true
  nestedNames : (message.messages.map (·.name.text) ++ message.enums.map (·.name.text)).Nodup
  fieldNames : (message.allFields.map (·.name.text)).Nodup
  fieldNumbers : (numbersOf message.allFields).Nodup
  oneofNames : ∀ oneof ∈ message.oneofs, ∀ field ∈ message.allFields,
    field.name.text ≠ oneof.name.text
  mapLabels : ∀ field ∈ message.fields, field.type.isMap = true → field.labelSpan = none
  oneofs : ∀ oneof ∈ message.oneofs, oneof.Legal
  reservedRanges : ∀ range ∈ Reserved.rangesOf message.reserved, range.Legal .field
  extensionRanges : ∀ extensions ∈ message.extensionRanges,
    ∀ range ∈ extensions.ranges, range.Legal .field
  unreservedNumbers : ∀ field ∈ message.allFields, ∀ range ∈ Reserved.rangesOf message.reserved,
    ¬ range.Contains .field field.number.value
  unreservedNames : ∀ field ∈ message.allFields, ∀ name ∈ Reserved.namesOf message.reserved,
    name.text ≠ field.name.text

namespace Message

variable {message : Message}

theorem distinctNumbers_iff (fields : List Field) :
    DistinctNumbers (fields.map (·.number)) ↔ (numbersOf fields).Nodup := by
  rw [DistinctNumbers, numbersOf_eq]

/-- The members of a oneof are among the fields of its message, in their order. -/
theorem sublist_allFields {oneof : Oneof} (member : oneof ∈ message.oneofs) :
    oneof.fields.Sublist message.allFields := by
  obtain ⟨before, after, eq⟩ := List.append_of_mem member
  rw [allFields, eq, List.flatMap_append, List.flatMap_cons]
  exact (((List.sublist_append_left _ _).trans (List.sublist_append_right _ _)).trans
    (List.sublist_append_right _ _))

/-- A oneof of a legal message is valid: its members are distinct because all fields are. -/
theorem Legal.valid_oneof (legal : message.Legal) {oneof : Oneof}
    (member : oneof ∈ message.oneofs) : oneof.Valid where
  some := (legal.oneofs oneof member).some
  unlabelled := (legal.oneofs oneof member).unlabelled
  noMaps := (legal.oneofs oneof member).noMaps
  distinct := by
    rw [Distinct, List.map_map]
    exact legal.fieldNames.sublist ((sublist_allFields member).map _)
  numbers := by
    rw [distinctNumbers_iff]
    exact legal.fieldNumbers.sublist (((sublist_allFields member).filter _).map _)

/-- In a placed message the fields that are members of no oneof are the direct ones. -/
theorem Placed.mapLabels_iff (placed : message.Placed) :
    (∀ field ∈ message.allFields, field.type.isMap = true → field.oneof = none →
        field.labelSpan = none) ↔
      ∀ field ∈ message.fields, field.type.isMap = true → field.labelSpan = none := by
  constructor
  · intro labels field member isMap
    exact labels field (List.mem_append_left _ member) isMap (placed.fields field member)
  · intro labels field member isMap outside
    rw [allFields, List.mem_append, List.mem_flatMap] at member
    rcases member with member | ⟨oneof, oneofMember, member⟩
    · exact labels field member isMap
    · obtain ⟨index, found⟩ := List.getElem?_of_mem oneofMember
      rw [placed.oneofs index oneof found field member] at outside
      cases outside

/-- A placed message and its oneofs are valid just in case the rule is kept. -/
theorem Placed.legal_iff (placed : message.Placed) :
    message.Legal ↔ message.Valid ∧ ∀ oneof ∈ message.oneofs, oneof.Valid := by
  have extensions : InOrder .field (message.extensionRanges.flatMap ExtensionRanges.ranges) ↔
      ∀ extensions ∈ message.extensionRanges, ∀ range ∈ extensions.ranges, range.Legal .field := by
    rw [inOrder_iff, List.forall_mem_flatMap]
  have fieldNames : Distinct (message.allFields.map (·.name)) ↔
      (message.allFields.map (·.name.text)).Nodup := by
    rw [Distinct, List.map_map]
    rfl
  have nestedNames : Distinct (message.messages.map (·.name) ++ message.enums.map (·.name)) ↔
      (message.messages.map (·.name.text) ++ message.enums.map (·.name.text)).Nodup := by
    rw [Distinct, List.map_append, List.map_map, List.map_map]
    rfl
  constructor
  · intro legal
    refine ⟨?_, fun oneof member => legal.valid_oneof member⟩
    exact
      { name := legal.name
        nested := nestedNames.mpr legal.nestedNames
        fields := fieldNames.mpr legal.fieldNames
        numbers := (distinctNumbers_iff _).mpr legal.fieldNumbers
        mapLabels := placed.mapLabels_iff.mpr legal.mapLabels
        oneofNames := legal.oneofNames
        reservedRanges := inOrder_iff.mpr legal.reservedRanges
        extensionRanges := extensions.mpr legal.extensionRanges
        unreserved := fun field member => (unreserved_iff legal.reservedRanges).mpr
          ⟨legal.unreservedNumbers field member, legal.unreservedNames field member⟩ }
  · rintro ⟨valid, oneofs⟩
    have ranges := inOrder_iff.mp valid.reservedRanges
    have unreserved (field : Field) (member : field ∈ message.allFields) :=
      (unreserved_iff ranges).mp (valid.unreserved field member)
    exact
      { name := valid.name
        nestedNames := nestedNames.mp valid.nested
        fieldNames := fieldNames.mp valid.fields
        fieldNumbers := (distinctNumbers_iff _).mp valid.numbers
        oneofNames := valid.oneofNames
        mapLabels := placed.mapLabels_iff.mp valid.mapLabels
        oneofs := fun oneof member =>
          ⟨(oneofs oneof member).some, (oneofs oneof member).unlabelled,
            (oneofs oneof member).noMaps⟩
        reservedRanges := ranges
        extensionRanges := extensions.mp valid.extensionRanges
        unreservedNumbers := fun field member => (unreserved field member).1
        unreservedNames := fun field member => (unreserved field member).2 }

/-- The checks of a message and of its oneofs find nothing just in case the rule is kept. -/
theorem Placed.faults_eq_nil_iff_legal (placed : message.Placed) :
    (message.faults = [] ∧ ∀ oneof ∈ message.oneofs, oneof.faults = []) ↔ message.Legal := by
  rw [placed.legal_iff]
  simp only [Oneof.faults_eq_nil_iff]
  exact and_congr_left fun oneofs => faults_eq_nil_iff placed oneofs

end Message

/-- The numbers of the values whose numbers fit a word of thirty-two bits. -/
def numbersOfValues (values : List EnumValue) : List Int :=
  (values.filter fun value => value.number.FitsInt32).map fun value => value.number.value

/-- The rule for enums. -/
@[mk_iff]
structure Enumeration.Legal (enumeration : Enumeration) : Prop where
  name : isTypeIdentifier enumeration.name.text = true
  valueNames : ∀ value ∈ enumeration.values, isTypeIdentifier value.name.text = true
  first : ∃ first rest, enumeration.values = first :: rest ∧ first.number.value = 0
  distinctNames : (enumeration.values.map (·.name.text)).Nodup
  distinctNumbers : enumeration.allowsAliases = true ∨ (numbersOfValues enumeration.values).Nodup
  ranges : ∀ range ∈ Reserved.rangesOf enumeration.reserved, range.Legal .enumValue
  unreservedNumbers : ∀ value ∈ enumeration.values,
    ∀ range ∈ Reserved.rangesOf enumeration.reserved,
      ¬ range.Contains .enumValue value.number.value
  unreservedNames : ∀ value ∈ enumeration.values,
    ∀ name ∈ Reserved.namesOf enumeration.reserved, name.text ≠ value.name.text

/-- Zero fits every word. -/
theorem IntLiteral.number?_eq_zero_iff (literal : IntLiteral) :
    literal.number? = some 0 ↔ literal.value = 0 := by
  rw [literal.number?_eq, Option.ite_none_right_eq_some, Option.some.injEq, FitsInt32]
  omega

namespace Enumeration

theorem distinctNumbers_iff (values : List EnumValue) :
    DistinctNumbers (values.map (·.number)) ↔ (numbersOfValues values).Nodup := by
  rw [DistinctNumbers, IntLiteral.filterMap_number?, List.filter_map, List.map_map]
  rfl

variable {enumeration : Enumeration}

theorem legal_iff_valid : enumeration.Legal ↔ enumeration.Valid := by
  have names : Distinct (enumeration.values.map (·.name)) ↔
      (enumeration.values.map (·.name.text)).Nodup := by
    rw [Distinct, List.map_map]
    rfl
  constructor
  · intro legal
    obtain ⟨first, rest, eq, zero⟩ := legal.first
    exact
      { name := legal.name
        first := ⟨first, rest, eq, first.number.number?_eq_zero_iff.mpr zero⟩
        valueNames := legal.valueNames
        distinct := names.mpr legal.distinctNames
        numbers := legal.distinctNumbers.imp_right (distinctNumbers_iff _).mpr
        ranges := inOrder_iff.mpr legal.ranges
        unreserved := fun value member => (unreserved_iff legal.ranges).mpr
          ⟨legal.unreservedNumbers value member, legal.unreservedNames value member⟩ }
  · intro valid
    obtain ⟨first, rest, eq, zero⟩ := valid.first
    have ranges := inOrder_iff.mp valid.ranges
    have unreserved (value : EnumValue) (member : value ∈ enumeration.values) :=
      (unreserved_iff ranges).mp (valid.unreserved value member)
    exact
      { name := valid.name
        valueNames := valid.valueNames
        first := ⟨first, rest, eq, first.number.number?_eq_zero_iff.mp zero⟩
        distinctNames := names.mp valid.distinct
        distinctNumbers := valid.numbers.imp_right (distinctNumbers_iff _).mp
        ranges := ranges
        unreservedNumbers := fun value member => (unreserved value member).1
        unreservedNames := fun value member => (unreserved value member).2 }

/-- The check of an enum finds nothing just in case the rule is kept. -/
theorem faults_eq_nil_iff_legal : enumeration.faults = [] ↔ enumeration.Legal := by
  rw [faults_eq_nil_iff, legal_iff_valid]

end Enumeration

end ProtoSchema
