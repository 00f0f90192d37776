/-
This file says which messages are without fault, given that their oneofs are.
The check of a message looks at its fields in the order of the source and leaves
pairs of members of one oneof to the check of that oneof; together the two find
every pair of fields that share a name or a number, in whatever order they stand.
-/

import ProtoSchema.Proofs.Validation.Declarations

namespace ProtoSchema

namespace Message

/-- The fields of a message say which oneof they are a member of. -/
structure Placed (message : Message) : Prop where
  fields : ∀ field ∈ message.fields, field.oneof = none
  oneofs : ∀ (index : Nat) (oneof : Oneof), message.oneofs[index]? = some oneof →
    ∀ field ∈ oneof.fields, field.oneof = some index

/-- What is asked of a message itself, its oneofs and nested declarations apart. -/
@[mk_iff]
structure Valid (message : Message) : Prop where
  name : isTypeIdentifier message.name.text = true
  nested : Distinct (message.messages.map (·.name) ++ message.enums.map (·.name))
  fields : Distinct (message.allFields.map (·.name))
  numbers : DistinctNumbers (message.allFields.map (·.number))
  mapLabels : ∀ field ∈ message.allFields, field.type.isMap = true → field.oneof = none →
    field.labelSpan = none
  oneofNames : ∀ oneof ∈ message.oneofs, ∀ field ∈ message.allFields,
    field.name.text ≠ oneof.name.text
  reservedRanges : InOrder .field (Reserved.rangesOf message.reserved)
  extensionRanges : InOrder .field (message.extensionRanges.flatMap ExtensionRanges.ranges)
  unreserved : ∀ field ∈ message.allFields,
    Unreserved .field message.reserved field.number field.name

theorem fieldsInOrder_perm (message : Message) : message.fieldsInOrder.Perm message.allFields :=
  List.mergeSort_perm _ _

theorem mem_fieldsInOrder {message : Message} {field : Field} :
    field ∈ message.fieldsInOrder ↔ field ∈ message.allFields :=
  message.fieldsInOrder_perm.mem_iff

/-! ### Members of one oneof -/

theorem filter_members (oneofs : List Oneof) (start index : Nat)
    (placed : ∀ place oneof, oneofs[place]? = some oneof →
      ∀ field ∈ oneof.fields, field.oneof = some (start + place)) :
    (oneofs.flatMap Oneof.fields).filter (fun field => field.oneof = some index) =
      if start ≤ index then ((oneofs[index - start]?).map Oneof.fields).getD [] else [] := by
  induction oneofs generalizing start with
  | nil => simp
  | cons oneof rest inductionHypothesis =>
    have own : ∀ field ∈ oneof.fields, field.oneof = some start := placed 0 oneof rfl
    have others := inductionHypothesis (start + 1) fun place other found field member => by
      rw [Nat.add_assoc, Nat.add_comm 1]
      exact placed (place + 1) other found field member
    rw [List.flatMap_cons, List.filter_append, others]
    by_cases here : index = start
    · subst here
      rw [List.filter_eq_self.mpr fun field member => by simpa using own field member,
        if_neg (Nat.not_succ_le_self index), List.append_nil, if_pos (Nat.le_refl _), Nat.sub_self]
      rfl
    · have none : oneof.fields.filter (fun field => field.oneof = some index) = [] := by
        rw [List.filter_eq_nil_iff]
        intro field member
        simpa [own field member] using Ne.symm here
      rw [none, List.nil_append]
      by_cases before : start ≤ index
      · obtain ⟨distance, rfl⟩ := Nat.exists_eq_add_of_lt (Nat.lt_of_le_of_ne before (Ne.symm here))
        have whole : start + distance + 1 - start = distance + 1 := by omega
        have less : start + distance + 1 - (start + 1) = distance := by omega
        rw [if_pos before, if_pos (by omega), whole, less, List.getElem?_cons_succ]
      · rw [if_neg before, if_neg (by omega)]

/-- The fields that say they are members of a oneof are the fields of that oneof. -/
theorem Placed.filter_allFields {message : Message} (placed : message.Placed) (index : Nat) :
    message.allFields.filter (fun field => field.oneof = some index) =
      ((message.oneofs[index]?).map Oneof.fields).getD [] := by
  have direct : message.fields.filter (fun field => field.oneof = some index) = [] := by
    rw [List.filter_eq_nil_iff]
    intro field member
    simp [placed.fields field member]
  rw [allFields, List.filter_append, direct, List.nil_append,
    filter_members message.oneofs 0 index (by simpa using placed.oneofs), if_pos (Nat.zero_le _),
    Nat.sub_zero]

/-- Inside each oneof, the fields of a message have names and numbers of their own. -/
theorem Placed.distinct_inside {message : Message} (placed : message.Placed)
    (oneofs : ∀ oneof ∈ message.oneofs, oneof.Valid) (index : Nat) :
    Distinct ((message.fieldsInOrder.filter fun field => field.oneof = some index).map (·.name)) ∧
      DistinctNumbers
        ((message.fieldsInOrder.filter fun field => field.oneof = some index).map (·.number)) := by
  have members := (message.fieldsInOrder_perm.filter fun field => field.oneof = some index)
  rw [placed.filter_allFields] at members
  have names := (members.map (·.name)).map Name.text
  have numbers := (members.map (·.number)).filterMap IntLiteral.number?
  rw [Distinct, DistinctNumbers, names.nodup_iff, numbers.nodup_iff]
  cases found : message.oneofs[index]? with
  | none => exact ⟨List.nodup_nil, List.nodup_nil⟩
  | some oneof =>
    have valid := oneofs oneof (List.mem_of_getElem? found)
    exact ⟨valid.distinct, valid.numbers⟩

/-! ### The checks of a message -/

theorem fieldNameFaults_eq_nil_iff {message : Message} (placed : message.Placed)
    (oneofs : ∀ oneof ∈ message.oneofs, oneof.Valid) :
    message.fieldNameFaults = [] ↔ Distinct (message.allFields.map (·.name)) := by
  have inside (index : Nat) := (placed.distinct_inside oneofs index).1
  simp only [Distinct, List.map_map, Function.comp_def] at inside
  rw [fieldNameFaults, List.map_eq_nil_iff, Distinct, List.map_map, Function.comp_def,
    ← (message.fieldsInOrder_perm.map fun field => field.name.text).nodup_iff]
  exact filter_clashes_eq_nil_iff Field.oneof inside

theorem fieldNumberFaults_eq_nil_iff {message : Message} (placed : message.Placed)
    (oneofs : ∀ oneof ∈ message.oneofs, oneof.Valid) :
    message.fieldNumberFaults = [] ↔ DistinctNumbers (message.allFields.map (·.number)) := by
  have inside (index : Nat) : (((message.fieldsInOrder.filterMap NumberedField.ofField?).filter
      fun numbered : NumberedField => numbered.field.oneof = some index).map NumberedField.number).Nodup := by
    have distinct := (placed.distinct_inside oneofs index).2
    rw [DistinctNumbers, ← numbers_of_fields, List.filterMap_filter] at distinct
    have pointwise (field : Field) :
        (NumberedField.ofField? field).filter
            (fun numbered : NumberedField => numbered.field.oneof = some index) =
          if decide (field.oneof = some index) then NumberedField.ofField? field else none := by
      rw [NumberedField.ofField?]
      cases field.number.number? <;> simp [Option.filter]
    rw [List.filter_filterMap]
    simpa only [pointwise] using distinct
  rw [fieldNumberFaults, List.map_eq_nil_iff, DistinctNumbers, ← numbers_of_fields,
    ← ((message.fieldsInOrder_perm.filterMap _).map NumberedField.number).nodup_iff]
  exact filter_clashes_eq_nil_iff (fun numbered : NumberedField => numbered.field.oneof) inside

/-- A message whose oneofs are without fault is itself without fault just in case it is valid. -/
theorem faults_eq_nil_iff {message : Message} (placed : message.Placed)
    (oneofs : ∀ oneof ∈ message.oneofs, oneof.Valid) :
    message.faults = [] ↔ message.Valid := by
  have nested : message.nestedNameFaults = [] ↔
      Distinct (message.messages.map (·.name) ++ message.enums.map (·.name)) := by
    rw [nestedNameFaults, repeatedNames_eq_nil_iff]
  have mapLabels : message.mapLabelFaults = [] ↔
      ∀ field ∈ message.allFields, field.type.isMap = true → field.oneof = none →
        field.labelSpan = none := by
    rw [mapLabelFaults, List.flatMap_eq_nil_iff]
    simp only [mem_fieldsInOrder, Bool.and_eq_true, Option.isNone_iff_eq_none,
      ite_eq_right_iff, List.map_eq_nil_iff, Option.toList_eq_nil_iff, and_imp]
  have oneofNames : message.oneofNameFaults = [] ↔
      ∀ oneof ∈ message.oneofs, ∀ field ∈ message.allFields,
        field.name.text ≠ oneof.name.text := by
    rw [oneofNameFaults, List.flatMap_eq_nil_iff]
    simp only [Option.toList_eq_nil_iff, Option.map_eq_none_iff, List.find?_eq_none,
      mem_fieldsInOrder, decide_eq_true_eq, ne_eq]
  have ranges : message.rangeFaults = [] ↔
      InOrder .field (Reserved.rangesOf message.reserved) ∧
        InOrder .field (message.extensionRanges.flatMap ExtensionRanges.ranges) := by
    have declared : (message.extensionRanges.flatMap ExtensionRanges.declared).map
        DeclaredRange.range = message.extensionRanges.flatMap ExtensionRanges.ranges := by
      simp [List.map_flatMap, ExtensionRanges.declared, Function.comp_def]
    rw [rangeFaults, List.append_eq_nil_iff, DeclaredRange.faults_eq_nil_iff,
      DeclaredRange.faults_eq_nil_iff, declared, Reserved.rangesOf]
  have unreserved : message.reservedFaults = [] ↔
      ∀ field ∈ message.allFields,
        Unreserved .field message.reserved field.number field.name := by
    rw [reservedFaults, List.flatMap_eq_nil_iff]
    simp only [mem_fieldsInOrder, reservationFaults_eq_nil_iff]
  simp only [faults, List.append_eq_nil_iff, typeNameFaults_eq_nil_iff, nested,
    fieldNameFaults_eq_nil_iff placed oneofs, fieldNumberFaults_eq_nil_iff placed oneofs, mapLabels,
    oneofNames, ranges, unreserved]
  constructor
  · rintro ⟨⟨⟨⟨⟨⟨⟨name, nested⟩, fields⟩, numbers⟩, mapLabels⟩, oneofNames⟩, reserved, extensions⟩,
      unreserved⟩
    exact ⟨name, nested, fields, numbers, mapLabels, oneofNames, reserved, extensions, unreserved⟩
  · rintro ⟨name, nested, fields, numbers, mapLabels, oneofNames, reserved, extensions,
      unreserved⟩
    exact ⟨⟨⟨⟨⟨⟨⟨name, nested⟩, fields⟩, numbers⟩, mapLabels⟩, oneofNames⟩, reserved, extensions⟩,
      unreserved⟩

end Message

end ProtoSchema
