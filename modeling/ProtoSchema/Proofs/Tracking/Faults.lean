/-
This file lists, for each declaration, the places that the checks made of it may
point at: those of its names, numbers, types, labels and ranges. If all of them
lie before a position, then so does all that the faults found point at.
-/

import ProtoSchema.Grammar.Files
import ProtoSchema.Proofs.Tracking.Rules
import ProtoSchema.Proofs.Tree.Definitions
import ProtoSchema.Proofs.Validation.Message

namespace ProtoSchema

/-! ### Places in declarations -/

/-- The range as a whole and its bounds. -/
def Range.spans (range : Range) : List Span :=
  range.span :: range.first.span ::
    match range.last with
    | .int literal => [literal.span]
    | .absent | .max _ => []

/-- The places of the ranges or the names that are reserved. -/
def ReservedItems.spans : ReservedItems → List Span
  | ranges items => items.flatMap Range.spans
  | names items => items.map Name.span

/-- A range that is reversed is reported at its whole declaration. -/
def Reserved.spans (reserved : Reserved) : List Span :=
  reserved.span :: reserved.items.spans

/-- The place of the declaration and those in its ranges. -/
def ExtensionRanges.spans (extensions : ExtensionRanges) : List Span :=
  extensions.span :: extensions.ranges.flatMap Range.spans

/-- The places of the keys; of values nothing is said. -/
def OptionSetting.keySpans (setting : OptionSetting) : List Span :=
  setting.name.map OptionKey.span

/-- The places in a field at which something may be said. -/
def Field.spans (field : Field) : List Span :=
  [field.name.span, field.number.span, field.type.span] ++ field.labelSpan.toList

/-- The place of the name and those in the fields. -/
def Oneof.spans (oneof : Oneof) : List Span :=
  oneof.name.span :: oneof.fields.flatMap Field.spans

/-- The places of the name and of the number. -/
def EnumValue.spans (value : EnumValue) : List Span :=
  [value.name.span, value.number.span]

/-- The places of the name, in the values and in what is reserved. -/
def Enumeration.spans (enumeration : Enumeration) : List Span :=
  enumeration.name.span :: (enumeration.values.flatMap EnumValue.spans ++
    enumeration.reserved.flatMap Reserved.spans)

/-- The places of the name and of both types. -/
def Method.spans (method : Method) : List Span :=
  [method.name.span, method.input.span, method.output.span]

/-- The place of the name and those in the methods. -/
def Service.spans (service : Service) : List Span :=
  service.name.span :: service.methods.flatMap Method.spans

/-- The place of the message that is extended and those in the fields. -/
def Extension.spans (extension : Extension) : List Span :=
  extension.extendee.span :: extension.fields.flatMap Field.spans

mutual

/-- The places of a message and of the declarations in it that are compared across the file. -/
def Message.spans : Message → List Span
  | ⟨name, fields, oneofs, messages, enums, _, extensionRanges, _, reserved, _, _⟩ =>
    name.span :: (fields.flatMap Field.spans ++ oneofs.flatMap Oneof.spans ++
      Message.spansOf messages ++ enums.flatMap Enumeration.spans ++
      extensionRanges.flatMap ExtensionRanges.spans ++ reserved.flatMap Reserved.spans)

/-- The places in messages, one message after the other. -/
def Message.spansOf : List Message → List Span
  | [] => []
  | message :: rest => message.spans ++ Message.spansOf rest

end

/-- The parts of the name of a package, each alone and with those before it. -/
def Package.spans (package : Package) : List Span :=
  package.span :: package.name.parts.flatMap fun part =>
    [part.span, package.name.span.through part.span]

/-- The places of the path and of the whole import. -/
def Import.spans (entry : Import) : List Span :=
  [entry.path.span, entry.span]

/-- The places in a file at which something may be said; extension blocks are checked on their own.
-/
def File.spans (file : File) : List Span :=
  file.package.toList.flatMap Package.spans ++ file.imports.flatMap Import.spans ++
    file.messages.flatMap Message.spans ++ file.enums.flatMap Enumeration.spans ++
    file.services.flatMap Service.spans

/-- The function on lists is there for the recursion alone. -/
theorem Message.spansOf_eq (messages : List Message) :
    Message.spansOf messages = messages.flatMap Message.spans := by
  induction messages with
  | nil => rfl
  | cons message rest inductionHypothesis => rw [spansOf, inductionHypothesis, List.flatMap_cons]

/-- The places in a message, without the function on lists. -/
theorem Message.spans_eq (message : Message) :
    message.spans = message.name.span :: (message.fields.flatMap Field.spans ++
      message.oneofs.flatMap Oneof.spans ++ message.messages.flatMap Message.spans ++
      message.enums.flatMap Enumeration.spans ++
      message.extensionRanges.flatMap ExtensionRanges.spans ++
      message.reserved.flatMap Reserved.spans) := by
  cases message
  rw [spans, spansOf_eq]

variable {stop : Nat}

/-! ### Names and clashes -/

/-- A name of the wrong form is told at the name. -/
theorem passedFaults_typeName {kind : TypeLike} {name : Name} (passed : name.span.Before stop) :
    PassedFaults stop (typeNameFaults kind name) := by
  rw [typeNameFaults]
  split
  · exact passedFaults_nil
  · exact List.forall_mem_singleton.mpr (List.forall_mem_singleton.mpr passed)

/-- A fault for each clash points at the places of the two that clash. -/
theorem passedFaults_clashes {Entry Key : Type} [DecidableEq Key] {key : Entry → Key}
    {entries : List Entry} {clashing : List (Entry × Entry)} {fault : Entry × Entry → SemanticFault}
    (fewer : clashing ⊆ clashes key entries)
    (passed : ∀ first ∈ entries, ∀ second ∈ entries, Passed stop (fault (first, second)).spans) :
    PassedFaults stop (clashing.map fault) := by
  refine List.forall_mem_map.mpr ?_
  rintro ⟨first, second⟩ member
  obtain ⟨sublist, -⟩ := sublist_of_mem_clashes (fewer member)
  exact passed first (sublist.subset List.mem_cons_self) second
    (sublist.subset (List.mem_cons_of_mem _ List.mem_cons_self))

theorem passed_pair {first second : Span} (firstPassed : first.Before stop)
    (secondPassed : second.Before stop) : Passed stop [first, second] :=
  passed_cons.mpr ⟨firstPassed, List.forall_mem_singleton.mpr secondPassed⟩

/-- A name that is repeated is told at both its places. -/
theorem passedFaults_repeatedNames {names : List Name}
    (passed : ∀ name ∈ names, name.span.Before stop) : PassedFaults stop (repeatedNames names) :=
  passedFaults_clashes (List.Subset.refl _) fun first firstMember second secondMember =>
    passed_pair (passed first firstMember) (passed second secondMember)

/-! ### Ranges -/

theorem passed_outside {kind : RangeKind} {span : Span} (passed : span.Before stop) :
    Passed stop (kind.outside span).spans := by
  cases kind <;> exact List.forall_mem_singleton.mpr passed

/-- A bound that does not fit is told at the bound. -/
theorem RangeKind.passed_bound {kind : RangeKind} {literal : IntLiteral}
    (before : literal.span.Before stop) {fault : SemanticFault}
    (found : kind.bound literal = .error fault) : Passed stop fault.spans := by
  rw [bound] at found
  split at found
  · cases found
  · obtain rfl := Except.error.inj found
    exact passed_outside before

theorem Range.passed_lastNumber {kind : RangeKind} {range : Range} {first : Int}
    (passed : Passed stop range.spans) {fault : SemanticFault}
    (found : range.lastNumber kind first = .error fault) : Passed stop fault.spans := by
  rw [spans, passed_cons, passed_cons] at passed
  rw [lastNumber] at found
  split at found
  · cases found
  · next literal eq =>
    rw [eq] at passed
    exact RangeKind.passed_bound (passed.2.2 _ List.mem_cons_self) found
  · cases found

/-- A range that is reversed is told at its declaration, which has to be passed as well. -/
theorem Range.passed_interval {kind : RangeKind} {range : Range} {declaration : Span}
    (passed : Passed stop range.spans) (declared : declaration.Before stop) {fault : SemanticFault}
    (found : range.interval kind declaration = .error fault) : Passed stop fault.spans := by
  have whole := (passed_cons.mp passed).1
  have firstPassed := (passed_cons.mp (passed_cons.mp passed).2).1
  rw [interval] at found
  cases firstFound : kind.bound range.first with
  | error other =>
    rw [firstFound] at found
    obtain rfl := Except.error.inj found
    exact RangeKind.passed_bound firstPassed firstFound
  | ok first =>
    rw [firstFound] at found
    change (range.lastNumber kind first).bind _ = _ at found
    cases lastFound : range.lastNumber kind first with
    | error other =>
      rw [lastFound] at found
      obtain rfl := Except.error.inj found
      exact passed_lastNumber passed lastFound
    | ok last =>
      rw [lastFound] at found
      change (if last < first then _ else _) = _ at found
      split at found
      · obtain rfl := Except.error.inj found
        exact List.forall_mem_singleton.mpr declared
      · split at found
        · obtain rfl := Except.error.inj found
          exact passed_outside whole
        · cases found

/-- What is wrong with ranges is told once all their declarations were passed. -/
theorem DeclaredRange.passedFaults {kind : RangeKind} {ranges : List DeclaredRange}
    (passed : ∀ declared ∈ ranges, declared.declaration.Before stop ∧
      Passed stop declared.range.spans) :
    PassedFaults stop (DeclaredRange.faults kind ranges) := by
  intro fault member
  obtain ⟨declared, declaredMember, found⟩ := List.mem_filterMap.mp member
  split at found
  · cases found
  · next other eq =>
    obtain rfl := Option.some.inj found
    obtain ⟨declaration, range⟩ := passed declared declaredMember
    exact Range.passed_interval range declaration eq

/-- The interval of a range is where the range is. -/
theorem DeclaredRange.exists_of_mem_intervals {kind : RangeKind} {ranges : List DeclaredRange}
    {interval : Interval} (member : interval ∈ DeclaredRange.intervals kind ranges) :
    ∃ declared ∈ ranges, interval.span = declared.range.span := by
  obtain ⟨declared, declaredMember, found⟩ := List.mem_filterMap.mp member
  rw [DeclaredRange.interval, Range.toOption_interval] at found
  obtain ⟨numbers, -, rfl⟩ := Option.map_eq_some_iff.mp found
  exact ⟨declared, declaredMember, rfl⟩

/-- The ranges that were passed are those of the statements that reserve. -/
theorem Reserved.passed_ranges {reserved : List Reserved}
    (passed : Passed stop (reserved.flatMap Reserved.spans)) :
    ∀ declared ∈ reserved.flatMap Reserved.ranges, declared.declaration.Before stop ∧
      Passed stop declared.range.spans := by
  intro declared member
  obtain ⟨entry, entryMember, member⟩ := List.mem_flatMap.mp member
  have entryPassed := passed_flatMap.mp passed entry entryMember
  rw [Reserved.spans, passed_cons] at entryPassed
  rw [Reserved.ranges] at member
  split at member
  · next items eq =>
    obtain ⟨range, rangeMember, rfl⟩ := List.mem_map.mp member
    rw [eq] at entryPassed
    exact ⟨entryPassed.1, passed_flatMap.mp entryPassed.2 range rangeMember⟩
  · exact absurd member List.not_mem_nil

theorem Reserved.passed_names {reserved : List Reserved}
    (passed : Passed stop (reserved.flatMap Reserved.spans)) :
    ∀ name ∈ reserved.flatMap Reserved.names, name.span.Before stop := by
  intro name member
  obtain ⟨entry, entryMember, member⟩ := List.mem_flatMap.mp member
  have entryPassed := passed_flatMap.mp passed entry entryMember
  rw [Reserved.spans, passed_cons] at entryPassed
  rw [Reserved.names] at member
  split at member
  · exact absurd member List.not_mem_nil
  · next items eq =>
    rw [eq] at entryPassed
    exact entryPassed.2 _ (List.mem_map_of_mem member)

/-- The use of a reserved number or name is told where it is used and where it is reserved. -/
theorem passedFaults_reservation {reserved : List Reserved} {kind : RangeKind}
    {number : IntLiteral} {name : Name}
    (passed : Passed stop (reserved.flatMap Reserved.spans)) (numberPassed : number.span.Before stop)
    (namePassed : name.span.Before stop) :
    PassedFaults stop (reservationFaults reserved kind number name) := by
  refine passedFaults_append.mpr ⟨fun fault member => ?_, fun fault member => ?_⟩
  · obtain ⟨value, -, found⟩ := Option.bind_eq_some_iff.mp (Option.mem_toList.mp member)
    obtain ⟨span, spanFound, same⟩ := Option.bind_eq_some_iff.mp found
    obtain rfl := Option.some.inj same
    obtain ⟨interval, intervalFound, rfl⟩ := Option.map_eq_some_iff.mp spanFound
    obtain ⟨declared, declaredMember, spanEq⟩ :=
      DeclaredRange.exists_of_mem_intervals (List.mem_of_find?_eq_some intervalFound)
    have range := (Reserved.passed_ranges passed declared declaredMember).2
    rw [spanEq]
    exact passed_pair numberPassed (range _ List.mem_cons_self)
  · obtain ⟨span, spanFound, rfl⟩ := Option.map_eq_some_iff.mp (Option.mem_toList.mp member)
    obtain ⟨other, otherFound, rfl⟩ := Option.map_eq_some_iff.mp spanFound
    exact passed_pair namePassed
      (Reserved.passed_names passed other (List.mem_of_find?_eq_some otherFound))

/-! ### Enums, services and extension blocks -/

/-- What is wrong with an enum is said at places that were passed. -/
theorem Enumeration.passedFaults {enumeration : Enumeration}
    (passed : Passed stop enumeration.spans) : PassedFaults stop enumeration.faults := by
  rw [spans, passed_cons, passed_append, passed_flatMap] at passed
  obtain ⟨namePassed, valuesPassed, reservedPassed⟩ := passed
  have valueName (value : EnumValue) (member : value ∈ enumeration.values) :
      value.name.span.Before stop := valuesPassed value member _ List.mem_cons_self
  have valueNumber (value : EnumValue) (member : value ∈ enumeration.values) :
      value.number.span.Before stop :=
    valuesPassed value member _ (List.mem_cons_of_mem _ List.mem_cons_self)
  have first : PassedFaults stop enumeration.firstValueFaults := by
    rw [firstValueFaults]
    split
    · exact List.forall_mem_singleton.mpr (List.forall_mem_singleton.mpr namePassed)
    · next value rest eq =>
      split
      · exact passedFaults_nil
      · exact List.forall_mem_singleton.mpr
          (List.forall_mem_singleton.mpr (valueNumber value (eq ▸ List.mem_cons_self)))
  have names : PassedFaults stop enumeration.valueNameFaults := by
    refine passedFaults_append.mpr ⟨passedFaults_flatMap.mpr fun value member =>
      passedFaults_typeName (valueName value member), passedFaults_repeatedNames ?_⟩
    exact List.forall_mem_map.mpr valueName
  have numbers : PassedFaults stop enumeration.valueNumberFaults := by
    have number (numbered : NumberedValue)
        (member : numbered ∈ enumeration.values.filterMap NumberedValue.ofValue?) :
        numbered.value.number.span.Before stop := by
      obtain ⟨value, valueMember, found⟩ := List.mem_filterMap.mp member
      obtain ⟨_, -, rfl⟩ := Option.map_eq_some_iff.mp found
      exact valueNumber value valueMember
    rw [valueNumberFaults]
    split
    · exact passedFaults_nil
    · exact passedFaults_clashes (List.Subset.refl _) fun first firstMember second secondMember =>
        passed_pair (number first firstMember) (number second secondMember)
  have reserved : PassedFaults stop enumeration.reservedFaults :=
    passedFaults_append.mpr
      ⟨DeclaredRange.passedFaults (Reserved.passed_ranges reservedPassed),
        passedFaults_flatMap.mpr fun value member =>
          passedFaults_reservation reservedPassed (valueNumber value member)
            (valueName value member)⟩
  rw [faults, passedFaults_append, passedFaults_append, passedFaults_append, passedFaults_append]
  exact ⟨⟨⟨⟨passedFaults_typeName namePassed, first⟩, names⟩, numbers⟩, reserved⟩

/-- What is wrong with a service is said at places that were passed. -/
theorem Service.passedFaults {service : Service} (passed : Passed stop service.spans) :
    PassedFaults stop service.faults := by
  rw [spans, passed_cons, passed_flatMap] at passed
  obtain ⟨namePassed, methodsPassed⟩ := passed
  have methodName (method : Method) (member : method ∈ service.methods) :
      method.name.span.Before stop := methodsPassed method member _ List.mem_cons_self
  have types (method : Method) (member : method ∈ service.methods) :
      PassedFaults stop method.typeFaults := by
    have methodPassed := methodsPassed method member
    rw [Method.spans, passed_cons] at methodPassed
    refine passedFaults_flatMap.mpr fun name nameMember => ?_
    have namePassed : name.span.Before stop :=
      methodPassed.2 name.span (List.mem_map_of_mem (f := TypeName.span) nameMember)
    split
    · exact passedFaults_nil
    · exact List.forall_mem_singleton.mpr (List.forall_mem_singleton.mpr namePassed)
  rw [faults, passedFaults_append, passedFaults_append, passedFaults_flatMap]
  refine ⟨⟨passedFaults_typeName namePassed, fun method member =>
    passedFaults_append.mpr ⟨passedFaults_typeName (methodName method member),
      types method member⟩⟩, passedFaults_repeatedNames ?_⟩
  exact List.forall_mem_map.mpr methodName

/-- What is wrong with an extension block is said at places that were passed. -/
theorem Extension.passedFaults {edition : Option Edition} {extension : Extension}
    (passed : Passed stop extension.spans) : PassedFaults stop (extension.faults edition) := by
  rw [spans, passed_cons, passed_flatMap] at passed
  obtain ⟨extendeePassed, fieldsPassed⟩ := passed
  refine passedFaults_append.mpr ⟨?_, passedFaults_flatMap.mpr fun field member => ?_⟩
  · rw [extendeeFaults]
    split
    · exact List.forall_mem_singleton.mpr (List.forall_mem_singleton.mpr extendeePassed)
    · exact passedFaults_nil
  · have fieldPassed := fieldsPassed field member
    rw [Field.spans, passed_append, passed_cons, passed_cons, passed_cons] at fieldPassed
    split
    · exact List.forall_mem_singleton.mpr (List.forall_mem_singleton.mpr fieldPassed.1.2.2.1)
    · exact passedFaults_nil

/-! ### Fields and messages -/

/-- What is asked of the places of a field. -/
structure Field.Passed (stop : Nat) (field : Field) : Prop where
  name : field.name.span.Before stop
  number : field.number.span.Before stop
  type : field.type.span.Before stop
  label : ∀ span, field.labelSpan = some span → span.Before stop

/-- The places in a field were passed just in case its parts were. -/
theorem Field.passed_spans {field : Field} : ProtoSchema.Passed stop field.spans ↔ field.Passed stop := by
  rw [spans, passed_append, passed_cons, passed_cons, passed_cons]
  simp only [ProtoSchema.Passed, List.not_mem_nil, false_implies, implies_true, and_true,
    Option.mem_toList]
  exact ⟨fun ⟨⟨name, number, type⟩, label⟩ => ⟨name, number, type, label⟩,
    fun ⟨name, number, type, label⟩ => ⟨⟨name, number, type⟩, label⟩⟩

theorem NumberedField.mem_of_mem {fields : List Field} {numbered : NumberedField}
    (member : numbered ∈ fields.filterMap NumberedField.ofField?) : numbered.field ∈ fields := by
  obtain ⟨field, fieldMember, found⟩ := List.mem_filterMap.mp member
  obtain ⟨_, -, rfl⟩ := Option.map_eq_some_iff.mp found
  exact fieldMember

/-- What is wrong with a oneof is said at places that were passed. -/
theorem Oneof.passedFaults {oneof : Oneof} (passed : Passed stop oneof.spans) :
    PassedFaults stop oneof.faults := by
  rw [spans, passed_cons, passed_flatMap] at passed
  obtain ⟨namePassed, fieldsPassed⟩ := passed
  simp only [Field.passed_spans] at fieldsPassed
  have empty : PassedFaults stop
      (if oneof.fields.isEmpty then [⟨.emptyOneof, oneof.name.span⟩] else []) := by
    split
    · exact List.forall_mem_singleton.mpr (List.forall_mem_singleton.mpr namePassed)
    · exact passedFaults_nil
  have members : PassedFaults stop (oneof.fields.flatMap memberFaults) := by
    refine passedFaults_flatMap.mpr fun field member => passedFaults_append.mpr ⟨?_, ?_⟩
    · refine List.forall_mem_map.mpr fun span spanMember => ?_
      exact List.forall_mem_singleton.mpr
        ((fieldsPassed field member).label span (Option.mem_toList.mp spanMember))
    · split
      · exact List.forall_mem_singleton.mpr
          (List.forall_mem_singleton.mpr (fieldsPassed field member).type)
      · exact passedFaults_nil
  have number (numbered : NumberedField)
      (member : numbered ∈ oneof.fields.filterMap NumberedField.ofField?) :
      numbered.field.number.span.Before stop :=
    (fieldsPassed numbered.field (NumberedField.mem_of_mem member)).number
  rw [faults, passedFaults_append, passedFaults_append, passedFaults_append]
  refine ⟨⟨⟨empty, members⟩, passedFaults_repeatedNames ?_⟩, ?_⟩
  · exact List.forall_mem_map.mpr fun field member => (fieldsPassed field member).name
  · exact passedFaults_clashes (List.Subset.refl _) fun first firstMember second secondMember =>
      passed_pair (number first firstMember) (number second secondMember)

/-- What is asked of the places of a message. -/
structure Message.Passed (stop : Nat) (message : Message) : Prop where
  name : message.name.span.Before stop
  fields : ProtoSchema.Passed stop (message.fields.flatMap Field.spans)
  oneofs : ProtoSchema.Passed stop (message.oneofs.flatMap Oneof.spans)
  messages : ProtoSchema.Passed stop (message.messages.flatMap Message.spans)
  enums : ProtoSchema.Passed stop (message.enums.flatMap Enumeration.spans)
  extensionRanges :
    ProtoSchema.Passed stop (message.extensionRanges.flatMap ExtensionRanges.spans)
  reserved : ProtoSchema.Passed stop (message.reserved.flatMap Reserved.spans)

/-- The places in a message were passed just in case its members were. -/
theorem Message.passed_spans {message : Message} :
    ProtoSchema.Passed stop message.spans ↔ message.Passed stop := by
  rw [spans_eq, passed_cons]
  simp only [passed_append]
  exact ⟨fun ⟨name, ⟨⟨⟨⟨fields, oneofs⟩, messages⟩, enums⟩, extensionRanges⟩, reserved⟩ =>
      ⟨name, fields, oneofs, messages, enums, extensionRanges, reserved⟩,
    fun ⟨name, fields, oneofs, messages, enums, extensionRanges, reserved⟩ =>
      ⟨name, ⟨⟨⟨⟨fields, oneofs⟩, messages⟩, enums⟩, extensionRanges⟩, reserved⟩⟩

namespace Message.Passed

variable {message : Message}

theorem fieldsInOrder (passed : message.Passed stop) :
    ∀ field ∈ message.fieldsInOrder, field.Passed stop := by
  intro field member
  rw [mem_fieldsInOrder, allFields, List.mem_append, List.mem_flatMap] at member
  rcases member with member | ⟨oneof, oneofMember, member⟩
  · exact Field.passed_spans.mp (passed_flatMap.mp passed.fields field member)
  · have inside := passed_cons.mp (passed_flatMap.mp passed.oneofs oneof oneofMember)
    exact Field.passed_spans.mp (passed_flatMap.mp inside.2 field member)

theorem nestedNameFaults (passed : message.Passed stop) :
    PassedFaults stop message.nestedNameFaults := by
  refine passedFaults_repeatedNames (List.forall_mem_append.mpr
    ⟨List.forall_mem_map.mpr fun inner member => ?_,
      List.forall_mem_map.mpr fun enumeration member => ?_⟩)
  · have inside := passed_flatMap.mp passed.messages inner member
    rw [spans_eq] at inside
    exact inside _ List.mem_cons_self
  · exact passed_flatMap.mp passed.enums enumeration member _ List.mem_cons_self

theorem fieldNameFaults (passed : message.Passed stop) :
    PassedFaults stop message.fieldNameFaults :=
  passedFaults_clashes (List.filter_subset_self _) fun first firstMember second secondMember =>
    passed_pair (passed.fieldsInOrder first firstMember).name
      (passed.fieldsInOrder second secondMember).name

theorem fieldNumberFaults (passed : message.Passed stop) :
    PassedFaults stop message.fieldNumberFaults := by
  have number (numbered : NumberedField)
      (member : numbered ∈ message.fieldsInOrder.filterMap NumberedField.ofField?) :
      numbered.field.number.span.Before stop :=
    (passed.fieldsInOrder numbered.field (NumberedField.mem_of_mem member)).number
  exact passedFaults_clashes (List.filter_subset_self _) fun first firstMember second secondMember =>
    passed_pair (number first firstMember) (number second secondMember)

theorem mapLabelFaults (passed : message.Passed stop) :
    PassedFaults stop message.mapLabelFaults := by
  refine passedFaults_flatMap.mpr fun field member => ?_
  split
  · refine List.forall_mem_map.mpr fun span spanMember => ?_
    exact List.forall_mem_singleton.mpr
      ((passed.fieldsInOrder field member).label span (Option.mem_toList.mp spanMember))
  · exact passedFaults_nil

theorem oneofNameFaults (passed : message.Passed stop) :
    PassedFaults stop message.oneofNameFaults := by
  refine passedFaults_flatMap.mpr fun oneof member fault faultMember => ?_
  obtain ⟨field, found, rfl⟩ := Option.map_eq_some_iff.mp (Option.mem_toList.mp faultMember)
  exact passed_pair (passed.fieldsInOrder field (List.mem_of_find?_eq_some found)).name
    (passed_flatMap.mp passed.oneofs oneof member _ List.mem_cons_self)

theorem rangeFaults (passed : message.Passed stop) : PassedFaults stop message.rangeFaults := by
  refine passedFaults_append.mpr
    ⟨DeclaredRange.passedFaults (Reserved.passed_ranges passed.reserved),
      DeclaredRange.passedFaults fun declared member => ?_⟩
  obtain ⟨entry, entryMember, member⟩ := List.mem_flatMap.mp member
  obtain ⟨range, rangeMember, rfl⟩ := List.mem_map.mp member
  have entryPassed := passed_flatMap.mp passed.extensionRanges entry entryMember
  rw [ExtensionRanges.spans, passed_cons, passed_flatMap] at entryPassed
  exact ⟨entryPassed.1, entryPassed.2 range rangeMember⟩

theorem reservedFaults (passed : message.Passed stop) :
    PassedFaults stop message.reservedFaults :=
  passedFaults_flatMap.mpr fun field member => passedFaults_reservation passed.reserved
    (passed.fieldsInOrder field member).number (passed.fieldsInOrder field member).name

end Message.Passed

/-- The faults of a message point at places in it. -/
theorem Message.passedFaults {message : Message} (passed : message.Passed stop) :
    PassedFaults stop message.faults := by
  simp only [faults, passedFaults_append]
  exact ⟨⟨⟨⟨⟨⟨⟨passedFaults_typeName passed.name, passed.nestedNameFaults⟩,
    passed.fieldNameFaults⟩, passed.fieldNumberFaults⟩, passed.mapLabelFaults⟩,
    passed.oneofNameFaults⟩, passed.rangeFaults⟩, passed.reservedFaults⟩

/-! ### Files -/

namespace Definition

theorem span_mem_ofEnum {scope : String} {nested : Bool} {enumeration : Enumeration} :
    ∀ definition ∈ ofEnum scope nested enumeration, definition.span ∈ enumeration.spans := by
  refine List.forall_mem_cons.mpr ⟨List.mem_cons_self, List.forall_mem_map.mpr fun value member => ?_⟩
  exact List.mem_cons_of_mem _ (List.mem_append_left _
    (List.mem_flatMap.mpr ⟨value, member, List.mem_cons_self⟩))

theorem span_mem_ofService {scope : String} {service : Service} :
    ∀ definition ∈ ofService scope service, definition.span ∈ service.spans := by
  refine List.forall_mem_cons.mpr ⟨List.mem_cons_self, List.forall_mem_map.mpr fun method member => ?_⟩
  exact List.mem_cons_of_mem _ (List.mem_flatMap.mpr ⟨method, member, List.mem_cons_self⟩)

/-- Each definition in a message stands at one of the places in it. -/
theorem span_mem_ofMessage (message : Message) (scope : String) (nested : Bool) :
    ∀ definition ∈ ofMessage scope nested message, definition.span ∈ message.spans := by
  induction message using Message.induction generalizing scope nested with
  | step message inductionHypothesis =>
    intro definition member
    rw [ofMessage_eq, List.mem_cons, List.mem_append, List.mem_flatMap, List.mem_flatMap] at member
    rw [Message.spans_eq, List.mem_cons]
    simp only [List.mem_append, List.mem_flatMap]
    rcases member with rfl | ⟨inner, innerMember, member⟩ | ⟨enumeration, enumMember, member⟩
    · exact .inl rfl
    · exact .inr (.inl (.inl (.inl (.inr
        ⟨inner, innerMember, inductionHypothesis inner innerMember _ _ definition member⟩))))
    · exact .inr (.inl (.inl (.inr
        ⟨enumeration, enumMember, span_mem_ofEnum definition member⟩)))

theorem span_mem_ofPackage {package : Package} :
    ∀ definition ∈ ofPackage package, definition.span ∈ package.spans := by
  have parts (parts : List Name) (scope : String) :
      ∀ definition ∈ ofParts package.name.span.start scope parts, ∃ part ∈ parts,
        definition.span = package.name.span.through part.span := by
    induction parts generalizing scope with
    | nil => exact fun _ member => absurd member List.not_mem_nil
    | cons part rest inductionHypothesis =>
      refine List.forall_mem_cons.mpr ⟨⟨part, List.mem_cons_self, rfl⟩, fun definition member => ?_⟩
      obtain ⟨other, otherMember, eq⟩ := inductionHypothesis _ definition member
      exact ⟨other, List.mem_cons_of_mem _ otherMember, eq⟩
  intro definition member
  obtain ⟨part, partMember, eq⟩ := parts _ _ definition member
  rw [eq]
  exact List.mem_cons_of_mem _
    (List.mem_flatMap.mpr ⟨part, partMember, List.mem_cons_of_mem _ List.mem_cons_self⟩)

end Definition

/-- What is asked of the places of a file. -/
structure File.Passed (stop : Nat) (file : File) : Prop where
  package : ProtoSchema.Passed stop (file.package.toList.flatMap Package.spans)
  imports : ProtoSchema.Passed stop (file.imports.flatMap Import.spans)
  messages : ProtoSchema.Passed stop (file.messages.flatMap Message.spans)
  enums : ProtoSchema.Passed stop (file.enums.flatMap Enumeration.spans)
  services : ProtoSchema.Passed stop (file.services.flatMap Service.spans)

theorem File.passed_spans {file : File} :
    ProtoSchema.Passed stop file.spans ↔ file.Passed stop := by
  simp only [spans, passed_append]
  exact ⟨fun ⟨⟨⟨⟨package, imports⟩, messages⟩, enums⟩, services⟩ =>
      ⟨package, imports, messages, enums, services⟩,
    fun ⟨package, imports, messages, enums, services⟩ =>
      ⟨⟨⟨⟨package, imports⟩, messages⟩, enums⟩, services⟩⟩

/-- What is wrong with a file is said at places that were passed. -/
theorem File.passedFaults {file : File} (passed : file.Passed stop) :
    PassedFaults stop file.faults := by
  obtain ⟨packages, imports, messages, enums, services⟩ := passed
  rw [passed_flatMap] at packages imports messages enums services
  have paths : ∀ entry ∈ file.imports, entry.path.span.Before stop :=
    fun entry member => imports entry member _ List.mem_cons_self
  have wholes : ∀ entry ∈ file.imports, entry.span.Before stop :=
    fun entry member => imports entry member _ (List.mem_cons_of_mem _ List.mem_cons_self)
  have importFaults : PassedFaults stop file.importFaults := by
    refine passedFaults_append.mpr ⟨passedFaults_flatMap.mpr fun entry member => ?_, ?_⟩
    · split
      · exact passedFaults_nil
      · exact List.forall_mem_singleton.mpr (List.forall_mem_singleton.mpr (paths entry member))
    · exact passedFaults_clashes (List.Subset.refl _) fun first firstMember second secondMember =>
        passed_pair (wholes first firstMember) (wholes second secondMember)
  have packageFaults : PassedFaults stop file.packageFaults := by
    refine passedFaults_flatMap.mpr fun package member =>
      passedFaults_flatMap.mpr fun part partMember => ?_
    split
    · exact passedFaults_nil
    · exact List.forall_mem_singleton.mpr (List.forall_mem_singleton.mpr
        (packages package member _ (List.mem_cons_of_mem _
          (List.mem_flatMap.mpr ⟨part, partMember, List.mem_cons_self⟩))))
  have definitions : ∀ definition ∈ file.definitions, definition.span.Before stop := by
    intro definition member
    simp only [File.definitions, Definition.ofMessages_eq, List.mem_append, List.mem_flatMap]
      at member
    rcases member with ((⟨package, owner, member⟩ | ⟨message, owner, member⟩) |
      ⟨enumeration, owner, member⟩) | ⟨service, owner, member⟩
    · exact packages package owner _ (Definition.span_mem_ofPackage definition member)
    · exact messages message owner _ (Definition.span_mem_ofMessage message _ _ definition member)
    · exact enums enumeration owner _ (Definition.span_mem_ofEnum definition member)
    · exact services service owner _ (Definition.span_mem_ofService definition member)
  have definitionFaults : PassedFaults stop file.definitionFaults :=
    passedFaults_clashes (List.filter_subset_self _) fun first firstMember second secondMember =>
      passed_pair (definitions first firstMember) (definitions second secondMember)
  rw [faults, passedFaults_append, passedFaults_append]
  exact ⟨⟨importFaults, packageFaults⟩, definitionFaults⟩

end ProtoSchema
