/-
This file shows that the checks of declarations are indifferent to where these
stand: what is found in a tree that was moved is what was found in it before,
moved with it. The fields of a message are compared in the order of the source,
which moves keep.
-/

import ProtoSchema.Grammar.Files
import ProtoSchema.Proofs.Diagnostic.Spans
import ProtoSchema.Proofs.Movement.Tree
import ProtoSchema.Proofs.Validation.Erasure

namespace ProtoSchema

/-! ### Faults -/

/-- A fault moves with all places that it points at. -/
def SemanticFault.moved (move : Move) (fault : SemanticFault) : SemanticFault :=
  fault.mapSpan (Span.moved move)

/-- What is wrong does not depend on where it is. -/
def GrammarFault.moved (move : Move) (fault : GrammarFault) : GrammarFault :=
  ⟨fault.cause, fault.span.moved move⟩

variable {move : Move}

/-! ### Names and clashes -/

/-- The place of a path is told by its parts, so there has to be one. -/
theorem DottedName.span_moved {name : DottedName} (some : name.parts ≠ []) :
    (name.moved move).span = name.span.moved move := by
  obtain ⟨parts⟩ := name
  obtain ⟨first, rest, rfl⟩ := List.exists_cons_of_ne_nil some
  have last : (first :: rest).getLast? = Option.some ((first :: rest).getLast some) :=
    List.getLast?_eq_some_getLast some
  simp only [span, moved, Span.moved, List.getLast?_map, last]
  rfl

theorem TypeName.span_moved {name : TypeName} (some : name.path.parts ≠ []) :
    (name.moved move).span = name.span.moved move := by
  obtain ⟨dot, path⟩ := name
  have path_eq : (path.moved move).span = path.span.moved move := DottedName.span_moved some
  cases dot with
  | none => exact path_eq
  | some dot =>
    change (dot.moved move).through (path.moved move).span = _
    rw [path_eq]
    rfl

/-- What is wrong with a name is wrong with it wherever it stands, and is said there. -/
theorem typeNameFaults_moved (kind : TypeLike) (name : Name) :
    typeNameFaults kind (name.moved move) =
      (typeNameFaults kind name).map (SemanticFault.moved move) := by
  rw [typeNameFaults, typeNameFaults, Name.moved]
  dsimp only
  split <;> rfl

section

variable {Entry Key : Type} [DecidableEq Key] {key : Entry → Key} {change : Entry → Entry}
variable {fault : Entry × Entry → SemanticFault}

/-- What clashes does so after a change that keys do not notice, and the faults move if they do for
each pair. -/
theorem clashFaults_moved (entries : List Entry) (keys : ∀ entry, key (change entry) = key entry)
    (faults : ∀ pair, fault (pair.map change change) = SemanticFault.moved move (fault pair)) :
    (clashes key (entries.map change)).map fault =
      ((clashes key entries).map fault).map (SemanticFault.moved move) := by
  rw [clashes_map]
  simp only [keys, List.map_map, Function.comp_def, faults]

/-- The same for the faults of those clashes that are not left to another check. -/
theorem filteredFaults_moved {keep : Entry × Entry → Bool} (entries : List Entry)
    (keys : ∀ entry, key (change entry) = key entry)
    (kept : ∀ pair, keep (pair.map change change) = keep pair)
    (faults : ∀ pair, fault (pair.map change change) = SemanticFault.moved move (fault pair)) :
    ((clashes key (entries.map change)).filter keep).map fault =
      (((clashes key entries).filter keep).map fault).map (SemanticFault.moved move) := by
  rw [clashes_map, List.filter_map]
  simp only [keys, List.map_map, Function.comp_def, faults, kept]

end

/-- Which names are repeated does not depend on their places. -/
theorem repeatedNames_moved (names : List Name) :
    repeatedNames (names.map (Name.moved move)) =
      (repeatedNames names).map (SemanticFault.moved move) :=
  clashFaults_moved names (fun _ => rfl) fun _ => rfl

/-! ### Ranges -/

/-- An interval with the place of its range moved on. -/
def Interval.moved (move : Move) (interval : Interval) : Interval :=
  { interval with span := interval.span.moved move }

/-- A range and the declaration that it stands in, both moved on. -/
def DeclaredRange.moved (move : Move) (declared : DeclaredRange) : DeclaredRange :=
  ⟨declared.range.moved move, declared.declaration.moved move⟩

theorem Range.span_moved (range : Range) : (range.moved move).span = range.span.moved move := by
  obtain ⟨first, last⟩ := range
  cases last <;> rfl

/-- A bound that does not fit is told at its new place. -/
theorem RangeKind.bound_moved (kind : RangeKind) (literal : IntLiteral) :
    kind.bound (literal.moved move) = (kind.bound literal).mapError (SemanticFault.moved move) := by
  have same : (literal.moved move).toInt64? = literal.toInt64? := rfl
  rw [bound, bound, same]
  cases literal.toInt64? with
  | some value => rfl
  | none => cases kind <;> rfl

theorem RangeKind.outside_moved (kind : RangeKind) (span : Span) :
    kind.outside (span.moved move) = SemanticFault.moved move (kind.outside span) := by
  cases kind <;> rfl

namespace Range

theorem lastNumber_moved (range : Range) (kind : RangeKind) (first : Int) :
    (range.moved move).lastNumber kind first =
      (range.lastNumber kind first).mapError (SemanticFault.moved move) := by
  obtain ⟨_, last⟩ := range
  cases last with
  | absent => rfl
  | int literal => exact kind.bound_moved literal
  | max span => rfl

/-- A range has the same numbers once moved, or the same fault at its new place. -/
theorem interval_moved (range : Range) (kind : RangeKind) (declaration : Span) :
    (range.moved move).interval kind (declaration.moved move) =
      ((range.interval kind declaration).mapError (SemanticFault.moved move)).map
        (Interval.moved move) := by
  have firstEq : kind.bound (range.moved move).first =
      (kind.bound range.first).mapError (SemanticFault.moved move) := kind.bound_moved _
  rw [interval, interval, firstEq]
  cases kind.bound range.first with
  | error fault => rfl
  | ok first =>
    change (do
        let last ← (range.moved move).lastNumber kind first
        _) = Except.map _ (Except.mapError _ (do
          let last ← range.lastNumber kind first
          _))
    rw [lastNumber_moved, span_moved, kind.outside_moved]
    cases range.lastNumber kind first with
    | error fault => rfl
    | ok last =>
      change (if last < first then _ else _) =
        Except.map _ (Except.mapError _ (if last < first then _ else _))
      split
      · rfl
      · split <;> rfl

end Range

namespace DeclaredRange

theorem interval_moved (declared : DeclaredRange) (kind : RangeKind) :
    (declared.moved move).interval kind =
      ((declared.interval kind).mapError (SemanticFault.moved move)).map (Interval.moved move) :=
  declared.range.interval_moved kind declared.declaration

/-- Of the ranges that are right each is moved on its own. -/
theorem intervals_moved (kind : RangeKind) (ranges : List DeclaredRange) :
    intervals kind (ranges.map (moved move)) =
      (intervals kind ranges).map (Interval.moved move) := by
  rw [intervals, intervals, List.filterMap_map, List.map_filterMap]
  refine List.filterMap_congr fun declared _ => ?_
  rw [Function.comp_apply, interval_moved]
  cases declared.interval kind <;> rfl

theorem faults_moved (kind : RangeKind) (ranges : List DeclaredRange) :
    faults kind (ranges.map (moved move)) =
      (faults kind ranges).map (SemanticFault.moved move) := by
  rw [faults, faults, List.filterMap_map, List.map_filterMap]
  refine List.filterMap_congr fun declared _ => ?_
  rw [Function.comp_apply, interval_moved]
  cases declared.interval kind <;> rfl

end DeclaredRange

/-! ### Reserved items -/

namespace Reserved

/-- Moving statements that reserve moves the ranges in them. -/
theorem ranges_moved (reserved : List Reserved) :
    (reserved.map (moved move)).flatMap ranges =
      (reserved.flatMap ranges).map (DeclaredRange.moved move) := by
  rw [List.flatMap_map, List.map_flatMap]
  refine List.flatMap_congr fun entry _ => ?_
  obtain ⟨items, comments, span⟩ := entry
  cases items with
  | names items => rfl
  | ranges items =>
    simp only [ranges, moved, ReservedItems.moved, List.map_map]
    rfl

theorem names_moved (reserved : List Reserved) :
    (reserved.map (moved move)).flatMap names = (reserved.flatMap names).map (Name.moved move) := by
  rw [List.flatMap_map, List.map_flatMap]
  refine List.flatMap_congr fun entry _ => ?_
  obtain ⟨items, comments, span⟩ := entry
  cases items <;> rfl

end Reserved

/-- What is reserved stays reserved, and its uses are told at their new places. -/
theorem reservationFaults_moved (reserved : List Reserved) (kind : RangeKind) (number : IntLiteral)
    (name : Name) :
    reservationFaults (reserved.map (Reserved.moved move)) kind (number.moved move)
        (name.moved move) =
      (reservationFaults reserved kind number name).map (SemanticFault.moved move) := by
  have numbers (value : Int) :
      reservedNumber? ((DeclaredRange.intervals kind (reserved.flatMap Reserved.ranges)).map
        (Interval.moved move)) value =
      (reservedNumber? (DeclaredRange.intervals kind (reserved.flatMap Reserved.ranges)) value).map
        (Span.moved move) := by
    rw [reservedNumber?, reservedNumber?, List.find?_map, Option.map_map, Option.map_map]
    rfl
  have names : reservedName? (reserved.map (Reserved.moved move)) (name.moved move).text =
      (reservedName? reserved name.text).map (Span.moved move) := by
    rw [reservedName?, reservedName?, Reserved.names_moved, List.find?_map, Option.map_map,
      Option.map_map]
    rfl
  have value : (number.moved move).number? = number.number? := rfl
  rw [reservationFaults, reservationFaults, Reserved.ranges_moved, DeclaredRange.intervals_moved,
    names, value, List.map_append]
  congr 1
  · cases number.number? with
    | none => rfl
    | some value =>
      change (Option.bind (reservedNumber? _ value) _).toList =
        List.map _ (Option.bind (reservedNumber? _ value) _).toList
      rw [numbers]
      cases reservedNumber? _ value <;> rfl
  · cases reservedName? reserved name.text <;> rfl

/-- The faults found entry by entry. -/
theorem faultsEach_moved {Entry : Type} {change : Entry → Entry}
    {faultsOf movedFaultsOf : Entry → List SemanticFault} (entries : List Entry)
    (each : ∀ entry ∈ entries,
      movedFaultsOf (change entry) = (faultsOf entry).map (SemanticFault.moved move)) :
    (entries.map change).flatMap movedFaultsOf =
      (entries.flatMap faultsOf).map (SemanticFault.moved move) := by
  rw [List.flatMap_map, List.map_flatMap]
  exact List.flatMap_congr each

/-! ### Enums -/

/-- A value of an enum, next to its number, moved on. -/
def NumberedValue.moved (move : Move) (numbered : NumberedValue) : NumberedValue :=
  { numbered with value := numbered.value.moved move }

/-- The values that have numbers still have them when moved. -/
theorem NumberedValue.ofValues_moved (values : List EnumValue) :
    (values.map (EnumValue.moved move)).filterMap ofValue? =
      (values.filterMap ofValue?).map (moved move) := by
  rw [List.filterMap_map, List.map_filterMap]
  refine List.filterMap_congr fun value _ => ?_
  rw [Function.comp_apply, ofValue?, ofValue?, Option.map_map]
  rfl

namespace Enumeration

variable (enumeration : Enumeration)

/-- Whether the first number is zero does not depend on places. -/
theorem firstValueFaults_moved :
    (enumeration.moved move).firstValueFaults =
      enumeration.firstValueFaults.map (SemanticFault.moved move) := by
  obtain ⟨name, values, options, reserved, allows, comments, span⟩ := enumeration
  cases values with
  | nil => rfl
  | cons value rest =>
    change (if value.number.number? = some 0 then _ else _) =
      List.map _ (if value.number.number? = some 0 then _ else _)
    split <;> rfl

theorem valueNameFaults_moved :
    (enumeration.moved move).valueNameFaults =
      enumeration.valueNameFaults.map (SemanticFault.moved move) := by
  have repeated : ((enumeration.values.map (EnumValue.moved move)).map (·.name)) =
      (enumeration.values.map (·.name)).map (Name.moved move) := by
    rw [List.map_map, List.map_map]
    rfl
  rw [valueNameFaults, valueNameFaults, List.map_append, ← repeatedNames_moved, ← repeated]
  congr 1
  exact faultsEach_moved enumeration.values fun value _ =>
    typeNameFaults_moved .enumValue value.name

/-- Numbers clash where they did before. -/
theorem valueNumberFaults_moved :
    (enumeration.moved move).valueNumberFaults =
      enumeration.valueNumberFaults.map (SemanticFault.moved move) := by
  change (if enumeration.allowsAliases = true then _ else _) =
    List.map _ (if enumeration.allowsAliases = true then _ else _)
  split
  · rfl
  · change (clashes _ ((enumeration.values.map (EnumValue.moved move)).filterMap _)).map _ = _
    rw [NumberedValue.ofValues_moved]
    exact clashFaults_moved _ (fun _ => rfl) fun _ => rfl

theorem reservedFaults_moved :
    (enumeration.moved move).reservedFaults =
      enumeration.reservedFaults.map (SemanticFault.moved move) := by
  rw [reservedFaults, reservedFaults, List.map_append, ← DeclaredRange.faults_moved,
    ← Reserved.ranges_moved]
  congr 1
  exact faultsEach_moved enumeration.values fun value _ =>
    reservationFaults_moved enumeration.reserved .enumValue value.number value.name

/-- What is wrong with an enum is said at the new places. -/
theorem faults_moved :
    (enumeration.moved move).faults = enumeration.faults.map (SemanticFault.moved move) := by
  rw [faults, faults, firstValueFaults_moved, valueNameFaults_moved, valueNumberFaults_moved,
    reservedFaults_moved]
  simp only [List.map_append]
  congr 4
  exact typeNameFaults_moved .enumeration enumeration.name

end Enumeration

/-! ### Services -/

/-- The names of the types that a method takes and returns have parts. -/
structure Method.Typed (method : Method) : Prop where
  input : method.input.path.parts ≠ []
  output : method.output.path.parts ≠ []

theorem TypeName.namesMessage_moved (name : TypeName) :
    (name.moved move).namesMessage = name.namesMessage := by
  obtain ⟨dot, ⟨parts⟩⟩ := name
  simp only [namesMessage, moved, DottedName.moved, List.getLast?_map, ← List.map_dropLast,
    List.all_map, Option.any_map]
  rfl

/-- What is wrong with the types of a method is said at their new places. -/
theorem Method.typeFaults_moved {method : Method} (typed : method.Typed) :
    (method.moved move).typeFaults = method.typeFaults.map (SemanticFault.moved move) := by
  change ([method.input, method.output].map (TypeName.moved move)).flatMap _ = _
  refine faultsEach_moved _ fun name member => ?_
  have some : name.path.parts ≠ [] := by
    rcases List.mem_pair.mp member with rfl | rfl
    · exact typed.input
    · exact typed.output
  rw [name.namesMessage_moved, name.text_moved, TypeName.span_moved some]
  split <;> rfl

/-- What is wrong with a service is said at the new places. -/
theorem Service.faults_moved {service : Service}
    (typed : ∀ method ∈ service.methods, method.Typed) :
    (service.moved move).faults = service.faults.map (SemanticFault.moved move) := by
  have repeated : (service.methods.map (Method.moved move)).map (·.name) =
      (service.methods.map (·.name)).map (Name.moved move) := by
    rw [List.map_map, List.map_map]
    rfl
  have methods : (service.methods.map (Method.moved move)).flatMap
      (fun method => typeNameFaults .method method.name ++ method.typeFaults) =
      (service.methods.flatMap
        fun method => typeNameFaults .method method.name ++ method.typeFaults).map
          (SemanticFault.moved move) := by
    refine faultsEach_moved _ fun method member => ?_
    rw [List.map_append, ← Method.typeFaults_moved (typed method member),
      ← typeNameFaults_moved]
    rfl
  rw [faults, faults, List.map_append, List.map_append, ← methods, ← repeatedNames_moved,
    ← repeated, ← typeNameFaults_moved]
  rfl

/-! ### Extension blocks -/

theorem FieldType.isMap_moved (type : FieldType) : (type.moved move).isMap = type.isMap := by
  induction type with
  | scalar | named | map => rfl

/-- The place of a map is written down with it, so no name is asked for a part. -/
theorem FieldType.span_moved_of_isMap {type : FieldType} (isMap : type.isMap) :
    (type.moved move).span = type.span.moved move := by
  induction type with
  | scalar | named => cases isMap
  | map => rfl

/-- A fault at the type of each field that is a map. -/
theorem mapFaults_moved (cause : SemanticCause) (place : ∀ change, cause.mapSpan change = cause)
    (field : Field) :
    (if (field.moved move).type.isMap then [(⟨cause, (field.moved move).type.span⟩ : SemanticFault)]
      else []) =
    (if field.type.isMap then [(⟨cause, field.type.span⟩ : SemanticFault)] else []).map
      (SemanticFault.moved move) := by
  change (if (field.type.moved move).isMap then
    [(⟨cause, (field.type.moved move).span⟩ : SemanticFault)] else []) = _
  rw [FieldType.isMap_moved]
  split
  · next isMap =>
    rw [FieldType.span_moved_of_isMap isMap, List.map_singleton, SemanticFault.moved, SemanticFault.mapSpan, place]
  · rfl

theorem TypeName.namesOptions_moved (name : TypeName) :
    (name.moved move).namesOptions = name.namesOptions := by
  rw [namesOptions, namesOptions, moved, DottedName.text_moved]

/-- What is wrong with an extension block is said at the new places. -/
theorem Extension.faults_moved {extension : Extension} (edition : Option Edition)
    (some : extension.extendee.path.parts ≠ []) :
    (extension.moved move).faults edition =
      (extension.faults edition).map (SemanticFault.moved move) := by
  have extendee : (extension.moved move).extendeeFaults edition =
      (extension.extendeeFaults edition).map (SemanticFault.moved move) := by
    change (if edition = Option.some .proto3 ∧ (!extension.extendsOptions) = true then
      [(⟨.badExtendee (extension.extendee.moved move).text,
        (extension.extendee.moved move).span⟩ : SemanticFault)] else []) = _
    rw [TypeName.span_moved some, TypeName.text_moved, extendeeFaults]
    split <;> rfl
  rw [faults, faults, List.map_append, ← extendee]
  congr 1
  exact faultsEach_moved extension.fields fun field _ =>
    mapFaults_moved .mapInExtension (fun _ => rfl) field

/-! ### Oneofs -/

/-- A field, next to its number, moved on. -/
def NumberedField.moved (move : Move) (numbered : NumberedField) : NumberedField :=
  { numbered with field := numbered.field.moved move }

theorem NumberedField.ofFields_moved (fields : List Field) :
    (fields.map (Field.moved move)).filterMap ofField? =
      (fields.filterMap ofField?).map (moved move) := by
  rw [List.filterMap_map, List.map_filterMap]
  refine List.filterMap_congr fun field _ => ?_
  rw [Function.comp_apply, ofField?, ofField?, Option.map_map]
  rfl

/-- A fault at the label of a field, if it has one. -/
theorem labelFaults_moved (cause : SemanticCause) (place : ∀ change, cause.mapSpan change = cause)
    (field : Field) :
    (field.moved move).labelSpan.toList.map (fun span => (⟨cause, span⟩ : SemanticFault)) =
      (field.labelSpan.toList.map fun span => ⟨cause, span⟩).map (SemanticFault.moved move) := by
  change (field.labelSpan.map (Span.moved move)).toList.map _ = _
  cases field.labelSpan with
  | none => rfl
  | some span =>
    rw [Option.map_some, Option.toList_some, Option.toList_some, List.map_singleton,
      List.map_singleton, List.map_singleton, SemanticFault.moved, SemanticFault.mapSpan, place]

/-- The names of fields move with the fields. -/
theorem names_moved (fields : List Field) :
    (fields.map (Field.moved move)).map (·.name) = (fields.map (·.name)).map (Name.moved move) := by
  rw [List.map_map, List.map_map]
  rfl

/-- What is wrong with a oneof is said at the new places. -/
theorem Oneof.faults_moved (oneof : Oneof) :
    (oneof.moved move).faults = oneof.faults.map (SemanticFault.moved move) := by
  have empty : (if (oneof.moved move).fields.isEmpty then
      [(⟨.emptyOneof, (oneof.moved move).name.span⟩ : SemanticFault)] else []) =
      (if oneof.fields.isEmpty then [(⟨.emptyOneof, oneof.name.span⟩ : SemanticFault)]
        else []).map (SemanticFault.moved move) := by
    change (if (oneof.fields.map (Field.moved move)).isEmpty then _ else _) = _
    rw [List.isEmpty_map]
    split <;> rfl
  have members : (oneof.fields.map (Field.moved move)).flatMap memberFaults =
      (oneof.fields.flatMap memberFaults).map (SemanticFault.moved move) := by
    refine faultsEach_moved _ fun field _ => ?_
    rw [memberFaults, memberFaults, List.map_append, ← labelFaults_moved .labelInOneof fun _ => rfl,
      ← mapFaults_moved .mapInOneof fun _ => rfl]
  have numbers : (clashes NumberedField.number
      ((oneof.fields.map (Field.moved move)).filterMap NumberedField.ofField?)).map
        (fun pair => pair.1.repeatedNumber pair.2) =
      ((clashes NumberedField.number (oneof.fields.filterMap NumberedField.ofField?)).map
        fun pair => pair.1.repeatedNumber pair.2).map (SemanticFault.moved move) := by
    rw [NumberedField.ofFields_moved]
    exact clashFaults_moved _ (fun _ => rfl) fun _ => rfl
  simp only [faults, List.map_append]
  rw [empty, ← members, ← numbers, ← repeatedNames_moved, ← names_moved]
  rfl

/-! ### Messages -/

/-- Moves keep the order of fields. -/
theorem Message.fieldsInOrder_moved (message : Message) :
    (message.moved move).fieldsInOrder = message.fieldsInOrder.map (Field.moved move) := by
  have all : (message.moved move).allFields = message.allFields.map (Field.moved move) := by
    rw [moved_eq, allFields, allFields, List.map_append, List.map_flatMap, List.flatMap_map]
    rfl
  rw [fieldsInOrder, fieldsInOrder, all]
  refine (List.map_mergeSort fun left _ right _ => ?_).symm
  exact decide_eq_decide.mpr Move.start_le_iff.symm

namespace Message

theorem name_moved (message : Message) : (message.moved move).name = message.name.moved move := by
  rw [moved_eq]

/-- The names of messages and enums clash where they did before. -/
theorem nestedNameFaults_moved (message : Message) :
    (message.moved move).nestedNameFaults =
      message.nestedNameFaults.map (SemanticFault.moved move) := by
  rw [nestedNameFaults, nestedNameFaults, ← repeatedNames_moved, moved_eq]
  simp only [List.map_append, List.map_map, Function.comp_def, name_moved]
  rfl

theorem fieldNameFaults_moved (message : Message) :
    (message.moved move).fieldNameFaults =
      message.fieldNameFaults.map (SemanticFault.moved move) := by
  rw [fieldNameFaults, fieldNameFaults, fieldsInOrder_moved]
  exact filteredFaults_moved _ (fun _ => rfl) (fun _ => rfl) fun _ => rfl

/-- Numbers of fields clash where they did before. -/
theorem fieldNumberFaults_moved (message : Message) :
    (message.moved move).fieldNumberFaults =
      message.fieldNumberFaults.map (SemanticFault.moved move) := by
  rw [fieldNumberFaults, fieldNumberFaults, fieldsInOrder_moved, NumberedField.ofFields_moved]
  exact filteredFaults_moved _ (fun _ => rfl) (fun _ => rfl) fun _ => rfl

theorem mapLabelFaults_moved (message : Message) :
    (message.moved move).mapLabelFaults =
      message.mapLabelFaults.map (SemanticFault.moved move) := by
  rw [mapLabelFaults, mapLabelFaults, fieldsInOrder_moved]
  refine faultsEach_moved _ fun field _ => ?_
  rw [labelFaults_moved .labelOnMap fun _ => rfl]
  change (if ((field.type.moved move).isMap && field.oneof.isNone) = true then _ else _) = _
  rw [FieldType.isMap_moved]
  split <;> rfl

theorem oneofNameFaults_moved (message : Message) :
    (message.moved move).oneofNameFaults =
      message.oneofNameFaults.map (SemanticFault.moved move) := by
  have oneofs : (message.moved move).oneofs = message.oneofs.map (Oneof.moved move) := by
    rw [moved_eq]
  rw [oneofNameFaults, oneofNameFaults, fieldsInOrder_moved, oneofs]
  refine faultsEach_moved _ fun oneof _ => ?_
  rw [List.find?_map, Option.map_map]
  change (Option.map _ (message.fieldsInOrder.find?
    fun field => decide (field.name.text = oneof.name.text))).toList = _
  cases message.fieldsInOrder.find? fun field => decide (field.name.text = oneof.name.text) <;> rfl

/-- Ranges are as wrong as before. -/
theorem rangeFaults_moved (message : Message) :
    (message.moved move).rangeFaults = message.rangeFaults.map (SemanticFault.moved move) := by
  have declared : (message.extensionRanges.map (ExtensionRanges.moved move)).flatMap
      ExtensionRanges.declared =
      (message.extensionRanges.flatMap ExtensionRanges.declared).map (DeclaredRange.moved move) := by
    rw [List.flatMap_map, List.map_flatMap]
    refine List.flatMap_congr fun extensions _ => ?_
    rw [ExtensionRanges.declared, ExtensionRanges.declared, List.map_map]
    exact List.map_map
  rw [rangeFaults, rangeFaults, List.map_append, ← DeclaredRange.faults_moved,
    ← DeclaredRange.faults_moved, ← Reserved.ranges_moved, ← declared, moved_eq]

theorem reservedFaults_moved (message : Message) :
    (message.moved move).reservedFaults =
      message.reservedFaults.map (SemanticFault.moved move) := by
  have reserved : (message.moved move).reserved = message.reserved.map (Reserved.moved move) := by
    rw [moved_eq]
  rw [reservedFaults, reservedFaults, fieldsInOrder_moved, reserved]
  exact faultsEach_moved _ fun field _ =>
    reservationFaults_moved message.reserved .field field.number field.name

/-- What is wrong with a message is said at the new places. -/
theorem faults_moved (message : Message) :
    (message.moved move).faults = message.faults.map (SemanticFault.moved move) := by
  rw [faults, name_moved, typeNameFaults_moved, nestedNameFaults_moved, fieldNameFaults_moved,
    fieldNumberFaults_moved, mapLabelFaults_moved, oneofNameFaults_moved, rangeFaults_moved,
    reservedFaults_moved, faults]
  simp only [List.map_append]

end Message

/-! ### Files -/

namespace Definition

/-- A definition whose name is moved on. -/
def moved (move : Move) (definition : Definition) : Definition :=
  { definition with span := definition.span.moved move }

/-- The parts of a package are defined from its start on, which is moved as well. -/
theorem ofParts_moved (start : Nat) (scope : String) (parts : List Name) :
    ofParts (move.start start) scope (parts.map (Name.moved move)) =
      (ofParts start scope parts).map (moved move) := by
  induction parts generalizing scope with
  | nil => rfl
  | cons part rest inductionHypothesis =>
    rw [List.map_cons, ofParts, ofParts, List.map_cons, ← inductionHypothesis]
    rfl

theorem ofPackage_moved (package : Package) :
    ofPackage (package.moved move) = (ofPackage package).map (moved move) := by
  rw [ofPackage, ofPackage]
  by_cases some : package.name.parts = []
  · obtain ⟨⟨parts⟩, comments, span⟩ := package
    obtain rfl : parts = [] := some
    rfl
  · have start : (package.moved move).name.span.start = move.start package.name.span.start :=
      congrArg Span.start (DottedName.span_moved some)
    rw [start]
    exact ofParts_moved _ _ _

theorem ofEnum_moved (scope : String) (nested : Bool) (enumeration : Enumeration) :
    ofEnum scope nested (enumeration.moved move) =
      (ofEnum scope nested enumeration).map (moved move) := by
  rw [ofEnum, ofEnum, List.map_cons, List.map_map, Enumeration.moved, List.map_map]
  rfl

theorem ofService_moved (scope : String) (service : Service) :
    ofService scope (service.moved move) = (ofService scope service).map (moved move) := by
  rw [ofService, ofService, List.map_cons, List.map_map, Service.moved, List.map_map]
  rfl

/-- The definitions in a message are the same, at their new places. -/
theorem ofMessage_moved (message : Message) (scope : String) (nested : Bool) :
    ofMessage scope nested (message.moved move) =
      (ofMessage scope nested message).map (moved move) := by
  induction message using Message.induction generalizing scope nested with
  | step message inductionHypothesis =>
    rw [ofMessage_eq, ofMessage_eq, Message.moved_eq]
    simp only [List.map_cons, List.map_append, List.map_flatMap, List.flatMap_map, ofEnum_moved]
    have inner : message.messages.flatMap (fun inner =>
        ofMessage (qualify scope message.name.text) true (inner.moved move)) =
        message.messages.flatMap fun inner =>
          (ofMessage (qualify scope message.name.text) true inner).map (moved move) :=
      List.flatMap_congr fun inner member => inductionHypothesis inner member _ _
    rw [← inner]
    rfl

end Definition

namespace File

theorem scope_moved (file : File) : (file.moved move).scope = file.scope := by
  obtain ⟨edition, declared, package, imports, options, messages, enums, services, extensions⟩ := file
  cases package with
  | none => rfl
  | some package => exact List.foldl_map

/-- The definitions in a file are the same, at their new places. -/
theorem definitions_moved (file : File) :
    (file.moved move).definitions = file.definitions.map (Definition.moved move) := by
  rw [definitions, definitions, scope_moved]
  simp only [List.map_append, List.map_flatMap, Definition.ofMessages_eq,
    ← Definition.ofPackage_moved, ← Definition.ofMessage_moved, ← Definition.ofEnum_moved,
    ← Definition.ofService_moved, File.moved, List.flatMap_map]
  cases file.package <;> rfl

/-- What is wrong with a file, its declarations apart, is said at the new places. -/
theorem faults_moved (file : File) :
    (file.moved move).faults = file.faults.map (SemanticFault.moved move) := by
  have imports : (file.moved move).importFaults =
      file.importFaults.map (SemanticFault.moved move) := by
    have repeated : (clashes (·.path.text) (file.imports.map (Import.moved move))).map
        (fun pair => (⟨.repeatedImport pair.2.path.text pair.1.span, pair.2.span⟩ :
          SemanticFault)) =
        ((clashes (·.path.text) file.imports).map fun pair =>
          (⟨.repeatedImport pair.2.path.text pair.1.span, pair.2.span⟩ : SemanticFault)).map
            (SemanticFault.moved move) := clashFaults_moved _ (fun _ => rfl) fun _ => rfl
    rw [importFaults, importFaults, List.map_append, ← repeated]
    congr 1
    refine faultsEach_moved file.imports fun entry _ => ?_
    change (if isImportPath entry.path.text = true then _ else _) = _
    split <;> rfl
  have package : (file.moved move).packageFaults =
      file.packageFaults.map (SemanticFault.moved move) := by
    have text (package : Package) : (package.moved move).name.text = package.name.text :=
      package.name.text_moved
    have packages : (file.moved move).package.toList =
        file.package.toList.map (Package.moved move) := by
      cases found : file.package <;> simp [moved, found]
    rw [packageFaults, packageFaults, packages]
    refine faultsEach_moved _ fun package _ => faultsEach_moved package.name.parts fun part _ => ?_
    rw [text]
    change (if isIdentifier part.text = true then _ else _) = _
    split <;> rfl
  have definitions : (file.moved move).definitionFaults =
      file.definitionFaults.map (SemanticFault.moved move) := by
    rw [definitionFaults, definitionFaults, definitions_moved]
    exact filteredFaults_moved _ (fun _ => rfl) (fun _ => rfl) fun _ => rfl
  rw [faults, faults, imports, package, definitions, List.map_append, List.map_append]

end File

end ProtoSchema
