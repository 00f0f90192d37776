/-
This file says of what kinds the faults are that each check finds, whatever the
names, numbers and places in them: where faults of one kind are looked for, all
checks that find none of it can be left out. The uses of reserved numbers are found
by one check alone. So each use is reported once, and just in case a legal range
contains the number.
-/

import ProtoSchema.Proofs.Layout.Findings
import ProtoSchema.Proofs.Validation.Numbers

namespace ProtoSchema

/-- All faults are of these kinds. -/
def OfKinds (kinds : List SemanticCause) (faults : List SemanticFault) : Prop :=
  ∀ fault ∈ faults, fault.cause.kind ∈ kinds

namespace OfKinds

variable {kinds others : List SemanticCause} {faults more : List SemanticFault} {Entry : Type}

theorem nil : OfKinds kinds [] := List.forall_mem_nil _

theorem singleton {cause : SemanticCause} {span : Span} (member : cause.kind ∈ kinds) :
    OfKinds kinds [⟨cause, span⟩] :=
  List.forall_mem_singleton.mpr member

theorem mono (ofKinds : OfKinds kinds faults) (subset : kinds ⊆ others) : OfKinds others faults :=
  fun fault member => subset (ofKinds fault member)

theorem append (first : OfKinds kinds faults) (second : OfKinds others more) :
    OfKinds (kinds ++ others) (faults ++ more) :=
  List.forall_mem_append.mpr ⟨first.mono (List.subset_append_left _ _),
    second.mono (List.subset_append_right _ _)⟩

theorem map {entries : List Entry} {fault : Entry → SemanticFault}
    (each : ∀ entry, (fault entry).cause.kind ∈ kinds) : OfKinds kinds (entries.map fault) :=
  List.forall_mem_map.mpr fun entry _ => each entry

theorem flatMap {entries : List Entry} {faultsOf : Entry → List SemanticFault}
    (each : ∀ entry, OfKinds kinds (faultsOf entry)) : OfKinds kinds (entries.flatMap faultsOf) :=
  List.forall_mem_flatMap.mpr fun entry _ => each entry

/-- A check that finds at most one fault. -/
theorem ite {condition : Prop} [Decidable condition] (first : OfKinds kinds faults)
    (second : OfKinds kinds more) : OfKinds kinds (if condition then faults else more) := by
  split
  · exact first
  · exact second

end OfKinds

/-! ### Checks -/

theorem ofKinds_typeNameFaults (kind : TypeLike) (name : Name) :
    OfKinds [.badTypeName kind ""] (typeNameFaults kind name) :=
  .ite .nil (.singleton List.mem_cons_self)

theorem ofKinds_repeatedNames (names : List Name) :
    OfKinds [.repeatedName "" default] (repeatedNames names) :=
  .map fun _ => List.mem_cons_self

theorem RangeKind.kind_outside (kind : RangeKind) (span : Span) :
    (kind.outside span).cause.kind = (kind.outside default).cause := by
  cases kind <;> rfl

theorem Range.FaultyAs.kind_mem {kind : RangeKind} {range : Range} {declaration : Span}
    {fault : SemanticFault} (faulty : range.FaultyAs kind declaration fault) :
    fault.cause.kind ∈ [.reversedRange 0 0, (kind.outside default).cause] := by
  cases faulty with
  | reversed _ _ => exact List.mem_cons_self
  | first _ | last _ _ _ | beyond _ _ _ =>
    rw [kind.kind_outside]
    exact List.mem_cons_of_mem _ List.mem_cons_self

theorem ofKinds_rangeFaults (kind : RangeKind) (ranges : List DeclaredRange) :
    OfKinds [.reversedRange 0 0, (kind.outside default).cause]
      (DeclaredRange.faults kind ranges) := by
  have all {ranges : List DeclaredRange} {found : List SemanticFault}
      (faulty : List.Forall₂ (fun declared : DeclaredRange =>
        declared.range.FaultyAs kind declared.declaration) ranges found) :
      OfKinds [.reversedRange 0 0, (kind.outside default).cause] found := by
    induction faulty with
    | nil => exact .nil
    | cons first _ inductionHypothesis =>
      exact List.forall_mem_cons.mpr ⟨first.kind_mem, inductionHypothesis⟩
  exact all (DeclaredRange.forall₂_faults kind ranges)

theorem ofKinds_reservationFaults (reserved : List Reserved) (kind : RangeKind)
    (number : IntLiteral) (name : Name) :
    OfKinds [.reservedNumberUsed 0 default, .reservedNameUsed "" default]
      (reservationFaults reserved kind number name) := by
  refine List.forall_mem_append.mpr ⟨fun fault member => ?_, fun fault member => ?_⟩
  · obtain ⟨_, -, found⟩ := Option.bind_eq_some_iff.mp (Option.mem_toList.mp member)
    obtain ⟨_, -, found⟩ := Option.bind_eq_some_iff.mp found
    obtain rfl := Option.some.inj found
    exact List.mem_cons_self
  · obtain ⟨_, -, rfl⟩ := Option.map_eq_some_iff.mp (Option.mem_toList.mp member)
    exact List.mem_cons_of_mem _ List.mem_cons_self

theorem Oneof.ofKinds_faults (oneof : Oneof) :
    OfKinds [.emptyOneof, .labelInOneof, .mapInOneof, .repeatedName "" default,
      .repeatedFieldNumber 0 default] oneof.faults := by
  have members (field : Field) : OfKinds ([.labelInOneof] ++ [.mapInOneof]) (memberFaults field) :=
    .append (.map fun _ => List.mem_cons_self) (.ite (.singleton List.mem_cons_self) .nil)
  have some : OfKinds [.emptyOneof] (if oneof.fields.isEmpty then
      [(⟨.emptyOneof, oneof.name.span⟩ : SemanticFault)] else []) :=
    .ite (.singleton List.mem_cons_self) .nil
  exact ((some.append (.flatMap members)).append (ofKinds_repeatedNames _)).append
    (.map fun _ => List.mem_cons_self)

/-- The checks of a message that come before that of what is reserved. -/
theorem Message.exists_faults_eq (message : Message) :
    ∃ others, message.faults = others ++ message.reservedFaults ∧
      OfKinds [.badTypeName .message "", .repeatedName "" default, .repeatedFieldNumber 0 default,
        .labelOnMap, .reversedRange 0 0, .fieldNumberOutOfRange] others := by
  have labels : OfKinds [.labelOnMap] message.mapLabelFaults :=
    .flatMap fun _ => .ite (.map fun _ => List.mem_cons_self) .nil
  have oneofs : OfKinds [.repeatedName "" default] message.oneofNameFaults := by
    refine .flatMap fun oneof fault member => ?_
    obtain ⟨_, -, rfl⟩ := Option.map_eq_some_iff.mp (Option.mem_toList.mp member)
    exact List.mem_cons_self
  have names := (ofKinds_typeNameFaults .message message.name).append
    (ofKinds_repeatedNames (message.messages.map (·.name) ++ message.enums.map (·.name)))
  have ranges := (ofKinds_rangeFaults .field (message.reserved.flatMap Reserved.ranges)).append
    (ofKinds_rangeFaults .field (message.extensionRanges.flatMap ExtensionRanges.declared))
  have fieldNames : OfKinds [.repeatedName "" default] message.fieldNameFaults :=
    .map fun _ => List.mem_cons_self
  have fieldNumbers : OfKinds [.repeatedFieldNumber 0 default] message.fieldNumberFaults :=
    .map fun _ => List.mem_cons_self
  refine ⟨_, rfl, OfKinds.mono (((((names.append fieldNames).append fieldNumbers).append
    labels).append oneofs).append ranges) ?_⟩
  decide

/-- The checks of an enum that come before those of what its values use. -/
theorem Enumeration.exists_faults_eq (enumeration : Enumeration) :
    ∃ others, enumeration.faults = others ++ (enumeration.values.flatMap fun value =>
        reservationFaults enumeration.reserved .enumValue value.number value.name) ∧
      OfKinds [.badTypeName .enumeration "", .emptyEnum, .firstEnumValueNotZero,
        .badTypeName .enumValue "", .repeatedName "" default, .repeatedEnumNumber 0 default,
        .reversedRange 0 0, .enumNumberOutOfRange] others := by
  have first : OfKinds [.emptyEnum, .firstEnumValueNotZero] enumeration.firstValueFaults := by
    rw [firstValueFaults]
    split
    · exact .singleton List.mem_cons_self
    · exact .ite .nil (.singleton (List.mem_cons_of_mem _ List.mem_cons_self))
  have names : OfKinds ([.badTypeName .enumValue ""] ++ [.repeatedName "" default])
      enumeration.valueNameFaults :=
    .append (.flatMap fun _ => ofKinds_typeNameFaults _ _) (ofKinds_repeatedNames _)
  have numbers : OfKinds [.repeatedEnumNumber 0 default] enumeration.valueNumberFaults :=
    .ite .nil (.map fun _ => List.mem_cons_self)
  have ranges := ofKinds_rangeFaults .enumValue (enumeration.reserved.flatMap Reserved.ranges)
  exact ⟨_, (List.append_assoc ..).symm,
    ((((ofKinds_typeNameFaults _ _).append first).append names).append numbers).append ranges⟩

theorem Service.ofKinds_faults (service : Service) :
    OfKinds [.badTypeName .service "", .badTypeName .method "", .badMethodType "",
      .repeatedName "" default] service.faults := by
  have types (method : Method) : OfKinds [.badMethodType ""] method.typeFaults :=
    .flatMap fun _ => .ite .nil (.singleton List.mem_cons_self)
  have methods : OfKinds [.badTypeName .method "", .badMethodType ""]
      (service.methods.flatMap fun method =>
        typeNameFaults .method method.name ++ method.typeFaults) :=
    .flatMap fun method => (ofKinds_typeNameFaults _ _).append (types method)
  exact ((ofKinds_typeNameFaults _ _).append methods).append (ofKinds_repeatedNames _)

theorem Extension.ofKinds_faults (edition : Option Edition) (extension : Extension) :
    OfKinds [.badExtendee "", .mapInExtension] (extension.faults edition) := by
  have extendee : OfKinds [.badExtendee ""] (extendeeFaults edition extension) :=
    .ite (.singleton List.mem_cons_self) .nil
  exact extendee.append (.flatMap fun _ => .ite (.singleton List.mem_cons_self) .nil)

theorem File.ofKinds_faults (file : File) :
    OfKinds [.badImportPath, .repeatedImport "" default, .badPackageName "",
      .repeatedName "" default] file.faults := by
  have imports : OfKinds ([.badImportPath] ++ [.repeatedImport "" default]) file.importFaults :=
    .append (.flatMap fun _ => .ite .nil (.singleton List.mem_cons_self))
      (.map fun _ => List.mem_cons_self)
  have package : OfKinds [.badPackageName ""] file.packageFaults :=
    .flatMap fun _ => .flatMap fun _ => .ite .nil (.singleton List.mem_cons_self)
  have definitions : OfKinds [.repeatedName "" default] file.definitionFaults :=
    .map fun _ => List.mem_cons_self
  exact (imports.append package).append definitions

/-! ### Uses -/

/-- Whether a fault is that a number is used that is reserved. -/
def SemanticFault.usesReservedNumber (fault : SemanticFault) : Bool :=
  match fault.cause with
  | .reservedNumberUsed _ _ => true
  | _ => false

/-- The fault of a use of a number that is reserved. -/
def reservedUse? (kind : RangeKind) (reserved : List Reserved) (number : IntLiteral) :
    Option SemanticFault :=
  (DeclaredRange.holding? kind (reserved.flatMap Reserved.ranges) number.value).map fun declared =>
    ⟨.reservedNumberUsed number.value declared.range.span, number.span⟩

theorem filter_reservationFaults (kind : RangeKind) (reserved : List Reserved)
    (number : IntLiteral) (name : Name) :
    (reservationFaults reserved kind number name).filter SemanticFault.usesReservedNumber =
      (reservedUse? kind reserved number).toList := by
  have names : ((reservedName? reserved name.text).map fun span =>
      (⟨.reservedNameUsed name.text span, name.span⟩ : SemanticFault)).toList.filter
        SemanticFault.usesReservedNumber = [] := by
    cases reservedName? reserved name.text <;> rfl
  rw [reservationFaults, List.filter_append, names, List.append_nil, number.number?_eq,
    reservedUse?]
  cases found : DeclaredRange.holding? kind (reserved.flatMap Reserved.ranges) number.value with
  | none =>
    split
    · rw [Option.bind_eq_bind, Option.bind_some, DeclaredRange.reservedNumber?_eq, found]
      rfl
    · rfl
  | some declared =>
    rw [if_pos (DeclaredRange.fits_of_holding? found), Option.bind_eq_bind, Option.bind_some,
      DeclaredRange.reservedNumber?_eq, found]
    rfl

/-- Checks that find nothing of the kind find no use. -/
theorem OfKinds.filter_eq_nil {kinds : List SemanticCause} {faults : List SemanticFault}
    (ofKinds : OfKinds kinds faults) (absent : .reservedNumberUsed 0 default ∉ kinds) :
    faults.filter SemanticFault.usesReservedNumber = [] := by
  refine List.filter_eq_nil_iff.mpr fun fault member uses => absent ?_
  have kind := ofKinds fault member
  unfold SemanticFault.usesReservedNumber at uses
  split at uses
  · next cause => rwa [cause] at kind
  · cases uses

/-- A message says of its fields that they use reserved numbers, in order, and of nothing else. -/
theorem Message.filter_faults (message : Message) :
    message.faults.filter SemanticFault.usesReservedNumber =
      message.fieldsInOrder.filterMap fun field =>
        reservedUse? .field message.reserved field.number := by
  obtain ⟨others, eq, ofKinds⟩ := message.exists_faults_eq
  rw [eq, List.filter_append, ofKinds.filter_eq_nil (by decide), List.nil_append, reservedFaults,
    List.filter_flatMap, List.filterMap_eq_flatMap_toList]
  simp only [filter_reservationFaults]

/-- An enum says of its values that they use reserved numbers, in order, and of nothing else. -/
theorem Enumeration.filter_faults (enumeration : Enumeration) :
    enumeration.faults.filter SemanticFault.usesReservedNumber =
      enumeration.values.filterMap fun value =>
        reservedUse? .enumValue enumeration.reserved value.number := by
  obtain ⟨others, eq, ofKinds⟩ := enumeration.exists_faults_eq
  rw [eq, List.filter_append, ofKinds.filter_eq_nil (by decide), List.nil_append,
    List.filter_flatMap, List.filterMap_eq_flatMap_toList]
  simp only [filter_reservationFaults]

/-- Every declared range is accounted for in its place: the legal ones are kept with the numbers
that are written, and each other one has one fault. A number is looked up as the first legal range
that contains it. So each field of a message and each value of an enum is reported once if there is
such a range, and not at all if there is none. -/
theorem ranges_accounted (kind : RangeKind) (ranges : List DeclaredRange) :
    (DeclaredRange.intervals kind ranges =
      (ranges.filter fun declared => declared.range.Legal kind).map fun declared =>
        ⟨declared.range.first.value, declared.range.lastValue kind, declared.range.span⟩) ∧
    List.Forall₂ (fun declared => declared.range.FaultyAs kind declared.declaration)
      (ranges.filter fun declared => ¬ declared.range.Legal kind)
      (DeclaredRange.faults kind ranges) ∧
    (∀ number, reservedNumber? (DeclaredRange.intervals kind ranges) number =
      (ranges.find? fun declared =>
        declared.range.Legal kind ∧ declared.range.Contains kind number).map (·.range.span)) ∧
    (∀ message : Message, message.faults.filter SemanticFault.usesReservedNumber =
      message.fieldsInOrder.filterMap fun field =>
        reservedUse? .field message.reserved field.number) ∧
    (∀ oneof : Oneof, oneof.faults.filter SemanticFault.usesReservedNumber = []) ∧
    ∀ enumeration : Enumeration, enumeration.faults.filter SemanticFault.usesReservedNumber =
      enumeration.values.filterMap fun value =>
        reservedUse? .enumValue enumeration.reserved value.number :=
  ⟨DeclaredRange.intervals_eq kind ranges, DeclaredRange.forall₂_faults kind ranges,
    DeclaredRange.reservedNumber?_eq kind ranges, Message.filter_faults,
    fun oneof => oneof.ofKinds_faults.filter_eq_nil (by decide), Enumeration.filter_faults⟩

end ProtoSchema
