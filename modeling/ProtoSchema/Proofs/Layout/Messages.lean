/-
This file places messages and says what is found in them. The fields of a message
are compared in the order of the source, wherever they are declared, so that what
is found points back. Names of oneofs are compared with those of all fields, and
names of enums with those of all messages beside them: here what is found points
back unless the declarations stand in the other order.
-/

import Mathlib.Data.List.Pairwise
import ProtoSchema.Proofs.Diagnostic.Arrange
import ProtoSchema.Proofs.Layout.Groups

namespace ProtoSchema

open Outline (Placed Laid WellPlaced leaf)

variable {source : List Char} {stream lexemes : List Lexeme}

/-! ### Places in a message -/

/-- The places of what the check of a message looks at. -/
structure Message.Interior (source : List Char) (message : Message) : Prop where
  ordered : message.span.start ≤ message.span.stop
  name : message.name.span.Between message.span.start message.span.stop
  fields : ∀ field ∈ message.allFields, field.span.Between message.span.start message.span.stop
  fieldsApart : message.allFields.Pairwise fun first second => first.span.Apart second.span
  inFields : ∀ field ∈ message.allFields, field.Interior
  oneofs : ∀ oneof ∈ message.oneofs,
    oneof.name.span.Between message.span.start message.span.stop
  oneofsApart : ∀ field ∈ message.allFields, ∀ oneof ∈ message.oneofs,
    field.name.span.Apart oneof.name.span
  messages : ∀ inner ∈ message.messages, inner.outline.WellPlaced source ∧
    inner.span.Between message.span.start message.span.stop
  messagesInOrder : message.messages.Pairwise fun first second =>
    first.span.stop ≤ second.span.start
  enums : ∀ enumeration ∈ message.enums, enumeration.outline.WellPlaced source ∧
    enumeration.span.Between message.span.start message.span.stop
  enumsInOrder : message.enums.Pairwise fun first second => first.span.stop ≤ second.span.start
  enumsApart : ∀ inner ∈ message.messages, ∀ enumeration ∈ message.enums,
    inner.span.Apart enumeration.span
  behindName : (∀ inner ∈ message.messages, message.name.span.stop ≤ inner.span.start) ∧
    ∀ enumeration ∈ message.enums, message.name.span.stop ≤ enumeration.span.start
  reserved : ∀ entry ∈ message.reserved, PlacedRanges source entry.span entry.ranges ∧
    entry.span.Between message.span.start message.span.stop
  reservedInOrder : message.reserved.Pairwise fun first second =>
    first.span.stop ≤ second.span.start
  extensions : ∀ entry ∈ message.extensionRanges,
    PlacedRanges source entry.span entry.declared ∧
      entry.span.Between message.span.start message.span.stop
  extensionsInOrder : message.extensionRanges.Pairwise fun first second =>
    first.span.stop ≤ second.span.start
  reservedApart : ∀ entry ∈ message.reserved, ∀ other ∈ message.extensionRanges,
    entry.span.Apart other.span

/-- The name of neither oneof overlaps that of a member of the other. -/
def Oneof.NamesApart (first second : Oneof) : Prop :=
  (∀ field ∈ first.fields, field.name.span.Apart second.name.span) ∧
    ∀ field ∈ second.fields, field.name.span.Apart first.name.span

instance : Std.Symm Oneof.NamesApart := ⟨fun _ _ => And.symm⟩

/-- In a oneof the name comes before the members. -/
theorem Oneof.namesApart_of_inOrder {oneofs : List Oneof}
    (interior : ∀ oneof ∈ oneofs, oneof.Interior)
    (inOrder : oneofs.Pairwise fun first second => first.span.stop ≤ second.span.start) :
    ∀ oneof ∈ oneofs, ∀ other ∈ oneofs, oneof.NamesApart other := by
  have across : ∀ first ∈ oneofs, ∀ second ∈ oneofs, first.span.Apart second.span →
      ∀ field ∈ first.fields, field.name.span.Apart second.name.span :=
    fun first member second secondMember apart field fieldMember => by
      have whole := (interior first member).fields field fieldMember
      have name := ((interior first member).inFields field fieldMember).name
      exact apart.within (name.widen whole.1 whole.2.2) (interior second secondMember).name
  refine fun oneof member other otherMember => List.Pairwise.forall_of_forall
    (fun oneof member => ?_)
    (inOrder.imp_of_mem fun {first second} firstMember secondMember ahead => ?_) member otherMember
  · have inside := interior oneof member
    have behind : ∀ field ∈ oneof.fields, field.name.span.Apart oneof.name.span :=
      fun field fieldMember => .inr (Nat.le_trans (inside.behindName field fieldMember)
        (inside.inFields field fieldMember).name.1)
    exact ⟨behind, behind⟩
  · exact ⟨across first firstMember second secondMember (.inl ahead),
      across second secondMember first firstMember (.inr ahead)⟩

namespace Message

variable {message : Message}

/-- The fields of a message stand in it, and so do those of its oneofs. -/
theorem fields_of_laid {start stop : Nat} (members : Laid source start stop message.members) :
    (∀ field ∈ message.allFields, field.Interior ∧ field.span.Between start stop) ∧
    message.allFields.Pairwise (fun first second => first.span.Apart second.span) ∧
    ∀ field ∈ message.allFields, ∀ oneof ∈ message.oneofs,
      field.name.span.Apart oneof.name.span := by
  obtain ⟨fields, fieldsInOrder⟩ := members.entries
    (show message.fields.map Field.outline ∈ message.members from List.mem_cons_self)
  obtain ⟨oneofs, oneofsInOrder⟩ := members.entries
    (show message.oneofs.map Oneof.outline ∈ message.members from
      List.mem_cons_of_mem _ List.mem_cons_self)
  have inOneofs : ∀ oneof ∈ message.oneofs, oneof.Interior := fun oneof member =>
    Oneof.Interior.of_placed (oneofs oneof member).1
  have apart : ∀ field ∈ message.fields, ∀ oneof ∈ message.oneofs, field.span.Apart oneof.span :=
    fun field member oneof oneofMember => members.across (Nat.zero_lt_one) rfl rfl _
      (List.mem_map_of_mem member) _ (List.mem_map_of_mem oneofMember)
  refine ⟨List.forall_mem_append.mpr ⟨fun field member => ?_, ?_⟩, List.pairwise_append.mpr
    ⟨fieldsInOrder.imp .inl, List.pairwise_flatMap.mpr ⟨fun oneof member => ?_, ?_⟩,
      fun field member => ?_⟩,
    List.forall_mem_append.mpr ⟨fun field member oneof oneofMember => ?_, ?_⟩⟩
  · exact ⟨Field.Interior.of_placed (fields field member).1, (fields field member).2⟩
  · refine List.forall_mem_flatMap.mpr fun oneof member field fieldMember => ?_
    have inside := inOneofs oneof member
    exact ⟨inside.inFields field fieldMember, (inside.fields field fieldMember).widen
      (oneofs oneof member).2.1 (oneofs oneof member).2.2.2⟩
  · exact (inOneofs oneof member).fieldsInOrder.imp .inl
  · refine oneofsInOrder.imp_of_mem fun {oneof other} member otherMember ahead
      field fieldMember another anotherMember => ?_
    exact Span.Apart.within (.inl ahead) ((inOneofs oneof member).fields field fieldMember)
      ((inOneofs other otherMember).fields another anotherMember)
  · refine List.forall_mem_flatMap.mpr fun oneof oneofMember other otherMember => ?_
    exact (apart field member oneof oneofMember).within (fields field member).2.whole
      ((inOneofs oneof oneofMember).fields other otherMember)
  · exact (apart field member oneof oneofMember).within
      (Field.Interior.of_placed (fields field member).1).name (inOneofs oneof oneofMember).name
  · refine List.forall_mem_flatMap.mpr fun oneof member field fieldMember other otherMember => ?_
    exact (Oneof.namesApart_of_inOrder inOneofs oneofsInOrder oneof member other otherMember).1
      field fieldMember

theorem Interior.of_placed (placed : message.outline.WellPlaced source) : message.Interior source := by
  have ordered := Nat.le_of_lt placed.some
  rw [span_outline] at ordered
  rw [outline_eq] at placed
  obtain ⟨middle, parts, members⟩ := placed.laid
  have name := parts.arranged.between _ List.mem_cons_self message.name.outline List.mem_cons_self
  have widen {span : Span} (inside : span.Between middle message.span.stop) :
      span.Between message.span.start message.span.stop :=
    inside.widen parts.arranged.ordered (Nat.le_refl _)
  obtain ⟨fields, fieldsApart, oneofsApart⟩ := fields_of_laid members
  obtain ⟨oneofs, -⟩ := members.entries
    (show message.oneofs.map Oneof.outline ∈ message.members by simp [Message.members])
  obtain ⟨messages, messagesInOrder⟩ := members.entries
    (show message.messages.map Message.outline ∈ message.members by simp [Message.members])
  obtain ⟨enums, enumsInOrder⟩ := members.entries
    (show message.enums.map Enumeration.outline ∈ message.members by simp [Message.members])
  obtain ⟨reserved, reservedInOrder⟩ := members.entries
    (show message.reserved.map Reserved.outline ∈ message.members by simp [Message.members])
  obtain ⟨extensions, extensionsInOrder⟩ := members.entries
    (show message.extensionRanges.map ExtensionRanges.outline ∈ message.members by
      simp [Message.members])
  simp only [span_outline] at messages messagesInOrder
  exact
    { ordered
      name := name.widen (Nat.le_refl _) members.arranged.ordered
      fields := fun field member => widen (fields field member).2
      fieldsApart
      inFields := fun field member => (fields field member).1
      oneofs := fun oneof member => (Oneof.Interior.of_placed (oneofs oneof member).1).name.widen
        (widen (oneofs oneof member).2).1 (widen (oneofs oneof member).2).2.2
      oneofsApart
      messages := fun inner member => ⟨(messages inner member).1, widen (messages inner member).2⟩
      messagesInOrder
      enums := fun enumeration member =>
        ⟨(enums enumeration member).1, widen (enums enumeration member).2⟩
      enumsInOrder
      enumsApart := fun inner member enumeration enumMember => by
        have apart := members.across (by decide : 2 < 3) rfl rfl _ (List.mem_map_of_mem member) _
          (List.mem_map_of_mem enumMember)
        rwa [span_outline] at apart
      behindName := ⟨fun inner member => Nat.le_trans name.2.2 (messages inner member).2.1,
        fun enumeration member => Nat.le_trans name.2.2 (enums enumeration member).2.1⟩
      reserved := fun entry member =>
        ⟨Reserved.placed_ranges (reserved entry member).1, widen (reserved entry member).2⟩
      reservedInOrder
      extensions := fun entry member =>
        ⟨ExtensionRanges.placed_declared (extensions entry member).1,
          widen (extensions entry member).2⟩
      extensionsInOrder
      reservedApart := fun entry member other otherMember =>
        (members.across (by decide : 5 < 7) rfl rfl _ (List.mem_map_of_mem otherMember) _
          (List.mem_map_of_mem member)).symm }

/-! ### Checks -/

/-- Faults of some kinds that a part of the check finds. -/
abbrev Finds (stream : List Lexeme) (message : Message) (kinds : List SemanticCause)
    (faults : List SemanticFault) : Prop :=
  Checks stream message.span.start message.span.stop (Shape.message.sites message) kinds faults

theorem field_site {field : Field} (member : field ∈ message.allFields) :
    (.body, field.span) ∈ Shape.message.sites message :=
  List.mem_cons_of_mem _ (List.mem_append_left _ (List.mem_append_left _
    (List.mem_map_of_mem member)))

/-- Sorting by the starts puts fields that do not overlap behind one another. -/
theorem pairwise_fieldsInOrder (interior : message.Interior source) :
    message.fieldsInOrder.Pairwise fun first second => first.span.stop ≤ second.span.start := by
  have sorted : message.fieldsInOrder.Pairwise
      fun left right => left.span.start ≤ right.span.start :=
    pairwise_mergeSort_start Field.span message.allFields
  have apart : message.fieldsInOrder.Pairwise fun first second => first.span.Apart second.span :=
    (message.fieldsInOrder_perm.pairwise_iff fun apart => apart.symm).mpr interior.fieldsApart
  refine (sorted.and apart).imp_of_mem fun {first second} firstMember secondMember both => ?_
  have order := both.1
  rcases both.2 with ahead | behind
  · exact ahead
  · have some := (interior.fields second (mem_fieldsInOrder.mp secondMember)).2.1
    omega

theorem checks_nestedNameFaults {depth : Nat} {path : MessagePath}
    (interior : message.Interior source)
    (read : (Parser.message depth path).ReadIn stream message) :
    message.Finds stream [.repeatedName "" default] message.nestedNameFaults := by
  have inMessages : ∀ inner ∈ message.messages,
      inner.name.span.Between inner.span.start inner.span.stop := fun inner member =>
    (Message.Interior.of_placed (interior.messages inner member).1).name
  have inEnums : ∀ enumeration ∈ message.enums,
      enumeration.name.span.Between enumeration.span.start enumeration.span.stop :=
    fun enumeration member => (Enumeration.Interior.of_placed (interior.enums enumeration member).1).name
  have before {first second : Name} {place other : Span}
      (here : first.span.Between place.start place.stop)
      (there : second.span.Between other.start other.stop) (ahead : place.stop ≤ other.start) :
      first.span.Before second.span.start :=
    ⟨here.2.1, Nat.le_trans here.2.2 (Nat.le_trans ahead there.1)⟩
  refine checks_repeatedNames interior.ordered (List.forall_mem_append.mpr
    ⟨List.forall_mem_map.mpr fun inner member => ?_,
      List.forall_mem_map.mpr fun enumeration member => ?_⟩)
    (List.pairwise_append.mpr ⟨List.pairwise_map.mpr (interior.messagesInOrder.imp_of_mem ?_),
      List.pairwise_map.mpr (interior.enumsInOrder.imp_of_mem ?_),
      List.forall_mem_map.mpr fun inner member => List.forall_mem_map.mpr
        fun enumeration enumMember => ?_⟩)
  · have whole := (interior.messages inner member).2
    exact (inMessages inner member).widen whole.1 whole.2.2
  · have whole := (interior.enums enumeration member).2
    exact (inEnums enumeration member).widen whole.1 whole.2.2
  · exact fun {first second} member secondMember ahead =>
      .inl (before (inMessages first member) (inMessages second secondMember) ahead)
  · exact fun {first second} member secondMember ahead =>
      .inl (before (inEnums first member) (inEnums second secondMember) ahead)
  · have here := inMessages inner member
    have there := inEnums enumeration enumMember
    rcases interior.enumsApart inner member enumeration enumMember with ahead | behind
    · exact .inl (before here there ahead)
    · exact .inr (.enum (.message read) member enumMember here there behind)

theorem checks_fieldNameFaults (interior : message.Interior source) :
    message.Finds stream [.repeatedName "" default] message.fieldNameFaults := by
  have between : ∀ field ∈ message.fieldsInOrder,
      field.span.Between message.span.start message.span.stop :=
    fun field member => interior.fields field (mem_fieldsInOrder.mp member)
  have inside : ∀ field ∈ message.fieldsInOrder,
      field.name.span.Between field.span.start field.span.stop :=
    fun field member => (interior.inFields field (mem_fieldsInOrder.mp member)).name
  exact .clashes (fun first second : Field => repeatedName first.name second.name) interior.ordered
    between inside (pairwise_fieldsInOrder interior) List.filter_sublist (fun _ _ => rfl)
    (fun _ _ => rfl) (fun _ _ => rfl) (.inl rfl)

theorem checks_fieldNumberFaults (interior : message.Interior source) :
    message.Finds stream [.repeatedFieldNumber 0 default] message.fieldNumberFaults := by
  have known : ∀ entry ∈ message.fieldsInOrder.filterMap NumberedField.ofField?,
      entry.field ∈ message.allFields := fun entry member =>
    mem_fieldsInOrder.mp (NumberedField.mem_of_mem member)
  have between : ∀ entry ∈ message.fieldsInOrder.filterMap NumberedField.ofField?,
      entry.field.span.Between message.span.start message.span.stop :=
    fun entry member => interior.fields entry.field (known entry member)
  have inside : ∀ entry ∈ message.fieldsInOrder.filterMap NumberedField.ofField?,
      entry.field.number.span.Between entry.field.span.start entry.field.span.stop :=
    fun entry member => (interior.inFields entry.field (known entry member)).number
  exact .clashes NumberedField.repeatedNumber interior.ordered between inside
    (NumberedField.inOrder (pairwise_fieldsInOrder interior)) List.filter_sublist (fun _ _ => rfl)
    (fun _ _ => rfl) (fun _ _ => rfl) (.inl rfl)

/-- What is found in each field by itself. -/
theorem checks_eachField {kinds : List SemanticCause} {faultsOf : Field → List SemanticFault}
    (interior : message.Interior source)
    (each : ∀ field ∈ message.allFields, field.Interior →
      Checks stream field.span.start field.span.stop (Shape.message.sites message) kinds
        (faultsOf field)) :
    message.Finds stream kinds (message.fieldsInOrder.flatMap faultsOf) :=
  .each interior.ordered (fun field member => interior.fields field (mem_fieldsInOrder.mp member))
    ((pairwise_fieldsInOrder interior).imp .inl) fun field member =>
      have known := mem_fieldsInOrder.mp member
      each field known (interior.inFields field known)

theorem checks_mapLabelFaults (interior : message.Interior source) :
    message.Finds stream [.labelOnMap] message.mapLabelFaults := by
  refine checks_eachField interior fun field member inside => ?_
  split
  · cases found : field.labelSpan with
    | none => exact .nil inside.name.ordered
    | some span =>
      exact .single (field_site member) (inside.label span found) rfl List.mem_cons_self
  · exact .nil inside.name.ordered

theorem checks_reservedFaults (interior : message.Interior source) :
    message.Finds stream [.reservedNumberUsed 0 default, .reservedNameUsed "" default]
      message.reservedFaults :=
  checks_eachField interior fun _ member inside =>
    checks_reservationFaults (field_site member) inside.number inside.name

/-- The name of a oneof and that of a field in the message: the field may be written later. -/
theorem checks_oneofNameFaults {depth : Nat} {path : MessagePath}
    (interior : message.Interior source)
    (read : (Parser.message depth path).ReadIn stream message) :
    message.Finds stream [.repeatedName "" default] message.oneofNameFaults := by
  refine .repeatable interior.ordered
    (List.forall_mem_flatMap.mpr fun oneof member fault found => ?_)
  obtain ⟨field, isField, rfl⟩ := Option.map_eq_some_iff.mp (Option.mem_toList.mp found)
  have fieldMember := mem_fieldsInOrder.mp (List.mem_of_find?_eq_some isField)
  have some := (interior.inFields field fieldMember).name.2.1
  refine ⟨rfl, List.mem_cons_self, interior.oneofs oneof member,
    SemanticFault.directed_repeatedName ?_⟩
  rcases interior.oneofsApart field fieldMember oneof member with ahead | behind
  · exact .inl ⟨some, ahead⟩
  · exact .inr (.oneof read fieldMember member rfl rfl behind)

theorem checks_rangeFaults (interior : message.Interior source) :
    message.Finds stream [.reversedRange 0 0, .fieldNumberOutOfRange] message.rangeFaults := by
  have reserved : ∀ declared ∈ message.reserved.flatMap Reserved.ranges,
      declared.Placed source ∧
        declared.declaration.Between message.span.start message.span.stop ∧
          (.number, declared.declaration) ∈ Shape.message.sites message := by
    refine List.forall_mem_flatMap.mpr fun entry member declared declaredMember => ?_
    obtain ⟨ranges, whole⟩ := interior.reserved entry member
    obtain ⟨inside, same⟩ := ranges.each declared declaredMember
    rw [same]
    exact ⟨inside, whole, List.mem_cons_of_mem _ (List.mem_append_left _
      (List.mem_append_right _ (List.mem_map_of_mem member)))⟩
  have extensions : ∀ declared ∈ message.extensionRanges.flatMap ExtensionRanges.declared,
      declared.Placed source ∧
        declared.declaration.Between message.span.start message.span.stop ∧
          (.number, declared.declaration) ∈ Shape.message.sites message := by
    refine List.forall_mem_flatMap.mpr fun entry member declared declaredMember => ?_
    obtain ⟨ranges, whole⟩ := interior.extensions entry member
    obtain ⟨inside, same⟩ := ranges.each declared declaredMember
    rw [same]
    exact ⟨inside, whole, List.mem_cons_of_mem _ (List.mem_append_right _
      (List.mem_map_of_mem member))⟩
  have across : ∀ declared ∈ message.reserved.flatMap Reserved.ranges,
      ∀ other ∈ message.extensionRanges.flatMap ExtensionRanges.declared,
        declared.range.span.Apart other.range.span := by
    refine List.forall_mem_flatMap.mpr fun entry member declared declaredMember =>
      List.forall_mem_flatMap.mpr fun other otherMember another anotherMember => ?_
    obtain ⟨here, same⟩ := (interior.reserved entry member).1.each declared declaredMember
    obtain ⟨there, otherSame⟩ :=
      (interior.extensions other otherMember).1.each another anotherMember
    exact (interior.reservedApart entry member other otherMember).within (same ▸ here.inside)
      (otherSame ▸ there.inside)
  rw [rangeFaults, DeclaredRange.faults, DeclaredRange.faults, ← List.filterMap_append]
  show Checks stream _ _ _ [.reversedRange 0 0, (RangeKind.field.outside default).cause] _
  refine DeclaredRange.checks_faults interior.ordered
    (List.forall_mem_append.mpr ⟨reserved, extensions⟩) (List.pairwise_append.mpr ⟨?_, ?_, across⟩)
  · exact PlacedRanges.apart_flatMap (fun entry member => (interior.reserved entry member).1)
      (interior.reservedInOrder.imp .inl)
  · exact PlacedRanges.apart_flatMap (fun entry member => (interior.extensions entry member).1)
      (interior.extensionsInOrder.imp .inl)

theorem checks_faults {depth : Nat} {path : MessagePath}
    (placed : message.outline.WellPlaced source)
    (read : (Parser.message depth path).ReadIn stream message) :
    message.Finds stream
      [.badTypeName .message "", .repeatedName "" default, .repeatedName "" default,
        .repeatedFieldNumber 0 default, .labelOnMap, .repeatedName "" default,
        .reversedRange 0 0, .fieldNumberOutOfRange, .reservedNumberUsed 0 default,
        .reservedNameUsed "" default] message.faults := by
  have inside := Interior.of_placed placed
  have name : message.Finds stream [.badTypeName .message ""]
      (typeNameFaults .message message.name) :=
    (checks_typeNameFaults List.mem_cons_self inside.name.whole).widen inside.name.1
      inside.name.2.2
  have names := (name.append (checks_nestedNameFaults inside read) (by decide)).append
    (checks_fieldNameFaults inside) (by decide)
  have fields := (names.append (checks_fieldNumberFaults inside) (by decide)).append
    (checks_mapLabelFaults inside) (by decide)
  exact ((fields.append (checks_oneofNameFaults inside read) (by decide)).append
    (checks_rangeFaults inside) (by decide)).append (checks_reservedFaults inside) (by decide)

end Message

/-! ### Parsing -/

namespace Parser

/-- The stages of what is found in messages. -/
abbrev messageStages : List Stage := [.repeatable, .number, .phrase, .group, .body]

/-- Nested messages have their places, wherever they stand. -/
def SurveysNested (source : List Char) (stream : List Lexeme)
    (nested : MessagePath → Parser Message) : Prop :=
  ∀ path lexemes, Surveys source stream (offset source lexemes) [] lexemes (nested path)
    fun found faults after => FromStages messageStages faults ∧
      Placed source (offset source lexemes) after found.outline

variable {nested : MessagePath → Parser Message} {path : MessagePath} {start first : Nat}
variable {parts : List Outline}

theorem upheld_messageMember (nestedSurveys : SurveysNested source stream nested) :
    Upheld source stream start (messageMember nested path)
      (Underway source messageStages first parts Shape.message) where
  later := fun later body => body.later later
  member := by
    intro state next parser found lexemes result body
    have fields : Surveys source stream start found lexemes
        (do return { state with fields := state.fields ++ (← field .message).toList })
        (Underway source messageStages first parts Shape.message) :=
      surveys_addField body (by decide) (by cases state; simp) 0 (fun _ => rfl)
        (by simp [Shape.message, Message.members]) .body (by decide)
        (by grind [Shape.message, Message.allFields])
    unfold messageMember at result
    split at result
    · split_ifs at result
      all_goals obtain rfl := Option.some.inj result
      · exact body.surveys_add (nestedSurveys _ lexemes) (by decide) 2 (fun _ => rfl)
          (by simp [Shape.message, Message.members]) none (by decide) fun _ _ _ known => .inl known
      · exact body.surveys_add surveys_enumeration (by decide) 3 (fun _ => rfl)
          (by simp [Shape.message, Message.members]) none (by decide) fun _ _ _ known => .inl known
      · refine body.surveys_add surveys_oneof (by decide) 1 (fun _ => rfl)
          (by simp [Shape.message, Message.members]) (some .body) (by decide)
          fun oneof placed => ?_
        have inside : ∀ field ∈ oneof.fields,
            oneof.span.start ≤ field.span.start ∧ field.span.stop ≤ oneof.span.stop :=
          fun field member =>
            have whole := (Oneof.Interior.of_placed placed).fields field member
            ⟨whole.1, whole.2.2⟩
        grind [Shape.message, Message.allFields]
      · exact body.surveys_add surveys_reserved (by decide) 7 (fun _ => rfl)
          (by simp [Shape.message, Message.members]) (some .number) (by decide)
          (by grind [Shape.message, Message.allFields])
      · exact body.surveys_add (places_extensionRanges.surveys []) (List.nil_subset _) 5
          (fun _ => rfl) (by simp [Shape.message, Message.members]) (some .number) (by decide)
          (by grind [Shape.message, Message.allFields])
      · exact body.surveys_add (places_optionStatement.surveys []) (List.nil_subset _) 6
          (fun _ => rfl) (by simp [Shape.message, Message.members]) none (by decide)
          fun _ _ _ known => .inl known
      · exact body.surveys_add surveys_extension (by decide) 4 (fun _ => rfl)
          (by simp [Shape.message, Message.members]) none (by decide) fun _ _ _ known => .inl known
      · exact fields
    · obtain rfl := Option.some.inj result
      exact fields
    · cases result

/-- The message without its check. -/
def uncheckedMessage (nested : MessagePath → Parser Message) (path : MessagePath) :
    Parser Message := do
  let comments ← leadingComments
  let start ← word "message"
  let name ← name
  let trailing ← openBrace
  let (read, stop) ← body (messageMember nested path)
    "a message field, oneof, reserved range, enum, message, option or '\x7d'"
    ⟨name, [], [], [], [], [], [], [], [], { comments with trailing }, start⟩
  return { read with span := start.through stop }

theorem message_eq_checked (depth : Nat) (path : MessagePath) :
    message (depth + 1) path = uncheckedMessage (message depth) path >>= fun message =>
      report message.faults >>= fun _ => pure message := by
  simp only [message, messageRest, uncheckedMessage, bind_assoc, pure_bind]

theorem surveys_message (depth : Nat) : SurveysNested source stream (message depth) := by
  induction depth with
  | zero => exact fun path lexemes => Surveys.places Places.expect_last fun _ _ _ _ => Surveys.stop
  | succ depth inductionHypothesis =>
    intro path lexemes
    refine Surveys.checked (message_eq_checked depth path)
      (Surveys.leadingComments fun comments => ?_)
    refine Surveys.places Places.expect_last fun start rest afterWord opened => ?_
    refine Surveys.places places_name fun name rest afterName named => ?_
    refine Surveys.places places_openBrace fun trailing rest afterBrace _ => ?_
    have opening : Underway source messageStages (offset source rest) [name.outline] Shape.message
        ⟨name, [], [], [], [], [], [], [], [], { comments with trailing }, start⟩ []
        (offset source rest) :=
      .opening rfl (by simp [Shape.message, Message.members])
        (List.forall_mem_singleton.mpr (Nat.le_trans named.between.2.2 afterBrace))
    refine (surveys_body (upheld_messageMember inductionHypothesis) opening).bind
      fun read faults rest _ known => Surveys.pure fun before isRead => ?_
    obtain ⟨read, stop⟩ := read
    obtain ⟨last, body, closed⟩ := known
    have placed : Placed source (offset source lexemes) (offset source rest)
        ({ read with span := start.through stop } : Message).outline := by
      rw [Message.outline_eq]
      exact body.enclose opened named.laid afterWord afterBrace closed
    have whole := placed.between
    rw [Message.span_outline] at whole
    have checks : Message.Finds stream _ _ _ := Message.checks_faults placed.wellPlaced isRead
    exact ⟨body.conclude before checks whole,
      (body.stages.mono (List.Subset.refl _)).append (checks.fromStages (by decide)), placed⟩

end Parser

end ProtoSchema
