/-
This file places what is reserved, the ranges that are left to extensions, and
enums, and says what is found in them. A name in quotes that is no identifier is
found where it stands; ranges are checked with the declaration around them. An enum
is checked when it has been read. What is wrong with the numbers of its values has
been found by then; what the check finds is wrong with names, with values that are
compared, or with the reserved ranges.
-/

import ProtoSchema.Grammar.Enums
import ProtoSchema.Proofs.Layout.Fields

namespace ProtoSchema

open Outline (Placed Laid WellPlaced leaf)

variable {source : List Char} {stream lexemes : List Lexeme}

namespace Parser

/-! ### Ranges -/

theorem places_rangeBound {kind : RangeKind} : Places source stream lexemes (rangeBound kind)
    fun found after => Placed source (offset source lexemes) after found.outline := by
  cases kind with
  | field => exact places_positiveInt
  | enumValue => exact places_signedInt

/-- What follows the word is one node, up to which the range reaches. -/
theorem places_rangeEnd {kind : RangeKind} : Places source stream lexemes (rangeEnd kind)
    fun found after => ∃ node, found.outlines = [node] ∧
      (∀ first, (⟨first, found⟩ : Range).span = first.span.through node.span) ∧
        Placed source (offset source lexemes) after node := by
  refine Places.look ?_
  split
  · next head =>
    exact Places.advance head fun span rest _ taken =>
      Places.pure ⟨leaf span, rfl, fun _ => rfl, .leaf taken.reached taken.within⟩
  · exact places_rangeBound.bind fun literal _ _ placed =>
      Places.pure ⟨literal.outline, rfl, fun _ => rfl, placed⟩
  · exact places_rangeBound.bind fun literal _ _ placed =>
      Places.pure ⟨literal.outline, rfl, fun _ => rfl, placed⟩
  · exact Places.unexpected

theorem places_range {kind : RangeKind} : Places source stream lexemes (range kind)
    fun found after => Placed source (offset source lexemes) after found.outline := by
  refine places_rangeBound.bind fun first rest _ placed => Places.look ?_
  split
  · next head =>
    refine Places.advance head fun _ rest later _ => ?_
    refine places_rangeEnd.bind fun last rest _ ⟨node, outlines, span, lastPlaced⟩ =>
      Places.pure ?_
    rw [Range.outline, span, outlines]
    exact placed.alone.extend lastPlaced later
  · split
    · exact Places.pure placed.alone
    · exact Places.unexpected
  · exact Places.unexpected

theorem places_ranges {kind : RangeKind} : Places source stream lexemes (ranges kind)
    fun found after => Laid source (offset source lexemes) after [found.map Range.outline] :=
  places_commaList fun _ => places_range

/-! ### Reserved numbers and names -/

theorem surveys_reservedName :
    Surveys source stream (offset source lexemes) [] lexemes reservedName
      fun found faults after => FromStages [.phrase] faults ∧
        Placed source (offset source lexemes) after (leaf found.span) := by
  refine Surveys.places places_text fun name rest later placed => ?_
  have between : name.span.Between (offset source lexemes) (offset source rest) := placed.between
  split
  · exact Surveys.report (.nil later) (Surveys.pure ⟨.nil, placed⟩)
  · exact Surveys.report (.singleton between rfl)
      (Surveys.pure ⟨.singleton List.mem_cons_self, placed⟩)

theorem surveys_reservedItems {kind : RangeKind} :
    Surveys source stream (offset source lexemes) [] lexemes (reservedItems kind)
      fun found faults after => FromStages [.phrase] faults ∧
        Laid source (offset source lexemes) after [found.outlines] := by
  refine Surveys.look ?_
  split
  · exact (places_ranges.surveys _).bind fun _ _ _ _ meets => Surveys.pure meets
  · exact (places_ranges.surveys _).bind fun _ _ _ _ meets => Surveys.pure meets
  · exact (surveys_commaList fun _ => surveys_reservedName).bind fun _ _ _ _ meets =>
      Surveys.pure meets
  · exact Surveys.unexpected

theorem surveys_reserved {kind : RangeKind} :
    Surveys source stream (offset source lexemes) [] lexemes (reserved kind)
      fun found faults after => FromStages [.phrase] faults ∧
        Placed source (offset source lexemes) after found.outline := by
  refine Surveys.leadingComments fun comments => ?_
  refine Surveys.places Places.expect_last fun start rest later opened => ?_
  refine Surveys.fresh surveys_reservedItems fun items faults rest _ _ ⟨stages, laid⟩ => ?_
  refine Surveys.places places_terminator fun (stop, trailing) rest _ closed => ?_
  refine Surveys.pure ⟨stages, .enclose opened.reached.1 later laid ?_ (Nat.le_refl _)
    closed.reached closed.within⟩
  exact .nil (Nat.le_refl _) fun _ member => absurd member List.not_mem_nil

theorem places_extensionRanges : Places source stream lexemes extensionRanges
    fun found after => Placed source (offset source lexemes) after found.outline := by
  refine Places.leadingComments fun comments => Places.expect fun start rest later opened => ?_
  refine places_ranges.bind fun ranges rest _ rangesLaid => ?_
  refine places_optionalSettings.bind fun options rest _ optionsLaid => ?_
  refine places_terminator.bind fun (stop, trailing) rest _ closed => Places.pure ?_
  exact .enclose opened.reached.1 later (rangesLaid.append optionsLaid)
    (.nil (Nat.le_refl _) fun _ member => absurd member List.not_mem_nil) (Nat.le_refl _)
    closed.reached closed.within

/-! ### Enum values -/

theorem surveys_enumValue : Surveys source stream (offset source lexemes) [] lexemes enumValue
    fun found faults after => FromStages [.number] faults ∧
      Placed source (offset source lexemes) after found.outline := by
  refine Surveys.leadingComments fun comments => ?_
  refine Surveys.places places_name fun name rest afterName named => ?_
  refine Surveys.places Places.expect_last fun _ rest afterEquals _ => ?_
  refine Surveys.places places_signedInt fun number rest _ numberPlaced => ?_
  have between := numberPlaced.between.widen (Nat.le_trans afterName afterEquals) (Nat.le_refl _)
  have faults : FromStages [.number] (enumNumberFaults number) ∧
      Findings stream (offset source lexemes) (offset source rest) (enumNumberFaults number) := by
    rw [enumNumberFaults]
    split
    · exact ⟨.nil, .nil between.ordered⟩
    · exact ⟨.singleton List.mem_cons_self, .singleton between rfl⟩
  refine Surveys.report faults.2 ?_
  refine Surveys.places places_optionalSettings fun options rest _ optionsLaid => ?_
  refine Surveys.places places_terminator fun (stop, trailing) rest _ closed => ?_
  refine Surveys.pure ⟨faults.1, ?_⟩
  have parts := ((named.later afterEquals).laid.append numberPlaced.laid).append optionsLaid
  exact .enclose named.reached.1 (Nat.le_refl _) parts
    (.nil (Nat.le_refl _) fun _ member => absurd member List.not_mem_nil) (Nat.le_refl _)
    closed.reached closed.within

end Parser

/-! ### Enums -/

/-- The name and the number of a value stand in it. -/
theorem EnumValue.inside {value : EnumValue} (placed : value.outline.WellPlaced source) :
    value.name.span.Between value.span.start value.span.stop ∧
      value.number.span.Between value.span.start value.span.stop := by
  have parts := placed.parts.arranged.between _ List.mem_cons_self
  exact ⟨parts _ List.mem_cons_self, parts _ (List.mem_cons_of_mem _ List.mem_cons_self)⟩

/-- The places of what the check of an enum looks at. -/
structure Enumeration.Interior (source : List Char) (enumeration : Enumeration) : Prop where
  ordered : enumeration.span.start ≤ enumeration.span.stop
  name : enumeration.name.span.Between enumeration.span.start enumeration.span.stop
  values : ∀ value ∈ enumeration.values,
    value.span.Between enumeration.span.start enumeration.span.stop
  valuesInOrder : enumeration.values.Pairwise
    fun first second => first.span.stop ≤ second.span.start
  inValues : ∀ value ∈ enumeration.values,
    value.name.span.Between value.span.start value.span.stop ∧
      value.number.span.Between value.span.start value.span.stop
  behindName : ∀ value ∈ enumeration.values, enumeration.name.span.stop ≤ value.span.start
  reserved : ∀ entry ∈ enumeration.reserved,
    entry.span.Between enumeration.span.start enumeration.span.stop
  reservedInOrder : enumeration.reserved.Pairwise
    fun first second => first.span.stop ≤ second.span.start
  inReserved : ∀ entry ∈ enumeration.reserved, PlacedRanges source entry.span entry.ranges

namespace Enumeration

variable {enumeration : Enumeration}

theorem Interior.of_placed (placed : enumeration.outline.WellPlaced source) :
    enumeration.Interior source := by
  obtain ⟨middle, parts, members⟩ := placed.laid
  have name := parts.arranged.between _ List.mem_cons_self enumeration.name.outline
    List.mem_cons_self
  obtain ⟨values, valuesInOrder⟩ := members.entries
    (show enumeration.values.map EnumValue.outline ∈ _ from List.mem_cons_self)
  obtain ⟨reserved, reservedInOrder⟩ := members.entries
    (show enumeration.reserved.map Reserved.outline ∈ _ from
      List.mem_cons_of_mem _ (List.mem_cons_of_mem _ List.mem_cons_self))
  exact
    { ordered := Nat.le_of_lt placed.some
      name := name.widen (Nat.le_refl _) members.arranged.ordered
      values := fun value member =>
        (values value member).2.widen parts.arranged.ordered (Nat.le_refl _)
      valuesInOrder
      inValues := fun value member => EnumValue.inside (values value member).1
      behindName := fun value member => Nat.le_trans name.2.2 (values value member).2.1
      reserved := fun entry member =>
        (reserved entry member).2.widen parts.arranged.ordered (Nat.le_refl _)
      reservedInOrder
      inReserved := fun entry member => Reserved.placed_ranges (reserved entry member).1 }

/-- Faults of some kinds that a part of the check finds. -/
abbrev Finds (stream : List Lexeme) (enumeration : Enumeration) (kinds : List SemanticCause)
    (faults : List SemanticFault) : Prop :=
  Checks stream enumeration.span.start enumeration.span.stop (Shape.enumeration.sites enumeration)
    kinds faults

theorem name_site : (.body, enumeration.name.span) ∈ Shape.enumeration.sites enumeration :=
  List.mem_cons_self

theorem value_site {value : EnumValue} (member : value ∈ enumeration.values) :
    (.body, value.span) ∈ Shape.enumeration.sites enumeration :=
  List.mem_cons_of_mem _ (List.mem_append_left _ (List.mem_map_of_mem member))

theorem checks_firstValueFaults (interior : enumeration.Interior source) :
    enumeration.Finds stream [.emptyEnum, .firstEnumValueNotZero] enumeration.firstValueFaults := by
  rw [firstValueFaults]
  split
  · exact .widen (.single name_site interior.name.whole rfl List.mem_cons_self) interior.name.1
      interior.name.2.2
  · next first rest found =>
    have member : first ∈ enumeration.values := found ▸ List.mem_cons_self
    have whole := interior.values first member
    split
    · exact .nil interior.ordered
    · exact .widen (.single (value_site member) (interior.inValues first member).2 rfl
        (List.mem_cons_of_mem _ List.mem_cons_self)) whole.1 whole.2.2

theorem checks_valueNameFaults (interior : enumeration.Interior source) :
    enumeration.Finds stream [.badTypeName .enumValue "", .repeatedName "" default]
      enumeration.valueNameFaults := by
  have each : enumeration.Finds stream [.badTypeName .enumValue ""]
      (enumeration.values.flatMap fun value => typeNameFaults .enumValue value.name) :=
    .each interior.ordered interior.values (interior.valuesInOrder.imp .inl) fun value member =>
      checks_typeNameFaults (value_site member) (interior.inValues value member).1
  exact each.append (checks_memberNames interior.ordered interior.values
    (fun value member => (interior.inValues value member).1) interior.valuesInOrder) (by decide)

/-- The values that have numbers are among the values, in their order. -/
theorem numbered_values (interior : enumeration.Interior source) :
    (∀ entry ∈ enumeration.values.filterMap NumberedValue.ofValue?,
      entry.value ∈ enumeration.values) ∧
    (enumeration.values.filterMap NumberedValue.ofValue?).Pairwise
      fun first second => first.value.span.stop ≤ second.value.span.start := by
  constructor
  · intro entry member
    obtain ⟨value, valueMember, found⟩ := List.mem_filterMap.mp member
    obtain ⟨number, -, rfl⟩ := Option.map_eq_some_iff.mp found
    exact valueMember
  · refine interior.valuesInOrder.filterMap _
      fun first second ahead numbered found other otherFound => ?_
    obtain ⟨_, -, rfl⟩ := Option.map_eq_some_iff.mp found
    obtain ⟨_, -, rfl⟩ := Option.map_eq_some_iff.mp otherFound
    exact ahead

theorem checks_valueNumberFaults (interior : enumeration.Interior source) :
    enumeration.Finds stream [.repeatedEnumNumber 0 default] enumeration.valueNumberFaults := by
  obtain ⟨values, inOrder⟩ := numbered_values interior
  have between : ∀ entry ∈ enumeration.values.filterMap NumberedValue.ofValue?,
      entry.value.span.Between enumeration.span.start enumeration.span.stop :=
    fun entry member => interior.values entry.value (values entry member)
  have inside : ∀ entry ∈ enumeration.values.filterMap NumberedValue.ofValue?,
      entry.value.number.span.Between entry.value.span.start entry.value.span.stop :=
    fun entry member => (interior.inValues entry.value (values entry member)).2
  rw [valueNumberFaults]
  split
  · exact .nil interior.ordered
  · exact .clashes NumberedValue.repeatedNumber interior.ordered between inside inOrder
      (List.Sublist.refl _) (fun _ _ => rfl) (fun _ _ => rfl) (fun _ _ => rfl)
      (.inr fun entry member => value_site (values entry member))

theorem checks_reservedFaults (interior : enumeration.Interior source) :
    enumeration.Finds stream
      [.reversedRange 0 0, .enumNumberOutOfRange, .reservedNumberUsed 0 default,
        .reservedNameUsed "" default] enumeration.reservedFaults := by
  have placed : ∀ declared ∈ enumeration.reserved.flatMap Reserved.ranges,
      declared.Placed source ∧
        declared.declaration.Between enumeration.span.start enumeration.span.stop ∧
          (.number, declared.declaration) ∈ Shape.enumeration.sites enumeration := by
    refine List.forall_mem_flatMap.mpr fun entry member declared declaredMember => ?_
    obtain ⟨inside, same⟩ := (interior.inReserved entry member).each declared declaredMember
    rw [same]
    exact ⟨inside, interior.reserved entry member,
      List.mem_cons_of_mem _ (List.mem_append_right _ (List.mem_map_of_mem member))⟩
  have ranges : enumeration.Finds stream
      [.reversedRange 0 0, (RangeKind.enumValue.outside default).cause]
      (DeclaredRange.faults .enumValue (enumeration.reserved.flatMap Reserved.ranges)) :=
    DeclaredRange.checks_faults interior.ordered placed
      (PlacedRanges.apart_flatMap interior.inReserved (interior.reservedInOrder.imp .inl))
  have uses : enumeration.Finds stream
      [.reservedNumberUsed 0 default, .reservedNameUsed "" default]
      (enumeration.values.flatMap fun value =>
        reservationFaults enumeration.reserved .enumValue value.number value.name) :=
    .each interior.ordered interior.values (interior.valuesInOrder.imp .inl) fun value member =>
      checks_reservationFaults (value_site member) (interior.inValues value member).2
        (interior.inValues value member).1
  exact ranges.append uses (by decide)

theorem checks_faults (placed : enumeration.outline.WellPlaced source) :
    enumeration.Finds stream
      [.badTypeName .enumeration "", .emptyEnum, .firstEnumValueNotZero, .badTypeName .enumValue "",
        .repeatedName "" default, .repeatedEnumNumber 0 default, .reversedRange 0 0,
        .enumNumberOutOfRange, .reservedNumberUsed 0 default, .reservedNameUsed "" default]
      enumeration.faults := by
  have inside := Interior.of_placed placed
  have name : enumeration.Finds stream [.badTypeName .enumeration ""]
      (typeNameFaults .enumeration enumeration.name) :=
    (checks_typeNameFaults name_site inside.name.whole).widen inside.name.1 inside.name.2.2
  exact (((name.append (checks_firstValueFaults inside) (by decide)).append
    (checks_valueNameFaults inside) (by decide)).append
      (checks_valueNumberFaults inside) (by decide)).append
        (checks_reservedFaults inside) (by decide)

end Enumeration

namespace Parser

variable {stages : List Stage} {start first : Nat} {parts : List Outline}

theorem upheld_enumMember : Upheld source stream start enumMember
    (Underway source [.number, .phrase] first parts Shape.enumeration) where
  later := fun later body => body.later later
  member := by
    intro state next parser found lexemes result body
    unfold enumMember at result
    split at result
    · split_ifs at result with isOption isReserved
      all_goals obtain rfl := Option.some.inj result
      · exact body.surveys_add (places_optionStatement.surveys []) (List.nil_subset _) 1
          (fun _ => rfl) (by simp [Shape.enumeration, Enumeration.addOption]) none (by decide)
          fun _ _ _ known => .inl known
      · exact body.surveys_add surveys_reserved (by decide) 2 (fun _ => rfl)
          (by simp [Shape.enumeration]) (some .number) (by decide) (by grind [Shape.enumeration])
      · exact body.surveys_add surveys_enumValue (by decide) 0 (fun _ => rfl)
          (by simp [Shape.enumeration]) (some .body) (by decide) (by grind [Shape.enumeration])
    · cases result

theorem surveys_enumeration :
    Surveys source stream (offset source lexemes) [] lexemes enumeration
      fun found faults after => FromStages [.repeatable, .number, .phrase, .body] faults ∧
        Placed source (offset source lexemes) after found.outline := by
  refine Surveys.leadingComments fun comments => ?_
  refine Surveys.places Places.expect_last fun start rest afterWord opened => ?_
  refine Surveys.places places_name fun name rest afterName named => ?_
  refine Surveys.places places_openBrace fun trailing rest afterBrace _ => ?_
  have opening : Underway source [.number, .phrase] (offset source rest) [name.outline]
      Shape.enumeration ⟨name, [], [], [], false, { comments with trailing }, start⟩ []
      (offset source rest) :=
    .opening rfl (by simp [Shape.enumeration])
      (List.forall_mem_singleton.mpr (Nat.le_trans named.between.2.2 afterBrace))
  refine (surveys_body upheld_enumMember opening).bind
    fun (read, stop) faults rest _ ⟨last, body, closed⟩ => Surveys.known fun before _ => ?_
  have placed : Placed source (offset source lexemes) (offset source rest)
      ({ read with span := start.through stop } : Enumeration).outline :=
    body.enclose opened named.laid afterWord afterBrace closed
  have checks : Enumeration.Finds stream _ _ _ := Enumeration.checks_faults placed.wellPlaced
  exact body.surveys_report before placed checks (by decide) (by decide)

end Parser

end ProtoSchema
