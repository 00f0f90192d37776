/-
This file carries blocks to other places, given that their headers and members
are, and with that reserved items, extension ranges, enums and services, and then
fields. What was checked when a body was closed still passes its check. How a field
goes on is decided by up to five tokens ahead, but a closing brace among them decides
it, whatever follows.
-/

import ProtoSchema.Proofs.Grammar.Blocks
import ProtoSchema.Proofs.Insertion.Options
import ProtoSchema.Proofs.Movement.Declarations

namespace ProtoSchema

namespace Parser

variable {move : Move} {kind : RangeKind}

/-! ### Blocks -/

/-- The parts of a block are carried: what its header answers meets one condition, what is known
while its members are read another, and the block that was read a third. -/
structure CarriesBlock {Value State : Type} (move : Move) (form : BlockForm Value State)
    (image : Value → Value) (stateImage : State → State) (begun : Value → Prop)
    (invariant : State → Prop) (goal : Value → Prop) : Prop where
  header : Carries move form.header form.header image begun
  start : ∀ value, begun value → invariant (form.begin value)
  startImage : ∀ value, form.begin (image value) = stateImage (form.begin value)
  members : CarriesMember move form.member stateImage invariant
  closeImage : ∀ value read stop,
    form.close (image value) (stateImage read) (stop.moved move) =
      image (form.close value read stop)
  faults : ∀ edition value read stop, invariant read →
    form.faults edition (form.close value read stop) = [] →
      form.faults edition (image (form.close value read stop)) = []
  goal : ∀ value read stop, begun value → goal (form.close value read stop)

namespace CarriesBlock

variable {Value State : Type} {form : BlockForm Value State} {image : Value → Value}
variable {stateImage : State → State} {begun goal : Value → Prop} {invariant : State → Prop}

/-- A block is carried along if its header and its members are. -/
theorem parser (block : CarriesBlock move form image stateImage begun invariant goal) :
    Carries move form.parser form.parser image goal := by
  refine block.header.bind fun value started => ?_
  rw [BlockForm.rest, BlockForm.rest]
  refine (carries_body block.members (block.start value started) (block.startImage value)).bind
    fun ended holds => ?_
  obtain ⟨read, stop⟩ := ended
  dsimp only [Prod.map]
  rw [block.closeImage]
  refine CarriesAt.edition fun declared => ?_
  exact CarriesAt.report (block.faults declared value read stop holds) fun _ =>
    CarriesAt.pure rfl (block.goal value read stop started)

end CarriesBlock

/-! ### Ranges -/

theorem carries_rangeBound :
    Carries move (rangeBound kind) (rangeBound kind) (IntLiteral.moved move) fun _ => True := by
  cases kind with
  | field => exact carries_positiveInt
  | enumValue => exact carries_signedInt

/-- Nothing can be inserted into a range, so it is only moved. -/
theorem carries_rangeEnd :
    Carries move (rangeEnd kind) (rangeEnd kind) (RangeEnd.moved move) fun _ => True := by
  refine CarriesAt.look ?_
  split
  · exact CarriesAt.advance fun _ => CarriesAt.pure rfl trivial
  · exact carries_rangeBound.bind fun _ _ => CarriesAt.pure rfl trivial
  · exact carries_rangeBound.bind fun _ _ => CarriesAt.pure rfl trivial
  · exact CarriesAt.unexpected

theorem carries_range :
    Carries move (range kind) (range kind) (Range.moved move) fun _ => True := by
  refine carries_rangeBound.bind fun first _ => CarriesAt.look ?_
  split
  · exact CarriesAt.advance fun _ => carries_rangeEnd.bind fun _ _ => CarriesAt.pure rfl trivial
  · split
    · exact CarriesAt.pure rfl trivial
    · exact CarriesAt.unexpected
  · exact CarriesAt.unexpected

theorem carries_ranges :
    Carries move (ranges kind) (ranges kind) (List.map (Range.moved move)) fun _ => True :=
  carries_commaList carries_range

/-! ### Reserved items -/

/-- A reserved name is an identifier wherever it stands. -/
theorem carries_reservedName :
    Carries move reservedName reservedName (Name.moved move) fun _ => True := by
  refine carries_text.bind fun name _ => CarriesAt.report (fun none => ?_) fun _ =>
    CarriesAt.pure rfl trivial
  by_cases identifier : isIdentifier name.text
  · exact if_pos identifier
  · rw [if_neg identifier] at none
    cases none

theorem carries_reservedNames :
    Carries move reservedNames reservedNames (List.map (Name.moved move)) fun _ => True :=
  carries_commaList carries_reservedName

theorem carries_reservedItems :
    Carries move (reservedItems kind) (reservedItems kind) (ReservedItems.moved move)
      fun _ => True := by
  refine CarriesAt.look ?_
  split
  · exact carries_ranges.bind fun _ _ => CarriesAt.pure rfl trivial
  · exact carries_ranges.bind fun _ _ => CarriesAt.pure rfl trivial
  · exact carries_reservedNames.bind fun _ _ => CarriesAt.pure rfl trivial
  · exact CarriesAt.unexpected

/-- The comments on the statement stay with it. -/
theorem carries_reserved :
    Carries move (reserved kind) (reserved kind) (Reserved.shifted move) fun _ => True := by
  refine CarriesAt.leadingComments fun _ => CarriesAt.expect fun start => ?_
  refine carries_reservedItems.bind fun items _ => carries_terminator.bind fun _ _ => ?_
  exact CarriesAt.pure rfl trivial

theorem carries_extensionRanges :
    Carries move extensionRanges extensionRanges (ExtensionRanges.shifted move)
      fun _ => True := by
  refine CarriesAt.leadingComments fun _ => CarriesAt.expect fun start => ?_
  refine carries_ranges.bind fun items _ => carries_optionalSettings.bind fun options _ => ?_
  exact carries_terminator.bind fun _ _ => CarriesAt.pure rfl trivial

/-! ### Enums -/

theorem carries_enumValue :
    Carries move enumValue enumValue (EnumValue.shifted move) fun _ => True := by
  refine CarriesAt.leadingComments fun _ => carries_name.bind fun name _ => ?_
  refine CarriesAt.expect fun _ => carries_signedInt.bind fun number _ => ?_
  refine CarriesAt.report (fun none => ?_) fun _ => ?_
  · by_cases isNumber : number.number?.isSome
    · exact if_pos isNumber
    · rw [enumNumberFaults, if_neg isNumber] at none
      cases none
  · refine carries_optionalSettings.bind fun options _ => carries_terminator.bind fun _ _ => ?_
    exact CarriesAt.pure rfl trivial

/-- Whether aliases are allowed is told by names and values, not by places. -/
theorem addOption_shifted (enumeration : Enumeration) (option : OptionStatement) :
    (enumeration.shifted move).addOption (option.shifted move) =
      (enumeration.addOption option).shifted move := by
  have isTrue : (option.shifted move).setting.isTrue = option.setting.isTrue := by
    obtain ⟨⟨name, value⟩, comments, span⟩ := option
    cases value with
    | bool truth span => cases truth <;> rfl
    | _ => rfl
  have isNamed : (option.shifted move).setting.isNamed "allow_alias" =
      option.setting.isNamed "allow_alias" := option.setting.isNamed_moved move "allow_alias"
  simp [Enumeration.addOption, Enumeration.shifted, Enumeration.moved, isTrue, isNamed]

/-- What an enum has after one more member is moved with it. -/
theorem carriesMember_enum :
    CarriesMember move enumMember (Enumeration.shifted move) fun _ => True := by
  intro enumeration next _
  unfold enumMember
  split
  · split_ifs with isOption isReserved
    · refine .some (carries_optionStatement.bind fun option _ => CarriesAt.pure ?_ trivial)
      exact addOption_shifted enumeration option
    · refine .some (carries_reserved.bind fun _ _ => CarriesAt.pure ?_ trivial)
      simp [Enumeration.shifted, Enumeration.moved]
    · refine .some (carries_enumValue.bind fun _ _ => CarriesAt.pure ?_ trivial)
      simp [Enumeration.shifted, Enumeration.moved]
  · exact .none

theorem carries_enumerationBlock :
    CarriesBlock move .enumeration (Enumeration.shifted move) (Enumeration.shifted move)
      (fun _ => True) (fun _ => True) fun _ => True where
  header := by
    refine CarriesAt.leadingComments fun _ => CarriesAt.expect fun start => ?_
    refine carries_name.bind fun name _ => carries_openBrace.bind fun trailing _ => ?_
    exact CarriesAt.pure rfl trivial
  start _ _ := trivial
  startImage _ := rfl
  members := carriesMember_enum
  closeImage _ _ _ := rfl
  faults _ _ _ _ _ none := Enumeration.faults_shifted none
  goal _ _ _ _ := trivial

/-- An enum is read to the same, at its new place. -/
theorem carries_enumeration :
    Carries move enumeration enumeration (Enumeration.shifted move) fun _ => True := by
  rw [enumeration_eq]
  exact carries_enumerationBlock.parser

/-! ### Services -/

/-- No stream starts at a closing brace. -/
theorem startsStream_eq {tokens others : List Token} (same : SameToBrace tokens others) :
    startsStream others = startsStream tokens := by
  unfold startsStream
  rcases same with _ | (_ | rest | _ | _) | _ | _
  all_goals grind

theorem carries_streamWord : Carries move streamWord streamWord id fun _ => True := by
  refine CarriesAt.ahead fun tokens others same first => ?_
  rw [startsStream_eq same]
  split
  · next starts =>
    cases tokens with
    | nil => cases starts
    | cons token rest =>
      rw [← first]
      exact CarriesAt.advance fun _ => CarriesAt.pure rfl trivial
  · exact CarriesAt.pure rfl trivial

/-- The name of a type has a part, so its place moves with its parts. -/
theorem carries_methodType :
    Carries move methodType methodType (Prod.map id (TypeName.moved move))
      fun found => found.2.path.parts ≠ [] :=
  CarriesAt.expect fun _ => carries_streamWord.bind fun _ _ => carries_typeName.bind fun _ some =>
    CarriesAt.expect fun _ => CarriesAt.pure rfl some

theorem carriesMember_method :
    CarriesMember move BlockForm.method.member (List.map (OptionStatement.shifted move))
      fun _ => True := by
  intro options next _
  unfold BlockForm.method
  dsimp only
  split
  · refine .some (carries_optionStatement.bind fun _ _ => CarriesAt.pure ?_ trivial)
    rw [List.map_append, List.map_singleton]
  · exact .none

theorem carries_methodBlock :
    CarriesBlock move .method (Method.shifted move) (List.map (OptionStatement.shifted move))
      Method.Typed (fun _ => True) Method.Typed where
  header := by
    refine CarriesAt.leadingComments fun _ => CarriesAt.expect fun start => ?_
    refine carries_name.bind fun name _ => carries_methodType.bind fun ⟨_, input⟩ inputNamed => ?_
    refine CarriesAt.expect fun _ => carries_methodType.bind fun ⟨_, output⟩ outputNamed => ?_
    refine carries_openBrace.bind fun trailing _ => ?_
    exact CarriesAt.pure rfl ⟨inputNamed, outputNamed⟩
  start _ _ := trivial
  startImage _ := rfl
  members := carriesMember_method
  closeImage _ _ _ := rfl
  faults _ _ _ _ _ none := none
  goal _ _ _ typed := ⟨typed.input, typed.output⟩

/-- A method ends in the same way, in a semicolon or in a body. -/
theorem carries_methodEnd :
    Carries move methodEnd methodEnd
      (Prod.map (List.map (OptionStatement.shifted move)) (Prod.map (Span.moved move) id))
      fun _ => True := by
  refine CarriesAt.look ?_
  split
  · exact carries_terminator.bind fun _ _ => CarriesAt.pure rfl trivial
  · refine carries_openBrace.bind fun trailing _ => ?_
    exact (carries_body carriesMember_method trivial rfl).bind fun _ _ =>
      CarriesAt.pure rfl trivial
  · exact CarriesAt.unexpected

/-- A method is read to the same, at its new place. -/
theorem carries_method : Carries move method method (Method.shifted move) Method.Typed := by
  refine CarriesAt.leadingComments fun _ => CarriesAt.expect fun start => ?_
  refine carries_name.bind fun name _ => carries_methodType.bind fun ⟨_, input⟩ inputNamed => ?_
  refine CarriesAt.expect fun _ => carries_methodType.bind fun ⟨_, output⟩ outputNamed => ?_
  exact carries_methodEnd.bind fun _ _ => CarriesAt.pure rfl ⟨inputNamed, outputNamed⟩

theorem carriesMember_service :
    CarriesMember move serviceMember (Service.shifted move)
      fun service => ∀ method ∈ service.methods, method.Typed := by
  intro service next typed
  unfold serviceMember
  split_ifs with isMethod isOption
  · refine .some (carries_method.bind fun _ methodTyped => CarriesAt.pure ?_ ?_)
    · simp [Service.shifted, Service.moved]
    · exact List.forall_mem_append.mpr ⟨typed, List.forall_mem_singleton.mpr methodTyped⟩
  · refine .some (carries_optionStatement.bind fun _ _ => CarriesAt.pure ?_ typed)
    simp [Service.shifted, Service.moved]
  · exact .none

theorem carries_serviceBlock :
    CarriesBlock move .service (Service.shifted move) (Service.shifted move)
      (fun service => ∀ method ∈ service.methods, method.Typed)
      (fun service => ∀ method ∈ service.methods, method.Typed) fun _ => True where
  header := by
    refine CarriesAt.leadingComments fun _ => CarriesAt.expect fun start => ?_
    refine carries_name.bind fun name _ => carries_openBrace.bind fun trailing _ => ?_
    exact CarriesAt.pure rfl fun _ member => absurd member List.not_mem_nil
  start _ typed := typed
  startImage _ := rfl
  members := carriesMember_service
  closeImage _ _ _ := rfl
  faults _ _ _ _ typed none := Service.faults_shifted typed none
  goal _ _ _ _ := trivial

/-- A service is read to the same, at its new place. -/
theorem carries_service :
    Carries move service service (Service.shifted move) fun _ => True := by
  rw [service_eq]
  exact carries_serviceBlock.parser

section Fields

variable {context : FieldContext}

/-! ### Labels -/

/-- The same label is read, at its new place. -/
theorem carries_fieldLabel :
    Carries move (fieldLabel context) (fieldLabel context)
      (Prod.map id (Option.map (Span.moved move))) fun _ => True := by
  refine CarriesAt.look ?_
  split
  · exact CarriesAt.advance fun _ => CarriesAt.pure rfl trivial
  · exact CarriesAt.advance fun _ => CarriesAt.pure rfl trivial
  · refine CarriesAt.advance fun span => CarriesAt.edition fun declared => ?_
    refine CarriesAt.report (fun none => ?_) fun _ => CarriesAt.pure rfl trivial
    rw [requiredFaults_moved, none, List.map_nil]
  · exact CarriesAt.pure rfl trivial

/-! ### Types -/

section

variable {tokens others : List Token}

/-- A group is told up to its brace, in front of which nothing is inserted. -/
theorem startsGroup_eq (same : SameToBrace tokens others) :
    startsGroup others = startsGroup tokens := by
  unfold startsGroup
  rcases same with _ | (_ | (_ | (_ | (_ | rest | _ | _) | _ | _) | _ | _) | _ | _) | _ | _
  all_goals grind

/-- A map is told by two tokens, neither of which is a brace. -/
theorem startsMap_eq (same : SameToBrace tokens others) :
    startsMap others = startsMap tokens := by
  unfold startsMap
  rcases same with _ | (_ | rest | _ | _) | _ | _
  all_goals grind

/-- Neither a closing brace after a word nor another word is a dot. -/
theorem scalarAhead?_eq (same : SameToBrace tokens others) :
    scalarAhead? others = scalarAhead? tokens := by
  have second (first second : Token) (rest otherRest : List Token) :
      scalarAhead? (first :: second :: rest) = scalarAhead? (first :: second :: otherRest) := by
    cases first with
    | word text =>
      cases second with
      | symbol mark => cases mark <;> rfl
      | _ => rfl
    | _ => rfl
  rcases same with _ | @⟨first, _, _, _ | _ | _ | _⟩ | _ | @⟨first, _, _, _⟩
  · rfl
  · rfl
  · exact second _ _ _ _
  · exact second _ _ _ _
  · exact second _ _ _ _
  · rfl
  · cases first <;> rfl

end

theorem carries_reference :
    Carries move reference reference (ValueType.moved move) fun _ => True :=
  carries_typeName.bind fun _ _ => CarriesAt.pure rfl trivial

theorem carries_valueType :
    Carries move valueType valueType (ValueType.moved move) fun _ => True := by
  refine CarriesAt.look ?_
  split
  · refine CarriesAt.ahead fun tokens others same _ => ?_
    rw [scalarAhead?_eq same]
    split
    · exact CarriesAt.advance fun _ => CarriesAt.pure rfl trivial
    · exact carries_reference
  · exact carries_reference
  · exact CarriesAt.unexpected

/-- A map whose keys have the wrong type is a fault, so there is nothing to carry. -/
theorem carries_mapType :
    Carries move mapType mapType (Option.map (FieldType.moved move)) fun _ => True := by
  refine CarriesAt.expect fun start => CarriesAt.expect fun _ => ?_
  refine carries_typeName.bind fun keyName some => CarriesAt.expect fun _ => ?_
  refine carries_valueType.bind fun value _ => CarriesAt.expect fun stop => ?_
  rw [mapKey?_moved, TypeName.span_moved some]
  split
  · exact CarriesAt.pure rfl trivial
  · exact CarriesAt.report (fun found => nomatch found) fun _ => CarriesAt.pure rfl trivial

/-- The same type is read or dropped. -/
theorem carries_fieldType :
    Carries move fieldType fieldType (Option.map (FieldType.moved move)) fun _ => True := by
  refine CarriesAt.ahead fun tokens others same _ => ?_
  rw [startsMap_eq same]
  split
  · exact carries_mapType
  · exact carries_valueType.bind fun _ _ => CarriesAt.pure rfl trivial

/-! ### Fields -/

theorem carries_fieldNumber :
    Carries move fieldNumber fieldNumber (IntLiteral.moved move) fun _ => True := by
  refine carries_signedInt.bind fun literal _ => ?_
  refine CarriesAt.report (fun none => ?_) fun _ => CarriesAt.pure rfl trivial
  rw [fieldNumberFaults_moved, none, List.map_nil]

/-- A field is read to the same or dropped, whatever was inserted before it. -/
theorem carries_field :
    Carries move (field context) (field context) (Option.map (Field.shifted move))
      fun _ => True := by
  intro head
  cases head with
  | none => exact CarriesAt.atEnd fun _ _ _ done => nomatch done
  | some first =>
    refine CarriesAt.leadingComments fun comments => CarriesAt.here fun start => ?_
    refine carries_fieldLabel.bind fun ⟨label, labelSpan⟩ _ => ?_
    refine CarriesAt.ahead fun tokens others same _ => ?_
    dsimp only [Prod.map, id]
    rw [startsGroup_eq same]
    split
    · exact CarriesAt.hereStop
    · refine carries_fieldType.bind fun type _ => carries_name.bind fun name _ => ?_
      refine CarriesAt.expect fun _ => carries_fieldNumber.bind fun number _ => ?_
      refine carries_optionalSettings.bind fun options _ => CarriesAt.edition fun declared => ?_
      refine CarriesAt.report (fun none => ?_) fun _ => ?_
      · rw [defaultFaults_moved, none, List.map_nil]
      · refine carries_terminator.bind fun ⟨stop, trailing⟩ _ => CarriesAt.pure ?_ trivial
        cases type <;> rfl

end Fields

end Parser

end ProtoSchema
