/-
This file follows reserved items, extension ranges, enums, services and fields on
moved input. The methods of a service that was read have types with names, so that
the faults of the service move with it. A field that is dropped is dropped there,
too: which map keys are allowed is a matter of their text.
-/

import ProtoSchema.Grammar.Enums
import ProtoSchema.Grammar.Fields
import ProtoSchema.Grammar.Services
import ProtoSchema.Proofs.Movement.Options

namespace ProtoSchema

namespace Parser

variable {move : Move} {kind : RangeKind}

/-! ### Ranges -/

/-- Each parser does the same on moved tokens, here on those of a bound and then of larger parts. -/
theorem moves_rangeBound :
    Moves move (rangeBound kind) (rangeBound kind) (IntLiteral.moved move) fun _ => True := by
  cases kind with
  | field => exact moves_positiveInt
  | enumValue => exact moves_signedInt

theorem moves_rangeEnd :
    Moves move (rangeEnd kind) (rangeEnd kind) (RangeEnd.moved move) fun _ => True := by
  refine Moves.look fun next => ?_
  split
  · exact Moves.advance fun _ => Moves.pure rfl trivial
  · exact moves_rangeBound.bind fun _ _ => Moves.pure rfl trivial
  · exact moves_rangeBound.bind fun _ _ => Moves.pure rfl trivial
  · exact Moves.unexpected

theorem moves_range : Moves move (range kind) (range kind) (Range.moved move) fun _ => True := by
  refine moves_rangeBound.bind fun first _ => Moves.look fun next => ?_
  split
  · exact Moves.advance fun _ => moves_rangeEnd.bind fun _ _ => Moves.pure rfl trivial
  · split
    · exact Moves.pure rfl trivial
    · exact Moves.unexpected
  · exact Moves.unexpected

theorem moves_ranges :
    Moves move (ranges kind) (ranges kind) (List.map (Range.moved move)) fun _ => True :=
  moves_commaList moves_range

/-! ### Reserved items -/

theorem moves_reservedName :
    Moves move reservedName reservedName (Name.moved move) fun _ => True := by
  refine moves_text.bind fun name _ => Moves.report ?_ (Moves.pure rfl trivial)
  change (if isIdentifier name.text = true then _ else _) = _
  split <;> rfl

theorem moves_reservedNames :
    Moves move reservedNames reservedNames (List.map (Name.moved move)) fun _ => True :=
  moves_commaList moves_reservedName

/-- Whether ranges or names are reserved is told by the token, not by its place. -/
theorem moves_reservedItems :
    Moves move (reservedItems kind) (reservedItems kind) (ReservedItems.moved move)
      fun _ => True := by
  refine Moves.look fun next => ?_
  split
  · exact moves_ranges.bind fun _ _ => Moves.pure rfl trivial
  · exact moves_ranges.bind fun _ _ => Moves.pure rfl trivial
  · exact moves_reservedNames.bind fun _ _ => Moves.pure rfl trivial
  · exact Moves.unexpected

/-- The comments on a statement are dropped, since they are not in the moved one. -/
theorem moves_reserved :
    Moves move (reserved kind) (reserved kind) (Reserved.moved move) fun _ => True := by
  refine moves_leadingComments.bind fun _ _ => Moves.expect fun start => ?_
  refine moves_reservedItems.bind fun items _ => moves_terminator.bind fun _ _ => ?_
  exact Moves.pure rfl trivial

theorem moves_extensionRanges :
    Moves move extensionRanges extensionRanges (ExtensionRanges.moved move) fun _ => True := by
  refine moves_leadingComments.bind fun _ _ => Moves.expect fun start => ?_
  refine moves_ranges.bind fun items _ => moves_optionalSettings.bind fun options _ => ?_
  exact moves_terminator.bind fun _ _ => Moves.pure rfl trivial

/-! ### Enums -/

theorem moves_enumValue :
    Moves move enumValue enumValue (EnumValue.moved move) fun _ => True := by
  refine moves_leadingComments.bind fun _ _ => moves_name.bind fun name _ => ?_
  refine Moves.expect fun _ => moves_signedInt.bind fun number _ => Moves.report ?_ ?_
  · have same : (number.moved move).number? = number.number? := rfl
    rw [enumNumberFaults, enumNumberFaults, same]
    split <;> rfl
  · refine moves_optionalSettings.bind fun options _ => moves_terminator.bind fun _ _ => ?_
    exact Moves.pure rfl trivial

/-- Whether aliases are allowed is told by names and values, not by places. -/
theorem addOption_moved (enumeration : Enumeration) (option : OptionStatement) :
    (enumeration.moved move).addOption (option.moved move) =
      (enumeration.addOption option).moved move := by
  have isTrue : (option.moved move).setting.isTrue = option.setting.isTrue := by
    obtain ⟨⟨name, value⟩, comments, span⟩ := option
    cases value with
    | bool truth span => cases truth <;> rfl
    | _ => rfl
  have isNamed : (option.moved move).setting.isNamed "allow_alias" =
      option.setting.isNamed "allow_alias" := option.setting.isNamed_moved move "allow_alias"
  simp [Enumeration.addOption, Enumeration.moved, isTrue, isNamed]

/-- An enum with one more member is moved to the moved enum with the moved member. -/
theorem movesMember_enum :
    MovesMember move enumMember (Enumeration.moved move) fun _ => True := by
  intro enumeration next _
  unfold enumMember
  split
  · split_ifs with isOption isReserved
    · refine .some (moves_optionStatement.bind fun option _ => Moves.pure ?_ trivial)
      exact addOption_moved enumeration option
    · refine .some (moves_reserved.bind fun _ _ => Moves.pure ?_ trivial)
      simp [Enumeration.moved]
    · refine .some (moves_enumValue.bind fun _ _ => Moves.pure ?_ trivial)
      simp [Enumeration.moved]
  · exact .none

theorem moves_enumeration :
    Moves move enumeration enumeration (Enumeration.moved move) fun _ => True := by
  refine moves_leadingComments.bind fun _ _ => Moves.expect fun start => ?_
  refine moves_name.bind fun name _ => moves_openBrace.bind fun trailing _ => ?_
  refine (moves_body movesMember_enum trivial rfl).bind fun ⟨read, stop⟩ _ => ?_
  exact Moves.report (Enumeration.faults_moved _) (Moves.pure rfl trivial)

/-! ### Services -/

theorem moves_streamWord : Moves move streamWord streamWord id fun _ => True := by
  refine Moves.ahead fun tokens => ?_
  split
  · exact Moves.advance fun _ => Moves.pure rfl trivial
  · exact Moves.pure rfl trivial

/-- The name of a type has a part, so its place is told by its parts. -/
theorem moves_methodType :
    Moves move methodType methodType (Prod.map id (TypeName.moved move))
      fun found => found.2.path.parts ≠ [] :=
  Moves.expect fun _ => moves_streamWord.bind fun _ _ => moves_typeName.bind fun _ some =>
    Moves.expect fun _ => Moves.pure rfl some

theorem moves_methodEnd :
    Moves move methodEnd methodEnd
      (Prod.map (List.map (OptionStatement.moved move)) (Prod.map (Span.moved move) fun _ => none))
      fun _ => True := by
  refine Moves.look fun next => ?_
  split
  · exact moves_terminator.bind fun _ _ => Moves.pure rfl trivial
  · refine moves_openBrace.bind fun trailing _ => ?_
    refine (moves_body (?_ : MovesMember move _ (List.map (OptionStatement.moved move))
      fun _ => True) trivial rfl).bind fun _ _ => Moves.pure rfl trivial
    intro options next _
    dsimp only
    split
    · refine .some (moves_optionStatement.bind fun _ _ => Moves.pure ?_ trivial)
      rw [List.map_append, List.map_singleton]
    · exact .none
  · exact Moves.unexpected

/-- A method has named types, so what is said of them moves along. -/
theorem moves_method : Moves move method method (Method.moved move) Method.Typed := by
  refine moves_leadingComments.bind fun _ _ => Moves.expect fun start => ?_
  refine moves_name.bind fun name _ => moves_methodType.bind fun ⟨_, input⟩ inputNamed => ?_
  refine Moves.expect fun _ => moves_methodType.bind fun ⟨_, output⟩ outputNamed => ?_
  exact moves_methodEnd.bind fun _ _ => Moves.pure rfl ⟨inputNamed, outputNamed⟩

theorem movesMember_service :
    MovesMember move serviceMember (Service.moved move)
      fun service => ∀ method ∈ service.methods, method.Typed := by
  intro service next typed
  unfold serviceMember
  split_ifs with isMethod isOption
  · refine .some (moves_method.bind fun _ methodTyped => Moves.pure ?_ ?_)
    · simp [Service.moved]
    · exact List.forall_mem_append.mpr ⟨typed, List.forall_mem_singleton.mpr methodTyped⟩
  · refine .some (moves_optionStatement.bind fun _ _ => Moves.pure ?_ typed)
    simp [Service.moved]
  · exact .none

theorem moves_service : Moves move service service (Service.moved move) fun _ => True := by
  refine moves_leadingComments.bind fun _ _ => Moves.expect fun start => ?_
  refine moves_name.bind fun name _ => moves_openBrace.bind fun trailing _ => ?_
  refine (moves_body movesMember_service (fun _ member => absurd member List.not_mem_nil) rfl).bind
    fun ⟨read, stop⟩ typed => ?_
  exact Moves.report (Service.faults_moved typed) (Moves.pure rfl trivial)

section Fields

variable {context : FieldContext}

/-! ### Labels -/

theorem requiredFaults_moved (edition : Option Edition) (span : Span) :
    requiredFaults edition context (span.moved move) =
      (requiredFaults edition context span).map (SemanticFault.moved move) := by
  rw [requiredFaults, requiredFaults]
  split
  · rfl
  · split <;> rfl

theorem moves_fieldLabel :
    Moves move (fieldLabel context) (fieldLabel context) (Prod.map id (Option.map (Span.moved move)))
      fun _ => True := by
  refine Moves.look fun next => ?_
  split
  · exact Moves.advance fun _ => Moves.pure rfl trivial
  · exact Moves.advance fun _ => Moves.pure rfl trivial
  · exact Moves.advance fun span => Moves.edition fun declared =>
      Moves.report (requiredFaults_moved declared span) (Moves.pure rfl trivial)
  · exact Moves.pure rfl trivial

/-! ### Types -/

theorem moves_reference :
    Moves move reference reference (ValueType.moved move) fun _ => True :=
  moves_typeName.bind fun _ _ => Moves.pure rfl trivial

theorem moves_valueType :
    Moves move valueType valueType (ValueType.moved move) fun _ => True := by
  refine Moves.look fun next => ?_
  split
  · refine Moves.ahead fun tokens => ?_
    split
    · exact Moves.advance fun _ => Moves.pure rfl trivial
    · exact moves_reference
  · exact moves_reference
  · exact Moves.unexpected

theorem mapKey?_moved (name : TypeName) : mapKey? (name.moved move) = mapKey? name := by
  obtain ⟨dot, ⟨parts⟩⟩ := name
  cases dot with
  | some dot => rfl
  | none =>
    match parts with
    | [] | [_] | _ :: _ :: _ => rfl

theorem moves_mapType :
    Moves move mapType mapType (Option.map (FieldType.moved move)) fun _ => True := by
  refine Moves.expect fun start => Moves.expect fun _ => moves_typeName.bind fun keyName some => ?_
  refine Moves.expect fun _ => moves_valueType.bind fun value _ => Moves.expect fun stop => ?_
  rw [mapKey?_moved, TypeName.span_moved some]
  split
  · exact Moves.pure rfl trivial
  · exact Moves.report rfl (Moves.pure rfl trivial)

theorem moves_fieldType :
    Moves move fieldType fieldType (Option.map (FieldType.moved move)) fun _ => True := by
  refine Moves.ahead fun tokens => ?_
  split
  · exact moves_mapType
  · exact moves_valueType.bind fun _ _ => Moves.pure rfl trivial

/-! ### Fields -/

theorem fieldNumberFaults_moved (literal : IntLiteral) :
    fieldNumberFaults (literal.moved move) =
      (fieldNumberFaults literal).map (SemanticFault.moved move) := by
  have same : (literal.moved move).number? = literal.number? := rfl
  rw [fieldNumberFaults, fieldNumberFaults, same]
  split
  · rfl
  · split
    · rfl
    · split <;> rfl

theorem moves_fieldNumber :
    Moves move fieldNumber fieldNumber (IntLiteral.moved move) fun _ => True :=
  moves_signedInt.bind fun literal _ =>
    Moves.report (fieldNumberFaults_moved literal) (Moves.pure rfl trivial)

theorem defaultFaults_moved (edition : Option Edition) (options : List OptionSetting) :
    defaultFaults edition (options.map (OptionSetting.moved move)) =
      (defaultFaults edition options).map (SemanticFault.moved move) := by
  rw [defaultFaults, defaultFaults]
  split
  · rw [List.filter_map, List.map_map, List.map_map]
    simp only [Function.comp_def, OptionSetting.isNamed_moved]
    refine List.map_congr_left fun setting member => ?_
    rw [OptionSetting.nameSpan_moved move (List.mem_filter.mp member).2]
    rfl
  · rfl

theorem moves_field :
    Moves move (field context) (field context) (Option.map (Field.moved move)) fun _ => True := by
  refine moves_leadingComments.bind fun comments _ => Moves.here fun start => ?_
  refine moves_fieldLabel.bind fun ⟨label, labelSpan⟩ _ => Moves.ahead fun tokens => ?_
  dsimp only [Prod.map, id]
  split
  · exact Moves.here fun _ => Moves.stop
  · refine moves_fieldType.bind fun type _ => moves_name.bind fun name _ => ?_
    refine Moves.expect fun _ => moves_fieldNumber.bind fun number _ => ?_
    refine moves_optionalSettings.bind fun options _ => Moves.edition fun declared => ?_
    refine Moves.report (defaultFaults_moved declared options) ?_
    refine moves_terminator.bind fun ⟨stop, trailing⟩ _ => Moves.pure ?_ trivial
    cases type <;> rfl

end Fields

end Parser

end ProtoSchema
