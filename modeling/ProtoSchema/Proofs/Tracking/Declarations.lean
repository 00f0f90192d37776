/-
This file keeps track of reserved items, extension ranges, enums, services and
fields. Each hands on the places that the checks of what contains it may point at;
an enum and a service have been checked by their last token. The label, type, name
and number of a field all lie before the token after it, and a field that is dropped
leaves no places.
-/

import ProtoSchema.Grammar.Enums
import ProtoSchema.Grammar.Fields
import ProtoSchema.Grammar.Services
import ProtoSchema.Proofs.Tracking.Options

namespace ProtoSchema

namespace Parser

variable {limit : Nat} {lexemes : List Lexeme} {kind : RangeKind}

/-! ### Ranges -/

/-- Each parser passes the places of what it answers, here of a bound and then of larger parts. -/
theorem tracks_rangeBound : Tracks limit lexemes (rangeBound kind) (fun _ => 1)
    fun found after => found.span.From (position limit lexemes) after := by
  cases kind with
  | field => exact tracks_positiveInt
  | enumValue => exact tracks_signedInt

/-- What ends a range lies after its first number, so that the range as a whole is a span. -/
theorem tracks_rangeEnd {start : Nat} {first : IntLiteral}
    (reached : first.span.From start (position limit lexemes)) :
    Tracks limit lexemes (rangeEnd kind) (fun _ => 1)
      fun found after => Passed after (Range.spans ⟨first, found⟩) := by
  have whole {last : Span} {after : Nat} (later : position limit lexemes ≤ after)
      (lastReached : last.From (position limit lexemes) after) :
      Passed after [first.span.through last, first.span] := by
    have inOrder := reached.2.1
    have ends := reached.2.2
    exact passed_cons.mpr ⟨(lastReached.through reached.1 (by omega)).before,
      List.forall_mem_singleton.mpr (reached.before.later later)⟩
  refine Tracks.look ?_
  split
  · next head =>
    exact Tracks.advance head fun last rest later lastReached =>
      Tracks.pure rfl (whole later lastReached)
  · exact tracks_rangeBound.bind fun last rest later lastReached => Tracks.pure rfl
      (passed_append.mpr ⟨whole later lastReached,
        List.forall_mem_singleton.mpr lastReached.before⟩)
  · exact tracks_rangeBound.bind fun last rest later lastReached => Tracks.pure rfl
      (passed_append.mpr ⟨whole later lastReached,
        List.forall_mem_singleton.mpr lastReached.before⟩)
  · exact Tracks.unexpected

theorem tracks_range : Tracks limit lexemes (range kind) (fun _ => 1)
    fun found after => Passed after found.spans := by
  refine tracks_rangeBound.bind fun first rest _ reached => Tracks.look ?_
  split
  · next head =>
    refine Tracks.advance head fun _ rest later _ => ?_
    exact (tracks_rangeEnd (reached.later later)).bind fun _ _ _ passed => Tracks.pure rfl passed
  · split
    · exact Tracks.pure rfl (passed_cons.mpr
        ⟨reached.before, List.forall_mem_singleton.mpr reached.before⟩)
    · exact Tracks.unexpected
  · exact Tracks.unexpected

theorem tracks_ranges : Tracks limit lexemes (ranges kind) (fun _ => 1)
    fun found after => Passed after (found.flatMap Range.spans) :=
  tracks_commaList fun _ => tracks_range

/-! ### Reserved items -/

theorem tracks_reservedName : Tracks limit lexemes reservedName (fun _ => 1)
    fun found after => Passed after [found.span] := by
  refine tracks_text.bind fun name rest _ reached => ?_
  have passed := List.forall_mem_singleton.mpr reached.before
  refine Tracks.report ?_ (Tracks.pure rfl passed)
  split
  · exact passedFaults_nil
  · exact List.forall_mem_singleton.mpr passed

theorem tracks_reservedNames : Tracks limit lexemes reservedNames (fun _ => 1)
    fun found after => Passed after (found.flatMap fun name => [name.span]) :=
  tracks_commaList fun _ => tracks_reservedName

/-- Ranges and names are passed alike. -/
theorem tracks_reservedItems : Tracks limit lexemes (reservedItems kind) (fun _ => 1)
    fun found after => Passed after found.spans := by
  refine Tracks.look ?_
  split
  · exact tracks_ranges.bind fun _ _ _ passed => Tracks.pure rfl passed
  · exact tracks_ranges.bind fun _ _ _ passed => Tracks.pure rfl passed
  · refine tracks_reservedNames.bind fun names rest _ passed => Tracks.pure rfl ?_
    rwa [← List.map_eq_flatMap] at passed
  · exact Tracks.unexpected

theorem tracks_reserved : Tracks limit lexemes (reserved kind) (fun _ => 1)
    fun found after => Passed after found.spans := by
  refine Tracks.leadingComments fun _ => Tracks.expect fun start rest later opened => ?_
  refine tracks_reservedItems.bind fun items rest afterItems passed => ?_
  refine tracks_terminator.bind fun ⟨stop, _⟩ rest afterStop closed => Tracks.pure rfl ?_
  have whole := closed.through opened.1 (Nat.le_trans later afterItems)
  exact passed_cons.mpr ⟨whole.before, passed.later afterStop⟩

/-- Ranges are passed with the statement that leaves them to extensions. -/
theorem tracks_extensionRanges : Tracks limit lexemes extensionRanges (fun _ => 1)
    fun found after => Passed after found.spans := by
  refine Tracks.leadingComments fun _ => Tracks.expect fun start rest later opened => ?_
  refine tracks_ranges.bind fun items rest afterItems passed => ?_
  refine tracks_optionalSettings.bind fun options rest afterOptions _ => ?_
  refine tracks_terminator.bind fun ⟨stop, _⟩ rest afterStop closed => Tracks.pure rfl ?_
  have whole := closed.through opened.1 (by omega)
  exact passed_cons.mpr ⟨whole.before, passed.later (Nat.le_trans afterOptions afterStop)⟩

/-! ### Enums -/

/-- A value is passed with its number. -/
theorem tracks_enumValue : Tracks limit lexemes enumValue (fun _ => 1)
    fun found after => Passed after found.spans := by
  refine Tracks.leadingComments fun _ => tracks_name.bind fun name rest _ nameReached => ?_
  refine Tracks.expect fun _ rest afterMark _ => ?_
  refine tracks_signedInt.bind fun number rest afterNumber numberReached => ?_
  refine Tracks.report ?_ ?_
  · rw [enumNumberFaults]
    split
    · exact passedFaults_nil
    · exact List.forall_mem_singleton.mpr (List.forall_mem_singleton.mpr numberReached.before)
  · refine tracks_optionalSettings.bind fun options rest afterOptions _ => ?_
    refine tracks_terminator.bind fun _ rest afterStop _ => Tracks.pure rfl ?_
    exact passed_cons.mpr ⟨nameReached.before.later (by omega),
      List.forall_mem_singleton.mpr (numberReached.before.later (by omega))⟩

/-- With one more member the places of all members are passed. -/
theorem tracksMember_enum : TracksMember limit enumMember Enumeration.spans := by
  intro enumeration next parser lexemes found before
  have known := before
  rw [Enumeration.spans, passed_cons, passed_append] at known
  obtain ⟨name, values, reserved⟩ := known
  unfold enumMember at found
  split at found
  · split_ifs at found with isOption isReserved
    all_goals obtain rfl := Option.some.inj found
    · exact tracks_optionStatement.bind fun _ rest later _ => Tracks.pure rfl (before.later later)
    · refine tracks_reserved.bind fun items rest later passed => Tracks.pure rfl ?_
      rw [Enumeration.spans, passed_cons, passed_append, passed_concat]
      exact ⟨name.later later, values.later later, reserved.later later, passed⟩
    · refine tracks_enumValue.bind fun value rest later passed => Tracks.pure rfl ?_
      rw [Enumeration.spans, passed_cons, passed_append, passed_concat]
      exact ⟨name.later later, ⟨values.later later, passed⟩, reserved.later later⟩
  · cases found

/-- An enum was passed when its body is closed, and so were the faults in it. -/
theorem tracks_enumeration : Tracks limit lexemes enumeration (fun _ => 1)
    fun found after => Passed after found.spans := by
  refine Tracks.leadingComments fun _ => Tracks.expect fun start rest _ _ => ?_
  refine tracks_name.bind fun name rest _ reached => ?_
  refine tracks_openBrace.bind fun trailing rest later _ => ?_
  refine (tracks_body tracksMember_enum ?_).bind fun ⟨read, stop⟩ rest _ passed => ?_
  · exact List.forall_mem_singleton.mpr (reached.before.later later)
  · exact Tracks.report (Enumeration.passedFaults passed) (Tracks.pure rfl passed)

/-! ### Services -/

/-- The word for a stream may be missing. -/
theorem tracks_streamWord : Tracks limit lexemes streamWord (fun _ => 0) fun _ _ => True := by
  refine Tracks.ahead fun tokens => ?_
  split
  · exact Tracks.advance_any.bind fun _ _ _ _ => Tracks.pure rfl trivial
  · exact Tracks.pure rfl trivial

theorem tracks_methodType : Tracks limit lexemes methodType (fun _ => 1)
    fun found after => found.2.span.Before after := by
  refine Tracks.expect fun _ rest _ _ => tracks_streamWord.bind fun streams rest _ _ => ?_
  refine tracks_typeName.bind fun name rest _ reached => ?_
  exact Tracks.expect fun _ rest later _ => Tracks.pure rfl (reached.before.later later)

theorem tracks_methodEnd : Tracks limit lexemes methodEnd (fun _ => 1) fun _ _ => True := by
  refine Tracks.look ?_
  split
  · exact tracks_terminator.bind fun _ _ _ _ => Tracks.pure rfl trivial
  · refine tracks_openBrace.bind fun trailing rest _ _ => ?_
    refine (tracks_body (?_ : TracksMember limit _ fun _ => []) passed_nil).bind fun _ _ _ _ =>
      Tracks.pure rfl trivial
    intro options next parser lexemes found _
    dsimp only at found
    split_ifs at found with isOption
    obtain rfl := Option.some.inj found
    exact tracks_optionStatement.bind fun _ _ _ _ => Tracks.pure rfl passed_nil
  · exact Tracks.unexpected

/-- A method is passed with the names of its types. -/
theorem tracks_method : Tracks limit lexemes method (fun _ => 1)
    fun found after => Passed after found.spans := by
  refine Tracks.leadingComments fun _ => Tracks.expect fun start rest _ _ => ?_
  refine tracks_name.bind fun name rest _ nameReached => ?_
  refine tracks_methodType.bind fun ⟨_, input⟩ rest afterInput inputBefore => ?_
  refine Tracks.expect fun _ rest afterWord _ => ?_
  refine tracks_methodType.bind fun ⟨_, output⟩ rest afterOutput outputBefore => ?_
  refine tracks_methodEnd.bind fun _ rest afterEnd _ => Tracks.pure rfl ?_
  rw [Method.spans, passed_cons, passed_cons, passed_cons]
  exact ⟨nameReached.before.later (by omega), inputBefore.later (by omega),
    outputBefore.later afterEnd, passed_nil⟩

theorem tracksMember_service : TracksMember limit serviceMember Service.spans := by
  intro service next parser lexemes found before
  have known := before
  rw [Service.spans, passed_cons] at known
  obtain ⟨name, methods⟩ := known
  unfold serviceMember at found
  split_ifs at found with isMethod isOption
  all_goals obtain rfl := Option.some.inj found
  · refine tracks_method.bind fun method rest later passed => Tracks.pure rfl ?_
    rw [Service.spans, passed_cons, passed_concat]
    exact ⟨name.later later, methods.later later, passed⟩
  · exact tracks_optionStatement.bind fun _ rest later _ => Tracks.pure rfl (before.later later)

/-- A service was passed when its body is closed. -/
theorem tracks_service : Tracks limit lexemes service (fun _ => 1)
    fun found after => Passed after found.spans := by
  refine Tracks.leadingComments fun _ => Tracks.expect fun start rest _ _ => ?_
  refine tracks_name.bind fun name rest _ reached => ?_
  refine tracks_openBrace.bind fun trailing rest later _ => ?_
  refine (tracks_body tracksMember_service ?_).bind fun ⟨read, stop⟩ rest _ passed => ?_
  · exact List.forall_mem_singleton.mpr (reached.before.later later)
  · exact Tracks.report (Service.passedFaults passed) (Tracks.pure rfl passed)

section Fields

variable {stop : Nat} {context : FieldContext}

/-! ### Labels -/

/-- What is wrong with a label is told at the label. -/
theorem passedFaults_required {edition : Option Edition} {span : Span} (passed : span.Before stop) :
    PassedFaults stop (requiredFaults edition context span) := by
  have single := List.forall_mem_singleton.mpr passed
  rw [requiredFaults]
  split
  · exact List.forall_mem_singleton.mpr single
  · split
    · exact List.forall_mem_singleton.mpr single
    · exact passedFaults_nil

/-- A label may be missing; if it is there, it is passed. -/
theorem tracks_fieldLabel : Tracks limit lexemes (fieldLabel context) (fun _ => 0)
    fun found after => Passed after found.2.toList := by
  have single {span : Span} {start after : Nat} (reached : span.From start after) :
      Passed after [span] := List.forall_mem_singleton.mpr reached.before
  refine Tracks.look ?_
  split
  · next head => exact Tracks.advance head fun _ _ _ reached => Tracks.pure rfl (single reached)
  · next head => exact Tracks.advance head fun _ _ _ reached => Tracks.pure rfl (single reached)
  · next head =>
    refine Tracks.advance head fun span rest _ reached => Tracks.edition fun declared => ?_
    exact Tracks.report (passedFaults_required reached.before) (Tracks.pure rfl (single reached))
  · exact Tracks.pure rfl passed_nil

/-! ### Types -/

theorem tracks_reference : Tracks limit lexemes reference (fun _ => 1)
    fun found after => found.span.From (position limit lexemes) after :=
  tracks_typeName.bind fun _ _ _ reached => Tracks.pure rfl reached

theorem tracks_valueType : Tracks limit lexemes valueType (fun _ => 1)
    fun found after => found.span.From (position limit lexemes) after := by
  refine Tracks.look ?_
  split
  · next head =>
    refine Tracks.ahead fun tokens => ?_
    split
    · exact Tracks.advance head fun _ _ _ reached => Tracks.pure rfl reached
    · exact tracks_reference
  · exact tracks_reference
  · exact Tracks.unexpected

/-- A map that is dropped was passed all the same, but there is no place of it to tell. -/
theorem tracks_mapType : Tracks limit lexemes mapType (fun _ => 1)
    fun found after => Passed after (found.toList.map FieldType.span) := by
  refine Tracks.expect fun start rest afterWord opened => Tracks.expect fun _ rest afterMark _ => ?_
  refine tracks_typeName.bind fun keyName rest afterKey reached => ?_
  refine Tracks.expect fun _ rest afterComma _ => tracks_valueType.bind fun value rest afterValue _ => ?_
  refine Tracks.expect fun stop rest afterStop closed => ?_
  split
  · have whole : (start.through stop).From (position limit lexemes) (position limit rest) :=
      closed.through opened.1 (by omega)
    exact Tracks.pure rfl (List.forall_mem_singleton.mpr whole.before)
  · refine Tracks.report (List.forall_mem_singleton.mpr (List.forall_mem_singleton.mpr ?_))
      (Tracks.pure rfl passed_nil)
    refine reached.before.later ?_
    omega

theorem tracks_fieldType : Tracks limit lexemes fieldType (fun _ => 1)
    fun found after => Passed after (found.toList.map FieldType.span) := by
  refine Tracks.ahead fun tokens => ?_
  split
  · exact tracks_mapType
  · exact tracks_valueType.bind fun _ _ _ reached =>
      Tracks.pure rfl (List.forall_mem_singleton.mpr reached.before)

/-! ### Fields -/

/-- What is wrong with a number is told at the number. -/
theorem passedFaults_fieldNumber {literal : IntLiteral} (passed : literal.span.Before stop) :
    PassedFaults stop (fieldNumberFaults literal) := by
  have single := List.forall_mem_singleton.mpr passed
  rw [fieldNumberFaults]
  split
  · exact List.forall_mem_singleton.mpr single
  · split
    · exact List.forall_mem_singleton.mpr single
    · split
      · exact passedFaults_nil
      · exact List.forall_mem_singleton.mpr single

theorem tracks_fieldNumber : Tracks limit lexemes fieldNumber (fun _ => 1)
    fun found after => found.span.From (position limit lexemes) after :=
  tracks_signedInt.bind fun _ _ _ reached =>
    Tracks.report (passedFaults_fieldNumber reached.before) (Tracks.pure rfl reached)

/-- A default value is reported at the name of the option, which is a single key. -/
theorem passedFaults_default {edition : Option Edition} {options : List OptionSetting}
    (passed : Passed stop (options.flatMap OptionSetting.keySpans)) :
    PassedFaults stop (defaultFaults edition options) := by
  rw [defaultFaults]
  split
  · refine List.forall_mem_map.mpr fun option member => List.forall_mem_singleton.mpr ?_
    obtain ⟨optionMember, named⟩ := List.mem_filter.mp member
    have keys := passed_flatMap.mp passed option optionMember
    rw [OptionSetting.isNamed] at named
    split at named
    · next name eq =>
      rw [OptionSetting.keySpans, eq] at keys
      have nameSpan : option.nameSpan = name.span := by
        rw [OptionSetting.nameSpan, eq]
        rfl
      rw [nameSpan]
      exact keys name.span List.mem_cons_self
    · cases named
  · exact passedFaults_nil

/-- A field is passed with all its parts, unless it is dropped. -/
theorem tracks_field : Tracks limit lexemes (field context) (fun _ => 1)
    fun found after => Passed after (found.toList.flatMap Field.spans) := by
  refine Tracks.leadingComments fun _ => Tracks.here fun start _ => ?_
  refine tracks_fieldLabel.bind fun ⟨label, labelSpan⟩ rest _ labelPassed => ?_
  refine Tracks.ahead fun tokens => ?_
  split
  · exact Tracks.stop_here GrammarCause.noConfusion
  · refine tracks_fieldType.bind fun type rest afterType typePassed => ?_
    refine tracks_name.bind fun name rest afterName nameReached => ?_
    refine Tracks.expect fun _ rest afterMark _ => ?_
    refine tracks_fieldNumber.bind fun number rest afterNumber numberReached => ?_
    refine tracks_optionalSettings.bind fun options rest afterOptions optionsPassed => ?_
    refine Tracks.edition fun declared => Tracks.report (passedFaults_default optionsPassed) ?_
    refine tracks_terminator.bind fun ⟨stop, trailing⟩ rest afterStop _ => Tracks.pure rfl ?_
    cases type with
    | none => exact passed_nil
    | some type =>
      refine passed_flatMap.mpr (List.forall_mem_singleton.mpr (Field.passed_spans.mpr ?_))
      exact
        { name := nameReached.before.later (by omega)
          number := numberReached.before.later (by omega)
          type := (typePassed type.span List.mem_cons_self).later (by omega)
          label := fun span found =>
            (labelPassed span (Option.mem_toList.mpr found)).later (by omega) }

end Fields

end Parser

end ProtoSchema
