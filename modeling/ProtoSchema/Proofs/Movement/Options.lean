/-
This file follows options on moved input. Nested messages are followed down to
the depth that they may nest to.
-/

import ProtoSchema.Grammar.Options
import ProtoSchema.Proofs.Movement.Phrases

namespace ProtoSchema

namespace Parser

variable {move : Move}

/-! ### Scalars -/

theorem moves_number : Moves move number number (OptionValue.moved move) fun _ => True := by
  refine Moves.here fun start => Moves.accept fun negative => ?_
  split
  on_goal 1 => refine Moves.accept fun _ => ?_
  -- A minus sign, a plus sign or none: what may follow is the same.
  all_goals
    refine Moves.look fun next => ?_
    split
    · exact Moves.advance fun _ => Moves.pure rfl trivial
    · exact Moves.advance fun _ => Moves.pure rfl trivial
    · exact Moves.advance fun _ => Moves.pure rfl trivial
    · exact Moves.advance fun _ => Moves.pure rfl trivial
    · exact Moves.unexpected

theorem moves_scalarValue {expected : String} :
    Moves move (scalarValue expected) (scalarValue expected) (OptionValue.moved move)
      fun _ => True := by
  refine Moves.look fun next => ?_
  split
  · split
    · exact Moves.advance fun _ => Moves.pure rfl trivial
    · split
      · exact Moves.advance fun _ => Moves.pure rfl trivial
      · split
        · exact moves_number
        · exact moves_name.bind fun _ _ => Moves.pure rfl trivial
  · exact moves_number
  · exact moves_number
  · exact moves_number
  · exact moves_number
  · exact moves_bytes.bind fun _ _ => Moves.pure rfl trivial
  · exact Moves.unexpected

/-! ### Messages in text format -/

section

variable {message : Parser OptionValue}

/-- Nested messages are read alike on moved input. -/
def MovesNested (move : Move) (message : Parser OptionValue) : Prop :=
  Moves move message message (OptionValue.moved move) fun _ => True

theorem moves_closingBracket : Moves move closingBracket closingBracket id fun _ => True := by
  refine Moves.look fun next => ?_
  split
  · exact Moves.pure rfl trivial
  · exact Moves.pure rfl trivial
  · exact Moves.unexpected

theorem moves_entryValue (nested : MovesNested move message) :
    Moves move (entryValue message) (entryValue message) (OptionValue.moved move)
      fun _ => True := by
  refine Moves.look fun next => ?_
  split
  · exact nested
  · exact nested
  · exact moves_scalarValue

theorem moves_array (nested : MovesNested move message) :
    Moves move (array message) (array message) (OptionValue.moved move) fun _ => True := by
  refine Moves.expect fun start => Moves.look fun next => ?_
  split
  · exact Moves.advance fun _ => Moves.pure rfl trivial
  · refine (moves_commaList (moves_entryValue nested)).bind fun values _ => ?_
    refine Moves.expect fun _ => Moves.pure ?_ trivial
    rw [OptionValue.moved, OptionValue.movedList_eq]
    rfl

theorem moves_bracketedKey {closing : Symbol} :
    Moves move (bracketedKey closing) (bracketedKey closing) (OptionKey.moved move)
      fun _ => True :=
  Moves.advance fun _ => moves_typeName.bind fun _ _ =>
    Moves.expect fun _ => Moves.pure rfl trivial

theorem moves_entryKey {closing : Symbol} :
    Moves move (entryKey closing) (entryKey closing) (OptionKey.moved move) fun _ => True := by
  refine Moves.look fun next => ?_
  split
  · exact moves_name.bind fun _ _ => Moves.pure rfl trivial
  · exact moves_bracketedKey
  · exact Moves.unexpected

theorem moves_entryRest (nested : MovesNested move message) :
    Moves move (entryRest message) (entryRest message) (OptionValue.moved move)
      fun _ => True := by
  refine Moves.look fun next => ?_
  split
  · refine Moves.advance fun _ => Moves.look fun next => ?_
    split
    · exact moves_array nested
    · exact moves_entryValue nested
  · exact nested
  · exact nested
  · exact moves_array nested
  · exact Moves.unexpected

theorem moves_separator : Moves move separator separator id fun _ => True := by
  refine Moves.look fun next => ?_
  split
  · exact Moves.advance fun _ => Moves.pure rfl trivial
  · exact Moves.advance fun _ => Moves.pure rfl trivial
  · exact Moves.pure rfl trivial

theorem moves_entry {closing : Symbol} (nested : MovesNested move message) :
    Moves move (entry message closing) (entry message closing) (OptionEntry.moved move)
      fun _ => True := by
  refine moves_entryKey.bind fun key _ => (moves_entryRest nested).bind fun value _ => ?_
  refine moves_separator.bind fun _ _ => Moves.pure ?_ trivial
  rw [OptionEntry.moved, OptionKey.span_moved, OptionValue.span_moved]
  rfl

theorem moves_entries {closing : Symbol} (nested : MovesNested move message) :
    Moves move (entries message closing) (entries message closing)
      (Prod.map (List.map (OptionEntry.moved move)) (Span.moved move)) fun _ => True := by
  refine Moves.repeating (List.map (OptionEntry.moved move)) (fun _ => True) trivial
    rfl fun found _ => Moves.look fun next => ?_
  split
  · exact Moves.advance fun _ => Moves.pure rfl trivial
  · refine (moves_entry nested).bind fun _ _ => Moves.pure ?_ trivial
    rw [Sum.map_inl, List.map_append, List.map_singleton]

end

theorem moves_aggregate (depth : Nat) : MovesNested move (aggregate depth) := by
  induction depth with
  | zero => exact moves_closingBracket.bind fun _ _ => Moves.here fun _ => Moves.stop
  | succ depth inductionHypothesis =>
    refine moves_closingBracket.bind fun closing _ => Moves.advance fun start => ?_
    refine (moves_entries inductionHypothesis).bind fun ⟨found, stop⟩ _ => Moves.pure ?_ trivial
    rw [OptionValue.moved, OptionEntry.movedList_eq]
    rfl

/-! ### Settings -/

theorem moves_optionKey :
    Moves move optionKey optionKey (OptionKey.moved move) fun _ => True := by
  refine Moves.look fun next => ?_
  split
  · exact moves_bracketedKey
  · exact moves_name.bind fun _ _ => Moves.pure rfl trivial
  · exact Moves.unexpected

theorem moves_optionName :
    Moves move optionName optionName (List.map (OptionKey.moved move)) fun _ => True := by
  refine moves_optionKey.bind fun first _ => ?_
  refine Moves.repeating (List.map (OptionKey.moved move)) (fun _ => True) trivial
    rfl fun keys _ => Moves.look fun next => ?_
  split
  · refine Moves.advance fun _ => moves_optionKey.bind fun _ _ => Moves.pure ?_ trivial
    rw [Sum.map_inl, List.map_append, List.map_singleton]
  · exact Moves.advance fun _ => Moves.pure rfl trivial
  · exact Moves.unexpected

theorem moves_setting :
    Moves move setting setting (OptionSetting.moved move) fun _ => True := by
  refine moves_optionName.bind fun name _ => Moves.look fun next => ?_
  split
  · exact (moves_aggregate _).bind fun _ _ => Moves.pure rfl trivial
  · exact moves_scalarValue.bind fun _ _ => Moves.pure rfl trivial

theorem moves_settingList :
    Moves move settingList settingList (List.map (OptionSetting.moved move)) fun _ => True := by
  refine Moves.expect fun _ => (moves_commaList moves_setting).bind fun settings _ => ?_
  exact Moves.expect fun _ => Moves.pure rfl trivial

theorem moves_optionalSettings :
    Moves move optionalSettings optionalSettings (List.map (OptionSetting.moved move))
      fun _ => True := by
  refine Moves.look fun next => ?_
  split
  · exact moves_settingList
  · exact Moves.pure rfl trivial
  · exact Moves.unexpected

theorem moves_optionStatement :
    Moves move optionStatement optionStatement (OptionStatement.moved move) fun _ => True := by
  refine moves_leadingComments.bind fun comments _ => Moves.expect fun start => ?_
  refine moves_setting.bind fun setting _ => moves_terminator.bind fun _ _ => ?_
  exact Moves.pure rfl trivial

end Parser

end ProtoSchema
