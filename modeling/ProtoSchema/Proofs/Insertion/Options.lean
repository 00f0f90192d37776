/-
This file carries options to other places. Nested messages are followed down to
the depth that they may nest to; the braces that close them are taken like any
other token.
-/

import ProtoSchema.Grammar.Options
import ProtoSchema.Proofs.Insertion.Phrases

namespace ProtoSchema

namespace Parser

variable {move : Move}

/-! ### Scalars -/

theorem carries_number :
    Carries move number number (OptionValue.moved move) fun _ => True := by
  intro head
  cases head with
  | none => exact CarriesAt.atEnd fun _ _ _ done => nomatch done
  | some first =>
    refine CarriesAt.here fun start => CarriesAt.accept fun negative => ?_
    split
    on_goal 1 => refine CarriesAt.accept fun _ => ?_
    -- A minus sign, a plus sign or none: what may follow is the same.
    all_goals
      refine CarriesAt.look ?_
      split
      · exact CarriesAt.advance fun _ => CarriesAt.pure rfl trivial
      · exact CarriesAt.advance fun _ => CarriesAt.pure rfl trivial
      · exact CarriesAt.advance fun _ => CarriesAt.pure rfl trivial
      · exact CarriesAt.advance fun _ => CarriesAt.pure rfl trivial
      · exact CarriesAt.unexpected

theorem carries_scalarValue {expected : String} :
    Carries move (scalarValue expected) (scalarValue expected) (OptionValue.moved move)
      fun _ => True := by
  refine CarriesAt.look ?_
  split
  · split
    · exact CarriesAt.advance fun _ => CarriesAt.pure rfl trivial
    · split
      · exact CarriesAt.advance fun _ => CarriesAt.pure rfl trivial
      · split
        · exact carries_number
        · exact carries_name.bind fun _ _ => CarriesAt.pure rfl trivial
  · exact carries_number
  · exact carries_number
  · exact carries_number
  · exact carries_number
  · exact carries_bytes.bind fun _ _ => CarriesAt.pure rfl trivial
  · exact CarriesAt.unexpected

/-! ### Messages in text format -/

section

variable {message : Parser OptionValue}

/-- Nested messages are carried. -/
def CarriesNested (move : Move) (message : Parser OptionValue) : Prop :=
  Carries move message message (OptionValue.moved move) fun _ => True

/-- The bracket that closes a message is known from the one that opens it, which is still there. -/
theorem CarriesAt.closingBracket {head : Option Token}
    {next otherNext : Symbol → Parser OptionValue} {image : OptionValue → OptionValue}
    {goal : OptionValue → Prop}
    (carries : ∀ token closing,
      CarriesAt move (some token) (next closing) (otherNext closing) image goal) :
    CarriesAt move head (closingBracket >>= next) (closingBracket >>= otherNext) image goal := by
  rw [Parser.closingBracket, bind_assoc, bind_assoc]
  refine CarriesAt.look ?_
  split
  · rw [pure_bind, pure_bind]
    exact carries _ _
  · rw [pure_bind, pure_bind]
    exact carries _ _
  · have stops (text : String) : Carries move (Parser.unexpected text : Parser Symbol)
        (Parser.unexpected text) id fun _ => False := CarriesAt.unexpected
    exact (stops _).bind fun _ unreachable => unreachable.elim

theorem carries_entryValue (nested : CarriesNested move message) :
    Carries move (entryValue message) (entryValue message) (OptionValue.moved move)
      fun _ => True := by
  refine CarriesAt.look ?_
  split
  · exact nested
  · exact nested
  · exact carries_scalarValue

theorem carries_array (nested : CarriesNested move message) :
    Carries move (array message) (array message) (OptionValue.moved move) fun _ => True := by
  refine CarriesAt.expect fun start => CarriesAt.look ?_
  split
  · next isBracket =>
    rw [isBracket]
    exact CarriesAt.advance fun _ => CarriesAt.pure rfl trivial
  · refine (carries_commaList (carries_entryValue nested)).bind fun values _ => ?_
    refine CarriesAt.expect fun _ => CarriesAt.pure ?_ trivial
    rw [OptionValue.moved, OptionValue.movedList_eq]
    rfl

theorem carries_bracketedKey {token : Token} {closing : Symbol} :
    CarriesAt move (some token) (bracketedKey closing) (bracketedKey closing)
      (OptionKey.moved move) fun _ => True :=
  CarriesAt.advance fun _ => carries_typeName.bind fun _ _ =>
    CarriesAt.expect fun _ => CarriesAt.pure rfl trivial

theorem carries_entryKey {closing : Symbol} :
    Carries move (entryKey closing) (entryKey closing) (OptionKey.moved move) fun _ => True := by
  refine CarriesAt.look ?_
  split
  · exact carries_name.bind fun _ _ => CarriesAt.pure rfl trivial
  · exact carries_bracketedKey
  · exact CarriesAt.unexpected

theorem carries_entryRest (nested : CarriesNested move message) :
    Carries move (entryRest message) (entryRest message) (OptionValue.moved move)
      fun _ => True := by
  refine CarriesAt.look ?_
  split
  · refine CarriesAt.advance fun _ => CarriesAt.look ?_
    split
    · exact carries_array nested
    · exact carries_entryValue nested
  · exact nested
  · exact nested
  · exact carries_array nested
  · exact CarriesAt.unexpected

theorem carries_separator : Carries move separator separator id fun _ => True := by
  refine CarriesAt.look ?_
  split
  · exact CarriesAt.advance fun _ => CarriesAt.pure rfl trivial
  · exact CarriesAt.advance fun _ => CarriesAt.pure rfl trivial
  · exact CarriesAt.pure rfl trivial

theorem carries_entry {closing : Symbol} (nested : CarriesNested move message) :
    Carries move (entry message closing) (entry message closing) (OptionEntry.moved move)
      fun _ => True := by
  refine carries_entryKey.bind fun key _ => (carries_entryRest nested).bind fun value _ => ?_
  refine carries_separator.bind fun _ _ => CarriesAt.pure ?_ trivial
  rw [OptionEntry.moved, OptionKey.span_moved, OptionValue.span_moved]
  rfl

theorem carries_entries {closing : Symbol} (nested : CarriesNested move message) :
    Carries move (entries message closing) (entries message closing)
      (Prod.map (List.map (OptionEntry.moved move)) (Span.moved move)) fun _ => True := by
  refine CarriesAt.repeating (List.map (OptionEntry.moved move)) (fun _ => True) trivial
    rfl fun found _ => CarriesAt.look ?_
  split
  · next isClosing =>
    rw [isClosing]
    exact CarriesAt.advance fun _ => CarriesAt.pure rfl trivial
  · refine (carries_entry nested).bind fun _ _ => CarriesAt.pure ?_ trivial
    rw [Sum.map_inl, List.map_append, List.map_singleton]

end

theorem carries_aggregate (depth : Nat) : CarriesNested move (aggregate depth) := by
  induction depth with
  | zero => exact CarriesAt.closingBracket fun _ _ => CarriesAt.hereStop
  | succ depth inductionHypothesis =>
    refine CarriesAt.closingBracket fun _ closing => CarriesAt.advance fun start => ?_
    refine (carries_entries inductionHypothesis).bind fun ⟨found, stop⟩ _ =>
      CarriesAt.pure ?_ trivial
    rw [OptionValue.moved, OptionEntry.movedList_eq]
    rfl

/-! ### Settings -/

theorem carries_optionKey :
    Carries move optionKey optionKey (OptionKey.moved move) fun _ => True := by
  refine CarriesAt.look ?_
  split
  · exact carries_bracketedKey
  · exact carries_name.bind fun _ _ => CarriesAt.pure rfl trivial
  · exact CarriesAt.unexpected

theorem carries_optionName :
    Carries move optionName optionName (List.map (OptionKey.moved move)) fun _ => True := by
  refine carries_optionKey.bind fun first _ => ?_
  refine CarriesAt.repeating (List.map (OptionKey.moved move)) (fun _ => True) trivial
    rfl fun keys _ => CarriesAt.look ?_
  split
  · refine CarriesAt.advance fun _ => carries_optionKey.bind fun _ _ => CarriesAt.pure ?_ trivial
    rw [Sum.map_inl, List.map_append, List.map_singleton]
  · exact CarriesAt.advance fun _ => CarriesAt.pure rfl trivial
  · exact CarriesAt.unexpected

theorem carries_setting :
    Carries move setting setting (OptionSetting.moved move) fun _ => True := by
  refine carries_optionName.bind fun name _ => CarriesAt.look ?_
  split
  · exact (carries_aggregate _).bind fun _ _ => CarriesAt.pure rfl trivial
  · exact carries_scalarValue.bind fun _ _ => CarriesAt.pure rfl trivial

theorem carries_settingList :
    Carries move settingList settingList (List.map (OptionSetting.moved move)) fun _ => True := by
  refine CarriesAt.expect fun _ => (carries_commaList carries_setting).bind fun settings _ => ?_
  exact CarriesAt.expect fun _ => CarriesAt.pure rfl trivial

theorem carries_optionalSettings :
    Carries move optionalSettings optionalSettings (List.map (OptionSetting.moved move))
      fun _ => True := by
  refine CarriesAt.look ?_
  split
  · exact carries_settingList
  · exact CarriesAt.pure rfl trivial
  · exact CarriesAt.unexpected

theorem carries_optionStatement :
    Carries move optionStatement optionStatement (OptionStatement.shifted move)
      fun _ => True := by
  refine CarriesAt.leadingComments fun comments => CarriesAt.expect fun start => ?_
  refine carries_setting.bind fun setting _ => carries_terminator.bind fun _ _ => ?_
  exact CarriesAt.pure rfl trivial

end Parser

end ProtoSchema
