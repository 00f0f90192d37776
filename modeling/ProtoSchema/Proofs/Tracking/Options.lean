/-
This file keeps track of options. Faults in what they say are found in their
names alone, so of a value no more is kept than that it takes a token. A message
that is nested too deeply stops at its bracket, before anything of it was taken.
-/

import ProtoSchema.Grammar.Options
import ProtoSchema.Proofs.Tracking.Faults
import ProtoSchema.Proofs.Tracking.Phrases

namespace ProtoSchema

namespace Parser

variable {limit : Nat} {lexemes : List Lexeme}

/-! ### Scalars -/

theorem tracks_number : Tracks limit lexemes number (fun _ => 1) fun _ _ => True := by
  refine Tracks.here fun start _ =>
    Tracks.accept (fun rest _ _ => ?_) (Tracks.accept (fun rest _ _ => ?_) ?_)
  -- A minus sign, a plus sign or none: what may follow is the same.
  all_goals
    refine Tracks.look ?_
    split
    · next head => exact Tracks.advance head fun _ _ _ _ => Tracks.pure rfl trivial
    · next head => exact Tracks.advance head fun _ _ _ _ => Tracks.pure rfl trivial
    · next value head => exact Tracks.advance head fun _ _ _ _ => Tracks.pure rfl trivial
    · next value head => exact Tracks.advance head fun _ _ _ _ => Tracks.pure rfl trivial
    · exact Tracks.unexpected

theorem tracks_scalarValue {expected : String} :
    Tracks limit lexemes (scalarValue expected) (fun _ => 1) fun _ _ => True := by
  refine Tracks.look ?_
  split
  · next text head =>
    split
    · exact Tracks.advance head fun _ _ _ _ => Tracks.pure rfl trivial
    · split
      · exact Tracks.advance head fun _ _ _ _ => Tracks.pure rfl trivial
      · split
        · exact tracks_number
        · exact tracks_name.bind fun _ _ _ _ => Tracks.pure rfl trivial
  · exact tracks_number
  · exact tracks_number
  · exact tracks_number
  · exact tracks_number
  · exact tracks_bytes.bind fun _ _ _ _ => Tracks.pure rfl trivial
  · exact Tracks.unexpected

/-! ### Messages in text format -/

/-- Nested messages take a token, wherever they stand. -/
def TracksNested (limit : Nat) (message : Parser OptionValue) : Prop :=
  ∀ lexemes, Tracks limit lexemes message (fun _ => 1) fun _ _ => True

section

variable {message : Parser OptionValue}

theorem tracks_entryValue (nested : TracksNested limit message) :
    Tracks limit lexemes (entryValue message) (fun _ => 1) fun _ _ => True := by
  refine Tracks.look ?_
  split
  · exact nested lexemes
  · exact nested lexemes
  · exact tracks_scalarValue

theorem tracks_array (nested : TracksNested limit message) :
    Tracks limit lexemes (array message) (fun _ => 1) fun _ _ => True := by
  refine Tracks.expect fun start rest _ _ => Tracks.look ?_
  split
  · next head => exact Tracks.advance head fun _ _ _ _ => Tracks.pure rfl trivial
  · have values : Tracks limit rest
        (commaList (entryValue message) (· = .symbol .rightBracket) "',' or ']'") (fun _ => 1)
        fun found after => Passed after (found.flatMap fun _ => []) :=
      tracks_commaList fun lexemes => (tracks_entryValue nested).mono (fun _ => Nat.le_refl _)
        fun _ _ _ => passed_nil
    exact values.bind fun _ _ _ _ => Tracks.expect fun _ _ _ _ => Tracks.pure rfl trivial

theorem tracks_bracketedKey {opening : Token} {closing : Symbol}
    (head : lexemes.head?.map (·.token) = some opening) :
    Tracks limit lexemes (bracketedKey closing) (fun _ => 1)
      fun found after => found.span.From (position limit lexemes) after := by
  refine Tracks.advance head fun start rest later reached => ?_
  refine tracks_typeName.bind fun name rest afterName _ => ?_
  refine Tracks.expect fun stop rest _ closed => Tracks.pure rfl ?_
  exact closed.through reached.1 (Nat.le_trans later afterName)

theorem tracks_entryKey {closing : Symbol} :
    Tracks limit lexemes (entryKey closing) (fun _ => 1) fun _ _ => True := by
  refine Tracks.look ?_
  split
  · exact tracks_name.bind fun _ _ _ _ => Tracks.pure rfl trivial
  · next head =>
    exact (tracks_bracketedKey head).mono (fun _ => Nat.le_refl _) fun _ _ _ => trivial
  · exact Tracks.unexpected

theorem tracks_entryRest (nested : TracksNested limit message) :
    Tracks limit lexemes (entryRest message) (fun _ => 0) fun _ _ => True := by
  refine Tracks.look ?_
  split
  · next head =>
    refine Tracks.advance head fun _ rest _ _ => Tracks.look ?_
    split
    · exact (tracks_array nested).fewer fun _ => Nat.zero_le _
    · exact (tracks_entryValue nested).fewer fun _ => Nat.zero_le _
  · exact (nested lexemes).fewer fun _ => Nat.zero_le _
  · exact (nested lexemes).fewer fun _ => Nat.zero_le _
  · exact (tracks_array nested).fewer fun _ => Nat.zero_le _
  · exact Tracks.unexpected

theorem tracks_separator : Tracks limit lexemes separator (fun _ => 0) fun _ _ => True := by
  refine Tracks.look ?_
  split
  · next head => exact Tracks.advance head fun _ _ _ _ => Tracks.pure rfl trivial
  · next head => exact Tracks.advance head fun _ _ _ _ => Tracks.pure rfl trivial
  · exact Tracks.pure rfl trivial

theorem tracks_entry {closing : Symbol} (nested : TracksNested limit message) :
    Tracks limit lexemes (entry message closing) (fun _ => 1) fun _ _ => True :=
  tracks_entryKey.bind fun _ _ _ _ => (tracks_entryRest nested).bind fun _ _ _ _ =>
    tracks_separator.bind fun _ _ _ _ => Tracks.pure rfl trivial

theorem tracks_entries {closing : Symbol} (nested : TracksNested limit message) :
    Tracks limit lexemes (entries message closing) (fun _ => 0) fun _ _ => True := by
  refine Tracks.repeating (fun _ _ => True) trivial fun found lexemes _ => Tracks.look ?_
  split
  · next head => exact Tracks.advance head fun _ _ _ _ => Tracks.pure rfl trivial
  · exact (tracks_entry nested).bind fun _ _ _ _ => Tracks.pure rfl trivial

end

/-- The bracket that opens a message is looked at, not taken. -/
theorem Tracks.closingBracket {Result : Type} {next : Symbol → Parser Result}
    {total : Result → Nat} {target : Result → Nat → Prop}
    (tracks : ∀ closing opening, lexemes.head?.map (·.token) = some opening →
      Tracks limit lexemes (next closing) total target) :
    Tracks limit lexemes (closingBracket >>= next) total target := by
  rw [Parser.closingBracket, bind_assoc]
  refine look ?_
  split
  · next head =>
    rw [pure_bind]
    exact tracks _ _ head
  · next head =>
    rw [pure_bind]
    exact tracks _ _ head
  · have never (expected : String) :
        Tracks limit lexemes (Parser.unexpected expected : Parser Symbol) (fun _ => 0)
          fun _ _ => False := unexpected
    exact (never _).bind fun _ _ _ => False.elim

theorem tracks_aggregate (depth : Nat) : TracksNested limit (aggregate depth) := by
  induction depth with
  | zero =>
    exact fun lexemes => Tracks.closingBracket fun _ _ _ => Tracks.stop_here GrammarCause.noConfusion
  | succ depth inductionHypothesis =>
    refine fun lexemes => Tracks.closingBracket fun closing _ head => ?_
    refine Tracks.advance head fun start rest _ _ => ?_
    exact (tracks_entries inductionHypothesis).bind fun _ _ _ _ => Tracks.pure rfl trivial

/-! ### Settings -/

theorem tracks_optionKey : Tracks limit lexemes optionKey (fun _ => 1)
    fun found after => found.span.From (position limit lexemes) after := by
  refine Tracks.look ?_
  split
  · next head => exact tracks_bracketedKey head
  · exact tracks_name.bind fun _ _ _ reached => Tracks.pure rfl reached
  · exact Tracks.unexpected

theorem tracks_optionName : Tracks limit lexemes optionName (fun _ => 1)
    fun found after => Passed after (found.map OptionKey.span) := by
  refine tracks_optionKey.bind fun first rest _ reached => ?_
  refine Tracks.repeating (fun keys after => Passed after (keys.map OptionKey.span))
    (passed_cons.mpr ⟨reached.before, passed_nil⟩) fun keys lexemes before => Tracks.look ?_
  split
  · next head =>
    refine Tracks.advance head fun _ rest afterDot _ => ?_
    refine tracks_optionKey.bind fun key rest afterKey reached => Tracks.pure rfl ?_
    rw [Sum.elim_inl, List.map_append, passed_append]
    exact ⟨before.later (Nat.le_trans afterDot afterKey), passed_cons.mpr ⟨reached.before, passed_nil⟩⟩
  · next head =>
    exact Tracks.advance head fun _ rest later _ => Tracks.pure rfl (before.later later)
  · exact Tracks.unexpected

theorem tracks_setting : Tracks limit lexemes setting (fun _ => 1)
    fun found after => Passed after found.keySpans := by
  refine tracks_optionName.bind fun name rest _ before => Tracks.look ?_
  split
  · exact (tracks_aggregate _ rest).bind fun _ _ later _ => Tracks.pure rfl (before.later later)
  · exact tracks_scalarValue.bind fun _ _ later _ => Tracks.pure rfl (before.later later)

theorem tracks_settingList : Tracks limit lexemes settingList (fun _ => 1)
    fun found after => Passed after (found.flatMap OptionSetting.keySpans) := by
  refine Tracks.expect fun _ rest _ _ => ?_
  refine (tracks_commaList fun lexemes => tracks_setting).bind fun settings rest _ before => ?_
  exact Tracks.expect fun _ _ later _ => Tracks.pure rfl (before.later later)

theorem tracks_optionalSettings : Tracks limit lexemes optionalSettings (fun _ => 0)
    fun found after => Passed after (found.flatMap OptionSetting.keySpans) := by
  refine Tracks.look ?_
  split
  · exact tracks_settingList.fewer fun _ => Nat.zero_le _
  · exact Tracks.pure rfl passed_nil
  · exact Tracks.unexpected

theorem tracks_optionStatement :
    Tracks limit lexemes optionStatement (fun _ => 1) fun _ _ => True := by
  refine Tracks.leadingComments fun _ => Tracks.expect fun _ _ _ _ => ?_
  refine tracks_setting.bind fun _ _ _ _ => ?_
  exact tracks_terminator.bind fun _ _ _ _ => Tracks.pure rfl trivial

end Parser

end ProtoSchema
