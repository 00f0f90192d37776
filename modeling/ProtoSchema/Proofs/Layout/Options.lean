/-
This file places options. A message in text format stands between its brackets,
and its entries behind one another, each with a key in front of its value; so the
nesting of messages follows from that of one message in another.
-/

import ProtoSchema.Grammar.Options
import ProtoSchema.Proofs.Layout.Bodies

namespace ProtoSchema

/-- One more key ends the name of an option where the key ends. -/
theorem OptionSetting.nameSpan_concat {keys : List OptionKey} (nonempty : keys ≠ [])
    (last : OptionKey) (value : OptionValue) :
    (⟨keys ++ [last], value⟩ : OptionSetting).nameSpan =
      (⟨keys, value⟩ : OptionSetting).nameSpan.through last.span := by
  obtain ⟨first, rest, rfl⟩ := List.exists_cons_of_ne_nil nonempty
  rw [nameSpan, List.getLast?_concat]
  rfl

namespace Parser

open Outline (Placed Laid)

variable {source : List Char} {stream lexemes : List Lexeme}

/-! ### Scalars -/

theorem places_number : Places source stream lexemes number
    fun found after => Placed source (offset source lexemes) after found.outline := by
  have later := Nat.le_refl (offset source lexemes)
  refine Places.here fun start starts =>
    Places.accept (fun rest later => ?_) (Places.accept (fun rest later => ?_) ?_)
  -- A minus sign, a plus sign or none: the number starts at the sign, if there is one.
  all_goals
    refine Places.look ?_
    have leaf {last : Span} {token : Token} {after : Nat}
        (taken : Places.Taken source token _ after last) :
        Placed source (offset source lexemes) after (.leaf (start.through last)) :=
      .leaf (taken.reached.through starts later) taken.within
    split
    · next head => exact Places.advance head fun _ _ _ taken => Places.pure (leaf taken)
    · next head => exact Places.advance head fun _ _ _ taken => Places.pure (leaf taken)
    · next value head => exact Places.advance head fun _ _ _ taken => Places.pure (leaf taken)
    · next value head => exact Places.advance head fun _ _ _ taken => Places.pure (leaf taken)
    · exact Places.unexpected

theorem places_scalarValue {expected : String} :
    Places source stream lexemes (scalarValue expected)
      fun found after => Placed source (offset source lexemes) after found.outline := by
  refine Places.look ?_
  split
  · next text head =>
    have leaf {after : Nat} {span : Span}
        (taken : Places.Taken source (.word text) (offset source lexemes) after span) :
        Placed source (offset source lexemes) after (.leaf span) :=
      .leaf taken.reached taken.within
    split
    · exact Places.advance head fun _ _ _ taken => Places.pure (leaf taken)
    · split
      · exact Places.advance head fun _ _ _ taken => Places.pure (leaf taken)
      · split
        · exact places_number
        · exact places_name.bind fun _ _ _ placed => Places.pure placed
  · exact places_number
  · exact places_number
  · exact places_number
  · exact places_number
  · exact places_bytes.bind fun _ _ _ placed => Places.pure placed
  · exact Places.unexpected

/-! ### Messages in text format -/

/-- Nested messages have their places, wherever they stand. -/
def PlacesNested (source : List Char) (stream : List Lexeme) (message : Parser OptionValue) :
    Prop :=
  ∀ lexemes, Places source stream lexemes message
    fun found after => Placed source (offset source lexemes) after found.outline

section

variable {message : Parser OptionValue}

theorem places_entryValue (nested : PlacesNested source stream message) :
    Places source stream lexemes (entryValue message)
      fun found after => Placed source (offset source lexemes) after found.outline := by
  refine Places.look ?_
  split
  · exact nested lexemes
  · exact nested lexemes
  · exact places_scalarValue

theorem places_array (nested : PlacesNested source stream message) :
    Places source stream lexemes (array message)
      fun found after => Placed source (offset source lexemes) after found.outline := by
  refine Places.expect fun start rest later opened => Places.look ?_
  have nothing : Laid source (offset source rest) (offset source rest) [[]] :=
    .nil (Nat.le_refl _) (List.forall_mem_singleton.mpr rfl)
  split
  · next head =>
    refine Places.advance head fun stop rest _ closed => Places.pure ?_
    exact .enclose opened.reached.1 later nothing nothing (Nat.le_refl _) closed.reached
      closed.within
  · refine (places_commaList fun lexemes => places_entryValue nested).bind
      fun values rest _ laid => ?_
    refine Places.expect fun stop rest _ closed => Places.pure ?_
    rw [OptionValue.outline, OptionValue.outlines_eq]
    exact .enclose opened.reached.1 later nothing laid (Nat.le_refl _) closed.reached closed.within

theorem places_bracketedKey {opening : Token} {closing : Symbol}
    (head : lexemes.head?.map (·.token) = some opening) :
    Places source stream lexemes (bracketedKey closing)
      fun found after => Placed source (offset source lexemes) after found.outline := by
  refine Places.advance head fun start rest later opened => ?_
  refine places_typeName.bind fun name rest _ placed => ?_
  refine Places.expect fun stop rest _ closed => Places.pure ?_
  exact .enclose opened.reached.1 later placed.laid
    (.nil (Nat.le_refl _) fun _ member => absurd member List.not_mem_nil) (Nat.le_refl _)
    closed.reached closed.within

theorem places_entryKey {closing : Symbol} :
    Places source stream lexemes (entryKey closing)
      fun found after => Placed source (offset source lexemes) after found.outline := by
  refine Places.look ?_
  split
  · exact places_name.bind fun _ _ _ placed => Places.pure placed
  · next head => exact places_bracketedKey head
  · exact Places.unexpected

theorem places_entryRest (nested : PlacesNested source stream message) :
    Places source stream lexemes (entryRest message) fun found after =>
      ∃ first, offset source lexemes ≤ first ∧ Placed source first after found.outline := by
  have behind {first : Nat} {rest : List Lexeme} {parser : Parser OptionValue}
      (later : first ≤ offset source rest)
      (places : Places source stream rest parser
        fun found after => Placed source (offset source rest) after found.outline) :
      Places source stream rest parser fun found after =>
        ∃ ahead, first ≤ ahead ∧ Placed source ahead after found.outline :=
    places.mono fun _ _ placed => ⟨_, later, placed⟩
  refine Places.look ?_
  split
  · next head =>
    refine Places.advance head fun _ rest later _ => Places.look ?_
    split
    · exact behind later (places_array nested)
    · exact behind later (places_entryValue nested)
  · exact behind (Nat.le_refl _) (nested lexemes)
  · exact behind (Nat.le_refl _) (nested lexemes)
  · exact behind (Nat.le_refl _) (places_array nested)
  · exact Places.unexpected

theorem places_separator : Places source stream lexemes separator fun _ _ => True := by
  refine Places.look ?_
  split
  · next head => exact Places.advance head fun _ _ _ _ => Places.pure trivial
  · next head => exact Places.advance head fun _ _ _ _ => Places.pure trivial
  · exact Places.pure trivial

theorem places_entry {closing : Symbol} (nested : PlacesNested source stream message) :
    Places source stream lexemes (entry message closing)
      fun found after => Placed source (offset source lexemes) after found.outline := by
  refine places_entryKey.bind fun key rest _ keyPlaced => ?_
  refine (places_entryRest nested).bind fun value rest _ ⟨first, later, valuePlaced⟩ => ?_
  refine places_separator.bind fun _ rest afterValue _ => Places.pure ?_
  have whole := keyPlaced.alone.extend valuePlaced later
  rw [OptionKey.span_outline, OptionValue.span_outline] at whole
  exact whole.later afterValue

theorem places_entries {closing : Symbol} (nested : PlacesNested source stream message) :
    Places source stream lexemes (entries message closing) fun found after =>
      ∃ last, Laid source (offset source lexemes) last [found.1.map OptionEntry.outline] ∧
        found.2.From last after ∧ after ≤ byteLength source := by
  refine Places.repeating
    (fun found after => Laid source (offset source lexemes) after
      [found.map OptionEntry.outline])
    (.nil (Nat.le_refl _) (List.forall_mem_singleton.mpr rfl)) fun found lexemes laid =>
      Places.look ?_
  split
  · next head =>
    exact Places.advance head fun stop rest _ closed =>
      Places.pure ⟨_, laid, closed.reached, closed.within⟩
  · refine (places_entry nested).bind fun entry rest _ placed => Places.pure ?_
    rw [Sum.elim_inl, List.map_append]
    exact laid.append placed.laid

end

/-- The bracket that opens a message is looked at, not taken. -/
theorem Places.closingBracket {Result : Type} {next : Symbol → Parser Result}
    {target : Result → Nat → Prop}
    (places : ∀ closing opening, lexemes.head?.map (·.token) = some opening →
      Places source stream lexemes (next closing) target) :
    Places source stream lexemes (closingBracket >>= next) target := by
  rw [Parser.closingBracket, bind_assoc]
  refine look ?_
  split
  · next head =>
    rw [pure_bind]
    exact places _ _ head
  · next head =>
    rw [pure_bind]
    exact places _ _ head
  · have never (expected : String) :
        Places source stream lexemes (Parser.unexpected expected : Parser Symbol)
          fun _ _ => False := unexpected
    exact (never _).bind fun _ _ _ => False.elim

theorem places_aggregate (depth : Nat) : PlacesNested source stream (aggregate depth) := by
  induction depth with
  | zero =>
    exact fun lexemes => Places.closingBracket fun _ _ _ => Places.here fun _ _ => Places.stop
  | succ depth inductionHypothesis =>
    refine fun lexemes => Places.closingBracket fun closing _ head => ?_
    refine Places.advance head fun start rest later opened => ?_
    refine (places_entries inductionHypothesis).bind
      fun (found, stop) rest _ ⟨last, laid, closed, within⟩ => Places.pure ?_
    rw [OptionValue.outline, OptionEntry.outlines_eq]
    exact .enclose opened.reached.1 later
      (.nil (Nat.le_refl _) (List.forall_mem_singleton.mpr rfl)) laid (Nat.le_refl _) closed within

/-! ### Settings -/

theorem places_optionKey : Places source stream lexemes optionKey
    fun found after => Placed source (offset source lexemes) after found.outline := by
  refine Places.look ?_
  split
  · next head => exact places_bracketedKey head
  · exact places_name.bind fun _ _ _ placed => Places.pure placed
  · exact Places.unexpected

/-- The name of an option, whatever its value. -/
theorem places_optionName : Places source stream lexemes optionName fun found after =>
    ∀ value, Placed source (offset source lexemes) after
      (OptionSetting.nameOutline ⟨found, value⟩) := by
  refine places_optionKey.bind fun first rest _ placed => ?_
  refine Places.repeating (fun keys after => keys ≠ [] ∧ ∀ value,
    Placed source (offset source lexemes) after (OptionSetting.nameOutline ⟨keys, value⟩))
    ⟨List.cons_ne_nil _ _, fun value => ?_⟩
    fun keys lexemes ⟨nonempty, whole⟩ => Places.look ?_
  · have alone := placed.alone
    rw [OptionKey.span_outline] at alone
    exact alone
  · split
    · next head =>
      refine Places.advance head fun _ rest later _ => ?_
      refine places_optionKey.bind fun key rest _ placed =>
        Places.pure ⟨by simp, fun value => ?_⟩
      rw [OptionSetting.nameOutline, OptionSetting.nameSpan_concat nonempty, List.map_append,
        ← key.span_outline]
      exact (whole value).extend placed later
    · next head =>
      exact Places.advance head fun _ rest later _ =>
        Places.pure fun value => (whole value).later later
    · exact Places.unexpected

theorem places_setting : Places source stream lexemes setting
    fun found after => Placed source (offset source lexemes) after found.outline := by
  refine places_optionName.bind fun name rest _ named => Places.look ?_
  have whole {value : OptionValue} {after : Nat}
      (placed : Placed source (offset source rest) after value.outline) :
      Placed source (offset source lexemes) after (OptionSetting.outline ⟨name, value⟩) := by
    have extended := (named value).alone.extend placed (Nat.le_refl _)
    rw [OptionValue.span_outline] at extended
    exact extended
  split
  · exact (places_aggregate _ rest).bind fun value _ _ placed => Places.pure (whole placed)
  · exact places_scalarValue.bind fun value _ _ placed => Places.pure (whole placed)

theorem places_settingList : Places source stream lexemes settingList
    fun found after => Laid source (offset source lexemes) after
      [found.map OptionSetting.outline] := by
  refine Places.expect fun _ rest afterBracket _ => ?_
  refine (places_commaList fun lexemes => places_setting).bind fun settings rest _ laid => ?_
  exact Places.expect fun _ _ later _ => Places.pure (laid.widen afterBracket later)

theorem places_optionalSettings : Places source stream lexemes optionalSettings
    fun found after => Laid source (offset source lexemes) after
      [found.map OptionSetting.outline] := by
  refine Places.look ?_
  split
  · exact places_settingList
  · exact Places.pure (.nil (Nat.le_refl _) (List.forall_mem_singleton.mpr rfl))
  · exact Places.unexpected

theorem places_optionStatement : Places source stream lexemes optionStatement
    fun found after => Placed source (offset source lexemes) after found.outline := by
  refine Places.leadingComments fun _ => Places.expect fun start rest later opened => ?_
  refine places_setting.bind fun setting rest _ placed => ?_
  refine places_terminator.bind fun (stop, trailing) rest _ closed => Places.pure ?_
  exact .enclose opened.reached.1 later placed.laid
    (.nil (Nat.le_refl _) fun _ member => absurd member List.not_mem_nil) (Nat.le_refl _)
    closed.reached closed.within

end Parser

end ProtoSchema
