/-
This file shows that whatever the parser of options takes derives from the grammar,
and that what it answers is what was derived. A string is taken with all the literals
that follow one another.
-/

import ProtoSchema.Grammar.Options
import ProtoSchema.Proofs.Derivation.Rules

namespace ProtoSchema

/-- No string literal follows. -/
def StopsString (rest : List Lexeme) : Prop :=
  ∀ next ∈ rest.head?, ∀ bytes, next.token ≠ .string bytes

/-- A value that is a string has all the literals that follow one another. -/
def OptionValue.Ends (value : OptionValue) (rest : List Lexeme) : Prop :=
  ∀ bytes span, value = .string bytes span → StopsString rest

/-- A number is no string, so another literal may follow it. -/
theorem Numeric.ends {negative : Bool} {span : Span} {token : Token} {value : OptionValue}
    (isNumber : Numeric negative span token value) (rest : List Lexeme) : value.Ends rest := by
  cases isNumber <;> rintro _ _ ⟨⟩

theorem NumberPhrase.ends {tokens : List Lexeme} {value : OptionValue}
    (isNumber : NumberPhrase tokens value) (rest : List Lexeme) : value.Ends rest := by
  cases isNumber with
  | unsigned isNumber => exact isNumber.ends rest
  | plus _ isNumber => exact isNumber.ends rest
  | minus _ isNumber => exact isNumber.ends rest

theorem MessagePhrase.ends {depth : Nat} {tokens : List Lexeme} {value : OptionValue}
    (isMessage : MessagePhrase depth tokens value) (rest : List Lexeme) : value.Ends rest := by
  cases depth with
  | zero => exact isMessage.elim
  | succ depth =>
    cases isMessage
    rintro _ _ ⟨⟩

namespace Parser

variable {input : List Lexeme}

/-! ### Names -/

/-- Each parser takes what derives, here a name and then the larger phrases. -/
theorem derives_name : Derives input name (AtFront NamePhrase input) := by
  refine Derives.look ?_
  split
  · next text looked =>
    obtain ⟨lexeme, rest, rfl, isWord⟩ := exists_lexeme_of_look looked
    exact Derives.advance (Derives.pure ⟨[lexeme], rfl, .word isWord⟩)
  · exact Derives.unexpected

/-- A path is taken part by part. -/
theorem derives_dottedName :
    Derives input dottedName fun name rest =>
      AtFront (Separated .dot NamePhrase) input name.parts rest := by
  refine derives_name.bind ?_
  rintro first rest ⟨taken, rfl, isName⟩
  refine Derives.repeating (AtFront (Separated .dot NamePhrase) (taken ++ rest))
    ⟨taken, rfl, .single isName⟩ ?_
  intro parts left before
  refine Derives.accept ?_ (Derives.pure before)
  rintro dot left rfl isDot
  refine derives_name.bind ?_
  rintro part rest ⟨last, rfl, isPart⟩
  exact Derives.pure (before.separated isDot isPart)

theorem derives_typeName : Derives input typeName (AtFront TypePhrase input) := by
  refine Derives.look ?_
  split
  · next looked =>
    obtain ⟨dot, rest, rfl, isDot⟩ := exists_lexeme_of_look looked
    refine Derives.advance (derives_dottedName.bind ?_)
    rintro path left ⟨taken, rfl, isPath⟩
    exact Derives.pure ⟨dot :: taken, rfl, .absolute isDot isPath⟩
  · refine derives_dottedName.bind ?_
    rintro path left ⟨taken, rfl, isPath⟩
    exact Derives.pure ⟨taken, rfl, .relative isPath⟩
  · exact Derives.unexpected

/-! ### Scalars -/

/-- A string is taken with all literals that follow one another. -/
theorem derives_bytes :
    Derives input bytes fun found rest =>
      AtFront StringPhrase input found rest ∧ StopsString rest := by
  refine Derives.look ?_
  split
  · next first looked =>
    obtain ⟨lexeme, rest, rfl, isString⟩ := exists_lexeme_of_look looked
    refine Derives.advance (Derives.repeating (AtFront StringPhrase (lexeme :: rest))
      ⟨[lexeme], rfl, .single isString⟩ ?_)
    rintro ⟨value, span⟩ left ⟨before, same, isBefore⟩
    refine Derives.look ?_
    split
    · next more looked =>
      obtain ⟨last, left, rfl, isString⟩ := exists_lexeme_of_look looked
      refine Derives.advance (Derives.pure ⟨before ++ [last], ?_, .more isBefore isString⟩)
      rw [same, List.append_assoc, List.singleton_append]
    · next ends =>
      refine Derives.pure ⟨⟨before, same, isBefore⟩, fun next isNext bytes isString => ?_⟩
      refine ends bytes ?_
      rw [isNext, Option.map_some, isString]
  · exact Derives.unexpected

/-- A number behind its sign, which starts at the given place. -/
def unsignedNumber (start : Span) (negative : Bool) : Parser OptionValue := do
  match ← look with
  | some (.word "inf") => return .float (.number negative .infinity) (start.through (← advance))
  | some (.word "nan") => return .float .nan (start.through (← advance))
  | some (.int value) => return .int ⟨negative, value, start.through (← advance)⟩
  | some (.float value) => return .float (.number negative value) (start.through (← advance))
  | _ => unexpected "a number"

theorem number_eq : number = (do
    let start ← here
    let negative ← accept (.symbol .minus)
    if !negative then
      let _ ← accept (.symbol .plus)
    unsignedNumber start negative) := rfl

/-- What stands behind a sign is one token. -/
theorem derives_unsignedNumber {start : Span} {negative : Bool} :
    Derives input (unsignedNumber start negative) fun value rest => ∃ lexeme,
      input = lexeme :: rest ∧ Numeric negative (start.through lexeme.span) lexeme.token value := by
  refine Derives.look ?_
  split
  · next looked =>
    obtain ⟨lexeme, rest, rfl, isToken⟩ := exists_lexeme_of_look looked
    exact Derives.advance (Derives.pure ⟨lexeme, rfl, isToken ▸ .infinity⟩)
  · next looked =>
    obtain ⟨lexeme, rest, rfl, isToken⟩ := exists_lexeme_of_look looked
    exact Derives.advance (Derives.pure ⟨lexeme, rfl, isToken ▸ .notANumber⟩)
  · next value looked =>
    obtain ⟨lexeme, rest, rfl, isToken⟩ := exists_lexeme_of_look looked
    exact Derives.advance (Derives.pure ⟨lexeme, rfl, isToken ▸ .int value⟩)
  · next value looked =>
    obtain ⟨lexeme, rest, rfl, isToken⟩ := exists_lexeme_of_look looked
    exact Derives.advance (Derives.pure ⟨lexeme, rfl, isToken ▸ .float value⟩)
  · exact Derives.unexpected

/-- The place of a number starts with its sign. -/
theorem derives_number : Derives input number (AtFront NumberPhrase input) := by
  rw [number_eq]
  refine Derives.here fun start isStart => Derives.accept ?minus (Derives.accept ?plus ?unsigned)
  case minus =>
    rintro sign rest rfl isSign
    obtain rfl := isStart sign rfl
    refine derives_unsignedNumber.mono ?_
    rintro value left ⟨lexeme, rfl, isNumber⟩
    exact ⟨[sign, lexeme], rfl, .minus isSign isNumber⟩
  case plus =>
    rintro sign rest rfl isSign
    obtain rfl := isStart sign rfl
    refine derives_unsignedNumber.mono ?_
    rintro value left ⟨lexeme, rfl, isNumber⟩
    exact ⟨[sign, lexeme], rfl, .plus isSign isNumber⟩
  case unsigned =>
    refine derives_unsignedNumber.mono ?_
    rintro value left ⟨lexeme, rfl, isNumber⟩
    obtain rfl := isStart lexeme rfl
    exact ⟨[lexeme], rfl, .unsigned isNumber⟩

/-- Which kind of value it is, is told by the first token. -/
theorem derives_scalarValue {expected : String} :
    Derives input (scalarValue expected) fun found rest =>
      AtFront ScalarPhrase input found rest ∧ found.Ends rest := by
  have derives_number : Derives input number fun found rest =>
      AtFront ScalarPhrase input found rest ∧ found.Ends rest := by
    refine derives_number.mono ?_
    rintro value rest ⟨taken, same, isNumber⟩
    exact ⟨⟨taken, same, .number isNumber⟩, isNumber.ends rest⟩
  refine Derives.look ?_
  split
  · next text looked =>
    obtain ⟨lexeme, rest, rfl, isWord⟩ := exists_lexeme_of_look looked
    split
    · next isTrue =>
      subst isTrue
      refine Derives.advance (Derives.pure ⟨⟨[lexeme], rfl, .true isWord⟩, ?_⟩)
      rintro _ _ ⟨⟩
    · next notTrue =>
      split
      · next isFalse =>
        subst isFalse
        refine Derives.advance (Derives.pure ⟨⟨[lexeme], rfl, .false isWord⟩, ?_⟩)
        rintro _ _ ⟨⟩
      · next notFalse =>
        split
        · exact derives_number
        · next noNumber =>
          refine derives_name.bind ?_
          rintro found left ⟨_, same, ⟨isName⟩⟩
          obtain ⟨rfl, rfl⟩ := List.cons.inj same
          obtain rfl := Token.word.inj (isWord.symm.trans isName)
          refine Derives.pure ⟨⟨[lexeme], rfl, .identifier (.word isWord) ?_⟩, ?_⟩
          · simp only [OptionValue.reservedWords, List.mem_cons, List.not_mem_nil, or_false, not_or]
            exact ⟨notTrue, notFalse, not_or.mp noNumber⟩
          · rintro _ _ ⟨⟩
  · exact derives_number
  · exact derives_number
  · exact derives_number
  · exact derives_number
  · refine derives_bytes.bind ?_
    rintro ⟨value, span⟩ rest ⟨⟨taken, same, isString⟩, ends⟩
    exact Derives.pure ⟨⟨taken, same, .string isString⟩, fun _ _ _ => ends⟩
  · exact Derives.unexpected

/-! ### Messages in text format -/

/-- A list derives item by item. -/
theorem derives_commaList {Value : Type} {item : Parser Value} {phrase : Phrase Value}
    {ends : Token → Bool} {expected : String}
    (one : ∀ input, Derives input item (AtFront phrase input)) :
    Derives input (commaList item ends expected) (AtFront (Separated .comma phrase) input) := by
  refine (one input).bind ?_
  rintro first rest ⟨taken, rfl, isItem⟩
  refine Derives.repeating (AtFront (Separated .comma phrase) (taken ++ rest))
    ⟨taken, rfl, .single isItem⟩ ?_
  intro items left before
  refine Derives.look ?_
  split
  · next looked =>
    obtain ⟨comma, left, rfl, isComma⟩ := exists_lexeme_of_look looked
    refine Derives.advance ((one left).bind ?_)
    rintro value rest ⟨last, rfl, isItem⟩
    exact Derives.pure (before.separated isComma isItem)
  · split
    · exact Derives.pure before
    · exact Derives.unexpected
  · exact Derives.unexpected

theorem derives_bracketedKey {opening closing : Symbol} {first : Lexeme}
    (isOpening : first.token = .symbol opening) :
    Derives (first :: input) (bracketedKey closing)
      (AtFront (KeyPhrase opening closing) (first :: input)) := by
  refine Derives.advance (derives_typeName.bind ?_)
  rintro name rest ⟨taken, rfl, isType⟩
  refine Derives.expect ?_
  rintro last left rfl isClosing
  exact Derives.pure ⟨first :: taken ++ [last], (bracketed_append ..).symm,
    .extension isOpening isType isClosing⟩

/-- The bracket that closes a message is told by the one that opens it, which is left. -/
theorem derives_closingBracket :
    Derives input closingBracket fun closing rest => rest = input ∧
      ∃ opening first others, input = first :: others ∧ first.token = .symbol opening ∧
        Brackets opening closing := by
  refine Derives.look ?_
  split
  · next looked =>
    obtain ⟨first, others, rfl, isOpening⟩ := exists_lexeme_of_look looked
    exact Derives.pure ⟨rfl, _, first, others, rfl, isOpening, .braces⟩
  · next looked =>
    obtain ⟨first, others, rfl, isOpening⟩ := exists_lexeme_of_look looked
    exact Derives.pure ⟨rfl, _, first, others, rfl, isOpening, .angles⟩
  · exact Derives.unexpected

section Messages

variable {message : Parser OptionValue} {phrase : Phrase OptionValue}

theorem derives_entryValue (nested : ∀ input, Derives input message (AtFront phrase input)) :
    Derives input (entryValue message) (AtFront (ValuePhrase phrase) input) := by
  have isMessage : Derives input message (AtFront (ValuePhrase phrase) input) := by
    refine (nested input).mono ?_
    rintro value rest ⟨taken, same, isMessage⟩
    exact ⟨taken, same, .message isMessage⟩
  refine Derives.look ?_
  split
  · exact isMessage
  · exact isMessage
  · refine derives_scalarValue.mono ?_
    rintro value rest ⟨⟨taken, same, isScalar⟩, -⟩
    exact ⟨taken, same, .scalar isScalar⟩

/-- An empty list is told by its closing bracket. -/
theorem derives_array (nested : ∀ input, Derives input message (AtFront phrase input)) :
    Derives input (array message) (AtFront (ArrayPhrase phrase) input) := by
  refine Derives.expect ?_
  rintro first rest rfl isOpening
  refine Derives.look ?_
  split
  · next looked =>
    obtain ⟨last, left, rfl, isClosing⟩ := exists_lexeme_of_look looked
    exact Derives.advance (Derives.pure ⟨[first, last], rfl, .empty isOpening isClosing⟩)
  · refine (derives_commaList fun input => derives_entryValue nested).bind ?_
    rintro values left ⟨taken, rfl, items⟩
    refine Derives.expect ?_
    rintro last left rfl isClosing
    exact Derives.pure ⟨first :: taken ++ [last], (bracketed_append ..).symm,
      .list isOpening items isClosing⟩

/-- A key is a name, or that of an extension in brackets. -/
theorem derives_entryKey {closing : Symbol} :
    Derives input (entryKey closing) (AtFront (KeyPhrase .leftBracket .rightBracket) input) := by
  refine Derives.look ?_
  split
  · refine derives_name.bind ?_
    rintro name rest ⟨taken, same, isName⟩
    exact Derives.pure ⟨taken, same, .plain isName⟩
  · next looked =>
    obtain ⟨first, rest, rfl, isOpening⟩ := exists_lexeme_of_look looked
    exact derives_bracketedKey isOpening
  · exact Derives.unexpected

/-- The colon may be missing before a message and before a list. -/
theorem derives_entryRest (nested : ∀ input, Derives input message (AtFront phrase input)) :
    Derives input (entryRest message) (AtFront (AssignmentPhrase phrase) input) := by
  have isMessage : Derives input message (AtFront (AssignmentPhrase phrase) input) := by
    refine (nested input).mono ?_
    rintro value rest ⟨taken, same, isMessage⟩
    exact ⟨taken, same, .message isMessage⟩
  refine Derives.look ?_
  split
  · next looked =>
    obtain ⟨colon, rest, rfl, isColon⟩ := exists_lexeme_of_look looked
    refine Derives.advance (Derives.look ?_)
    split
    · refine (derives_array nested).mono ?_
      rintro value left ⟨taken, rfl, isArray⟩
      exact ⟨colon :: taken, rfl, .colonArray isColon isArray⟩
    · refine (derives_entryValue nested).mono ?_
      rintro value left ⟨taken, rfl, isValue⟩
      exact ⟨colon :: taken, rfl, .colonValue isColon isValue⟩
  · exact isMessage
  · exact isMessage
  · refine (derives_array nested).mono ?_
    rintro value rest ⟨taken, same, isArray⟩
    exact ⟨taken, same, .array isArray⟩
  · exact Derives.unexpected

/-- A separator may be missing. -/
theorem derives_separator :
    Derives input separator fun _ rest =>
      ∃ taken, input = taken ++ rest ∧ SeparatorPhrase taken := by
  refine Derives.look ?_
  split
  · next looked =>
    obtain ⟨lexeme, rest, rfl, isComma⟩ := exists_lexeme_of_look looked
    exact Derives.advance (Derives.pure ⟨[lexeme], rfl, .comma isComma⟩)
  · next looked =>
    obtain ⟨lexeme, rest, rfl, isSemicolon⟩ := exists_lexeme_of_look looked
    exact Derives.advance (Derives.pure ⟨[lexeme], rfl, .semicolon isSemicolon⟩)
  · exact Derives.pure ⟨[], rfl, .absent⟩

/-- An entry is taken with the separator behind it. -/
theorem derives_entry (nested : ∀ input, Derives input message (AtFront phrase input))
    {closing : Symbol} :
    Derives input (entry message closing) (AtFront (EntryPhrase phrase) input) := by
  refine derives_entryKey.bind ?_
  rintro key rest ⟨first, rfl, isKey⟩
  refine (derives_entryRest nested).bind ?_
  rintro value left ⟨middle, rfl, isAssignment⟩
  refine derives_separator.bind ?_
  rintro _ left ⟨last, rfl, isSeparator⟩
  refine Derives.pure ⟨first ++ middle ++ last, ?_, .entry isKey isAssignment isSeparator⟩
  rw [List.append_assoc, List.append_assoc]

/-- The entries are taken with the bracket behind them. -/
theorem derives_entries (nested : ∀ input, Derives input message (AtFront phrase input))
    {closing : Symbol} :
    Derives input (entries message closing) fun found rest => ∃ taken last,
      input = taken ++ last :: rest ∧ Many (EntryPhrase phrase) taken found.1 ∧
        last.token = .symbol closing ∧ found.2 = last.span := by
  refine Derives.repeating (AtFront (Many (EntryPhrase phrase)) input) ⟨[], rfl, .nil⟩ ?_
  rintro found left ⟨before, same, many⟩
  refine Derives.look ?_
  split
  · next looked =>
    obtain ⟨last, rest, rfl, isClosing⟩ := exists_lexeme_of_look looked
    exact Derives.advance (Derives.pure ⟨before, last, same, many, isClosing, rfl⟩)
  · refine (derives_entry nested).bind ?_
    rintro entry rest ⟨last, rfl, isEntry⟩
    refine Derives.pure ⟨before ++ last, ?_, .more many isEntry⟩
    rw [same, List.append_assoc]

end Messages

/-- A message derives if others nest in it to no more than the depth. -/
theorem derives_aggregate (depth : Nat) :
    ∀ input, Derives input (aggregate depth) (AtFront (MessagePhrase depth) input) := by
  induction depth with
  | zero =>
    intro input
    exact derives_closingBracket.bind fun _ _ _ => Derives.here fun _ _ => Derives.stop
  | succ depth inductionHypothesis =>
    intro input
    refine derives_closingBracket.bind ?_
    rintro closing _ ⟨rfl, opening, first, others, rfl, isOpening, brackets⟩
    refine Derives.advance ((derives_entries inductionHypothesis).bind ?_)
    rintro ⟨found, _⟩ rest ⟨taken, last, rfl, isEntries, isClosing, rfl⟩
    exact Derives.pure ⟨first :: taken ++ [last], (bracketed_append ..).symm,
      .aggregate brackets isOpening isEntries isClosing⟩

/-! ### Settings -/

theorem derives_optionKey :
    Derives input optionKey (AtFront (KeyPhrase .leftParen .rightParen) input) := by
  refine Derives.look ?_
  split
  · next looked =>
    obtain ⟨first, rest, rfl, isOpening⟩ := exists_lexeme_of_look looked
    exact derives_bracketedKey isOpening
  · refine derives_name.bind ?_
    rintro name rest ⟨taken, same, isName⟩
    exact Derives.pure ⟨taken, same, .plain isName⟩
  · exact Derives.unexpected

/-- The name is taken with the equals sign behind it. -/
theorem derives_optionName :
    Derives input optionName fun name rest => ∃ taken equals,
      input = taken ++ equals :: rest ∧ OptionNamePhrase taken name ∧
        equals.token = .symbol .equals := by
  refine derives_optionKey.bind ?_
  rintro first rest ⟨taken, rfl, isKey⟩
  refine Derives.repeating (AtFront OptionNamePhrase (taken ++ rest))
    ⟨taken, rfl, .single isKey⟩ ?_
  intro keys left before
  refine Derives.look ?_
  split
  · next looked =>
    obtain ⟨dot, left, rfl, isDot⟩ := exists_lexeme_of_look looked
    refine Derives.advance (derives_optionKey.bind ?_)
    rintro key rest ⟨last, rfl, isKey⟩
    exact Derives.pure (before.separated isDot isKey)
  · next looked =>
    obtain ⟨equals, rest, rfl, isEquals⟩ := exists_lexeme_of_look looked
    obtain ⟨taken, same, isName⟩ := before
    exact Derives.advance (Derives.pure ⟨taken, equals, same, isName, isEquals⟩)
  · exact Derives.unexpected

/-- A value that is a message stands in braces here, not in angle brackets. -/
theorem derives_setting :
    Derives input setting fun found rest =>
      AtFront SettingPhrase input found rest ∧ found.value.Ends rest := by
  refine derives_optionName.bind ?_
  rintro name rest ⟨first, equals, rfl, isName, isEquals⟩
  refine Derives.look ?_
  split
  · next looked =>
    refine (derives_aggregate _ rest).bind ?_
    rintro value left ⟨tokens, rfl, isMessage⟩
    obtain ⟨opening, others, rfl, -⟩ := isMessage.exists_cons
    have inBraces : opening.token = .symbol .leftBrace := Option.some.inj looked
    refine Derives.pure ⟨⟨first ++ equals :: opening :: others, ?_,
      .message isName isEquals ?_ isMessage⟩, isMessage.ends left⟩
    · rw [List.append_assoc]
      rfl
    · rintro _ ⟨⟩
      exact inBraces
  · refine derives_scalarValue.bind ?_
    rintro value left ⟨⟨tokens, rfl, isScalar⟩, ends⟩
    refine Derives.pure ⟨⟨first ++ equals :: tokens, ?_, .scalar isName isEquals isScalar⟩, ends⟩
    rw [List.append_assoc, List.cons_append]

end Parser

end ProtoSchema
