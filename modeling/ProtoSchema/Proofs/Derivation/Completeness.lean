/-
This file shows that the parser of options takes all of what derives from the
grammar, when nothing stands behind it that would be taken too: no dot behind a
name, no string literal behind a string. Inside of an option that follows from the
first token of the phrase that comes next. With what was shown before, the parser
takes exactly the options of the grammar.
-/

import ProtoSchema.Proofs.Derivation.Soundness

namespace ProtoSchema

variable {setting : Setting} {tokens rest : List Lexeme} {lexeme : Lexeme} {token : Token}

/-! ### First tokens -/

section FirstTokens

variable {value : OptionValue}

/-- A mark ends a string. -/
theorem stopsString_of_symbol {mark : Symbol} (isMark : lexeme.token = .symbol mark) :
    StopsString (lexeme :: rest) := by
  rintro _ ⟨⟩ bytes isString
  exact nomatch isMark.symm.trans isString

/-- A string starts with a literal. -/
theorem StringPhrase.exists_cons {found : Bytes × Span} (isString : StringPhrase tokens found) :
    ∃ first bytes others, tokens = first :: others ∧ first.token = .string bytes := by
  induction isString with
  | single isString => exact ⟨_, _, [], rfl, isString⟩
  | more _ _ inductionHypothesis =>
    obtain ⟨first, bytes, others, rfl, isFirst⟩ := inductionHypothesis
    exact ⟨first, bytes, _, rfl, isFirst⟩

/-- A number without a sign is no mark. -/
theorem Numeric.ne_symbol {negative : Bool} {span : Span}
    (isNumber : Numeric negative span token value) (mark : Symbol) : token ≠ .symbol mark := by
  cases isNumber <;> exact fun same => nomatch same

/-- If a number starts with a mark, that is its sign. -/
theorem NumberPhrase.exists_cons (isNumber : NumberPhrase tokens value) :
    ∃ first others, tokens = first :: others ∧
      ∀ mark, first.token = .symbol mark → mark ∈ [.plus, .minus] := by
  cases isNumber with
  | unsigned isNumber =>
    exact ⟨_, _, rfl, fun mark isMark => absurd isMark (isNumber.ne_symbol mark)⟩
  | plus isSign _ =>
    refine ⟨_, _, rfl, fun mark isMark => ?_⟩
    obtain rfl := Token.symbol.inj (isSign.symm.trans isMark)
    decide
  | minus isSign _ =>
    refine ⟨_, _, rfl, fun mark isMark => ?_⟩
    obtain rfl := Token.symbol.inj (isSign.symm.trans isMark)
    decide

/-- A scalar starts with no mark but a sign. -/
theorem ScalarPhrase.exists_cons (isScalar : ScalarPhrase tokens value) :
    ∃ first others, tokens = first :: others ∧
      ∀ mark, first.token = .symbol mark → mark ∈ [.plus, .minus] := by
  cases isScalar with
  | identifier isName =>
    obtain ⟨isWord⟩ := isName
    exact ⟨_, _, rfl, fun mark isMark => nomatch isWord.symm.trans isMark⟩
  | true isWord => exact ⟨_, _, rfl, fun mark isMark => nomatch isWord.symm.trans isMark⟩
  | false isWord => exact ⟨_, _, rfl, fun mark isMark => nomatch isWord.symm.trans isMark⟩
  | string isString =>
    obtain ⟨first, bytes, others, rfl, isFirst⟩ := isString.exists_cons
    exact ⟨first, others, rfl, fun mark isMark => nomatch isFirst.symm.trans isMark⟩
  | number isNumber => exact isNumber.exists_cons

end FirstTokens

namespace Parser

variable {Value Result : Type}

/-! ### Single tokens -/

/-- What is known of the next token is seen by looking. -/
theorem look_cons {next : Option Token → Parser Result} (isToken : lexeme.token = token) :
    (look >>= next) setting (lexeme :: rest) = next (some token) setting (lexeme :: rest) := by
  rw [look_bind, List.head?_cons, Option.map_some, isToken]

theorem advance_cons {next : Span → Parser Result} :
    (advance >>= next) setting (lexeme :: rest) = next lexeme.span setting rest :=
  after_nil _

theorem expect_cons {next : Span → Parser Result} (isToken : lexeme.token = token) :
    (expect token >>= next) setting (lexeme :: rest) = next lexeme.span setting rest := by
  have done : expect token setting (lexeme :: rest) = .done lexeme.span [] rest := by
    rw [expect, look_cons isToken, if_pos rfl]
    rfl
  exact bind_of_done done

theorem accept_cons {next : Bool → Parser Result} (isToken : lexeme.token = token) :
    (accept token >>= next) setting (lexeme :: rest) = next true setting rest := by
  have done : accept token setting (lexeme :: rest) = .done true [] rest := by
    rw [accept, look_cons isToken, if_pos rfl]
    rfl
  exact bind_of_done done

/-- A token that may be there is left alone if it is not. -/
theorem accept_other {next : Bool → Parser Result} {input : List Lexeme}
    (other : ∀ next ∈ input.head?, next.token ≠ token) :
    (accept token >>= next) setting input = next false setting input := by
  have noToken : input.head?.map (·.token) ≠ some token := by
    intro looked
    obtain ⟨next, isNext, same⟩ := Option.map_eq_some_iff.mp looked
    exact other next isNext same
  have done : accept token setting input = .done false [] input := by
    rw [accept, look_bind, if_neg noToken]
    rfl
  exact bind_of_done done

/-! ### Names -/

/-- Each parser takes all of what derives, here a name and then the larger phrases. -/
theorem name_eq_done {value : Name} (isName : NamePhrase tokens value) :
    name setting (tokens ++ rest) = .done value [] rest := by
  obtain ⟨isWord⟩ := isName
  exact (look_cons isWord).trans rfl

/-- A path goes on as long as dots follow, so no dot may stand behind it. -/
theorem dottedName_eq_done {parts : List Name} (isPath : Separated .dot NamePhrase tokens parts)
    (behind : ∀ next ∈ rest.head?, next.token ≠ .symbol .dot) :
    dottedName setting (tokens ++ rest) = .done ⟨parts⟩ [] rest := by
  refine separated_eq_done (fun _ => True) isPath
    (fun _ _ _ isName _ => name_eq_done isName) ?_ (fun _ _ _ => trivial) trivial
    (.last (accept_other behind))
  intro found dot tokens value rest isDot isName _
  exact (accept_cons isDot).trans ((bind_of_done (name_eq_done isName)).trans rfl)

/-- A list with marks between its items starts as its first item does. -/
theorem exists_cons_of_separated {mark : Symbol} {item : Phrase Value} {values : List Value}
    (starts : Lexeme → Prop) (separated : Separated mark item tokens values)
    (each : ∀ tokens value, item tokens value →
      ∃ first others, tokens = first :: others ∧ starts first) :
    ∃ first others, tokens = first :: others ∧ starts first := by
  induction separated with
  | single one => exact each _ _ one
  | more _ _ _ inductionHypothesis =>
    obtain ⟨first, others, rfl, isFirst⟩ := inductionHypothesis
    exact ⟨first, _, rfl, isFirst⟩

theorem typeName_eq_done {value : TypeName} (isType : TypePhrase tokens value)
    (behind : ∀ next ∈ rest.head?, next.token ≠ .symbol .dot) :
    typeName setting (tokens ++ rest) = .done value [] rest := by
  cases isType with
  | absolute isDot isPath =>
    refine (look_cons isDot).trans (advance_cons.trans ?_)
    exact (bind_of_done (dottedName_eq_done isPath behind)).trans rfl
  | relative isPath =>
    obtain ⟨first, others, rfl, text, isWord⟩ := exists_cons_of_separated
      (fun first => ∃ text, first.token = .word text) isPath fun _ _ isName => by
        obtain ⟨isWord⟩ := isName
        exact ⟨_, _, rfl, _, isWord⟩
    refine (look_cons isWord).trans ?_
    exact (bind_of_done (dottedName_eq_done isPath behind)).trans rfl

/-- The bracket that closes a key is no dot, so the name in it ends there. -/
theorem bracketedKey_eq_done {first last : Lexeme} {closing : Symbol} {name : TypeName}
    (isType : TypePhrase tokens name) (isClosing : last.token = .symbol closing)
    (noDot : closing ≠ .dot) :
    bracketedKey closing setting (first :: tokens ++ [last] ++ rest) =
      .done (.extension name (first.span.through last.span)) [] rest := by
  have behind : ∀ next ∈ (last :: rest).head?, next.token ≠ .symbol .dot := by
    rintro _ ⟨⟩ isDot
    exact noDot (Token.symbol.inj (isClosing.symm.trans isDot))
  rw [bracketed_append]
  refine advance_cons.trans ((bind_of_done (typeName_eq_done isType behind)).trans ?_)
  exact (expect_cons isClosing).trans rfl

theorem entryKey_eq_done {key : OptionKey} {closing : Symbol}
    (isKey : KeyPhrase .leftBracket .rightBracket tokens key) :
    entryKey closing setting (tokens ++ rest) = .done key [] rest := by
  cases isKey with
  | plain isName =>
    have named : name setting (tokens ++ rest) = _ := name_eq_done isName
    obtain ⟨isWord⟩ := isName
    exact (look_cons isWord).trans ((bind_of_done named).trans rfl)
  | extension isOpening isType isClosing =>
    exact (look_cons isOpening).trans (bracketedKey_eq_done isType isClosing (by decide))

theorem optionKey_eq_done {key : OptionKey} (isKey : KeyPhrase .leftParen .rightParen tokens key) :
    optionKey setting (tokens ++ rest) = .done key [] rest := by
  cases isKey with
  | plain isName =>
    have named : name setting (tokens ++ rest) = _ := name_eq_done isName
    obtain ⟨isWord⟩ := isName
    exact (look_cons isWord).trans ((bind_of_done named).trans rfl)
  | extension isOpening isType isClosing =>
    exact (look_cons isOpening).trans (bracketedKey_eq_done isType isClosing (by decide))

/-- The name of an option ends at the equals sign. -/
theorem optionName_eq_done {name : List OptionKey} {equals : Lexeme}
    (isName : OptionNamePhrase tokens name) (isEquals : equals.token = .symbol .equals) :
    optionName setting (tokens ++ equals :: rest) = .done name [] rest := by
  refine separated_eq_done (fun _ => True) isName
    (fun _ _ _ isKey _ => optionKey_eq_done isKey) ?_ (fun _ _ _ => trivial) trivial
    (.last ((look_cons isEquals).trans (advance_cons.trans rfl)))
  intro found dot tokens value rest isDot isKey _
  exact (look_cons isDot).trans
    (advance_cons.trans ((bind_of_done (optionKey_eq_done isKey)).trans rfl))

/-! ### Scalars -/

/-- The loop takes the literals behind the first one. -/
theorem loops_string {Result : Type} {step : Bytes × Span → Parser (Bytes × Span ⊕ Result)}
    {first : Lexeme} {others left : List Lexeme} {bytes : Bytes} {found : Bytes × Span}
    {result : Result} (isString : StringPhrase (first :: others) found)
    (isFirst : first.token = .string bytes)
    (more : ∀ value span last bytes rest, last.token = .string bytes →
      step (value, span) setting (last :: rest) =
        .done (.inl (value ++ bytes, span.through last.span)) [] rest)
    (go : Loops step setting found rest result left) :
    Loops step setting (bytes, first.span) (others ++ rest) result left := by
  generalize same : first :: others = tokens at isString
  induction isString generalizing others rest with
  | single isString =>
    obtain ⟨rfl, rfl⟩ := List.cons.inj same
    obtain rfl := Token.string.inj (isFirst.symm.trans isString)
    exact go
  | @more tokens value bytes span last before isString inductionHypothesis =>
    obtain ⟨_, _, later, rfl, -⟩ := before.exists_cons
    rw [List.cons_append] at same
    obtain ⟨rfl, rfl⟩ := List.cons.inj same
    rw [List.append_assoc]
    refine inductionHypothesis ?_ rfl
    exact .next (more value span last bytes rest isString) (Nat.lt_succ_self _) go

/-- A string is taken with all literals that follow one another. -/
theorem bytes_eq_done {found : Bytes × Span} (isString : StringPhrase tokens found)
    (behind : StopsString rest) : bytes setting (tokens ++ rest) = .done found [] rest := by
  obtain ⟨first, value, others, rfl, isFirst⟩ := isString.exists_cons
  refine (look_cons isFirst).trans (advance_cons.trans (Loops.repeating ?_))
  refine loops_string isString isFirst (fun value span last bytes rest isLast =>
    (look_cons isLast).trans (advance_cons.trans rfl)) (.last (look_bind.trans ?_))
  cases rest with
  | nil => rfl
  | cons next rest =>
    rw [List.head?_cons, Option.map_some]
    cases isToken : next.token with
    | string more => exact absurd isToken (behind next rfl more)
    | word | int | float | symbol => rfl

theorem unsignedNumber_eq_done {start : Span} {negative : Bool} {value : OptionValue}
    (isNumber : Numeric negative (start.through lexeme.span) lexeme.token value) :
    unsignedNumber start negative setting (lexeme :: rest) = .done value [] rest := by
  generalize isToken : lexeme.token = token at isNumber
  cases isNumber with
  | int value => exact (look_cons isToken).trans rfl
  | float value => exact (look_cons isToken).trans rfl
  | infinity => exact (look_cons isToken).trans rfl
  | notANumber => exact (look_cons isToken).trans rfl

theorem number_eq_done {value : OptionValue} (isNumber : NumberPhrase tokens value) :
    number setting (tokens ++ rest) = .done value [] rest := by
  have here_cons {first : Lexeme} {others : List Lexeme} {next : Span → Parser OptionValue} :
      (here >>= next) setting (first :: others) = next first.span setting (first :: others) :=
    after_nil _
  rw [number_eq]
  cases isNumber with
  | unsigned isNumber =>
    refine here_cons.trans ((accept_other ?_).trans ((accept_other ?_).trans
      (unsignedNumber_eq_done isNumber)))
    · rintro _ ⟨⟩
      exact isNumber.ne_symbol _
    · rintro _ ⟨⟩
      exact isNumber.ne_symbol _
  | plus isSign isNumber =>
    refine here_cons.trans ((accept_other ?_).trans ((accept_cons isSign).trans
      (unsignedNumber_eq_done isNumber)))
    rintro _ ⟨⟩
    rw [isSign]
    decide
  | minus isSign isNumber =>
    exact here_cons.trans ((accept_cons isSign).trans (unsignedNumber_eq_done isNumber))

theorem scalarValue_eq_number {expected : String} {value : OptionValue}
    (isNumber : NumberPhrase tokens value) :
    scalarValue expected setting (tokens ++ rest) = number setting (tokens ++ rest) := by
  cases isNumber with
  | @unsigned lexeme _ isNumber =>
    generalize isToken : lexeme.token = token at isNumber
    cases isNumber <;> exact (look_cons isToken).trans rfl
  | plus isSign _ => exact (look_cons isSign).trans rfl
  | minus isSign _ => exact (look_cons isSign).trans rfl

/-- What may not follow a value is another literal, if it is a string. -/
theorem scalarValue_eq_done {expected : String} {value : OptionValue}
    (isScalar : ScalarPhrase tokens value) (behind : value.Ends rest) :
    scalarValue expected setting (tokens ++ rest) = .done value [] rest := by
  cases isScalar with
  | identifier isName free =>
    have named : name setting (tokens ++ rest) = _ := name_eq_done isName
    obtain ⟨isWord⟩ := isName
    simp only [OptionValue.reservedWords, List.mem_cons, List.not_mem_nil, or_false, not_or] at free
    refine (look_cons isWord).trans ?_
    dsimp only
    rw [if_neg free.1, if_neg free.2.1, if_neg (not_or.mpr free.2.2)]
    exact (bind_of_done named).trans rfl
  | true isWord => exact (look_cons isWord).trans rfl
  | false isWord => exact (look_cons isWord).trans rfl
  | string isString =>
    have taken : bytes setting (tokens ++ rest) = _ := bytes_eq_done isString (behind _ _ rfl)
    obtain ⟨first, bytes, others, rfl, isFirst⟩ := isString.exists_cons
    exact (look_cons isFirst).trans ((bind_of_done taken).trans rfl)
  | number isNumber => exact (scalarValue_eq_number isNumber).trans (number_eq_done isNumber)

/-! ### Messages in text format -/

/-- Items are taken up to a token that ends them and is no comma. -/
theorem commaList_eq_done {item : Parser Value} {phrase : Phrase Value} {values : List Value}
    {ends : Token → Bool} {expected : String} {last : Lexeme} (follows : List Lexeme → Prop)
    (items : Separated .comma phrase tokens values)
    (one : ∀ tokens value rest, phrase tokens value → follows rest →
      item setting (tokens ++ rest) = .done value [] rest)
    (start : ∀ comma rest, comma.token = .symbol .comma → follows (comma :: rest))
    (behind : follows (last :: rest)) (noComma : last.token ≠ .symbol .comma)
    (isEnd : ends last.token = true) :
    commaList item ends expected setting (tokens ++ last :: rest) =
      .done values [] (last :: rest) := by
  refine separated_eq_done follows items one ?_ start behind (.last (look_bind.trans ?_))
  · intro found comma tokens value rest isComma isItem behind
    exact (look_cons isComma).trans
      (advance_cons.trans ((bind_of_done (one tokens value rest isItem behind)).trans rfl))
  · rw [List.head?_cons, Option.map_some]
    refine congrFun (congrFun
      (?_ : _ = (pure (Sum.inr values) : Parser (List Value ⊕ List Value))) setting) _
    split
    · next isComma => exact absurd (Option.some.inj isComma) noComma
    · next same =>
      obtain rfl := Option.some.inj same
      exact if_pos isEnd
    · next none => cases none

section Messages

/-- The parser takes the messages that are given, and they start with a bracket. -/
structure TakesMessages (setting : Setting) (message : Parser OptionValue)
    (phrase : Phrase OptionValue) : Prop where
  starts : ∀ tokens value, phrase tokens value → ∃ first others, tokens = first :: others ∧
    (first.token = .symbol .leftBrace ∨ first.token = .symbol .leftAngle)
  takes : ∀ tokens value rest, phrase tokens value →
    message setting (tokens ++ rest) = .done value [] rest

variable {message : Parser OptionValue} {phrase : Phrase OptionValue} {value : OptionValue}

/-- If a value starts with a mark, that is a sign or opens a message. -/
theorem exists_cons_of_value (nested : TakesMessages setting message phrase)
    (isValue : ValuePhrase phrase tokens value) :
    ∃ first others, tokens = first :: others ∧ ∀ mark, first.token = .symbol mark →
      mark ∈ [.plus, .minus, .leftBrace, .leftAngle] := by
  cases isValue with
  | message isMessage =>
    obtain ⟨first, others, rfl, isFirst⟩ := nested.starts _ _ isMessage
    refine ⟨first, others, rfl, fun mark isMark => ?_⟩
    rw [isMark] at isFirst
    rcases isFirst with ⟨⟨⟩⟩ | ⟨⟨⟩⟩ <;> decide
  | scalar isScalar =>
    obtain ⟨first, others, rfl, isFirst⟩ := isScalar.exists_cons
    refine ⟨first, others, rfl, fun mark isMark => ?_⟩
    exact List.mem_append_left [.leftBrace, .leftAngle] (isFirst mark isMark)

theorem entryValue_eq_done (nested : TakesMessages setting message phrase)
    (isValue : ValuePhrase phrase tokens value) (behind : StopsString rest) :
    entryValue message setting (tokens ++ rest) = .done value [] rest := by
  cases isValue with
  | message isMessage =>
    have taken := nested.takes tokens value rest isMessage
    obtain ⟨first, others, rfl, isBrace | isAngle⟩ := nested.starts tokens value isMessage
    · exact (look_cons isBrace).trans taken
    · exact (look_cons isAngle).trans taken
  | scalar isScalar =>
    have taken : scalarValue "a value" setting (tokens ++ rest) = .done value [] rest :=
      scalarValue_eq_done isScalar fun _ _ _ => behind
    obtain ⟨first, others, rfl, noBracket⟩ := isScalar.exists_cons
    refine Eq.trans ?_ taken
    refine (look_cons rfl).trans (congrFun (congrFun ?_ setting) _)
    split
    · next same => exact absurd (noBracket _ (Option.some.inj same)) (by decide)
    · next same => exact absurd (noBracket _ (Option.some.inj same)) (by decide)
    · rfl

/-- A list is taken up to its bracket. -/
theorem array_eq_done (nested : TakesMessages setting message phrase)
    (isArray : ArrayPhrase phrase tokens value) :
    array message setting (tokens ++ rest) = .done value [] rest := by
  cases isArray with
  | empty isOpening isClosing =>
    exact (expect_cons isOpening).trans ((look_cons isClosing).trans rfl)
  | @list first last tokens values isOpening items isClosing =>
    have taken : commaList (entryValue message) (· = .symbol .rightBracket) "',' or ']'" setting
        (tokens ++ last :: rest) = .done values [] (last :: rest) := by
      refine commaList_eq_done StopsString items
        (fun _ _ _ isValue behind => entryValue_eq_done nested isValue behind)
        (fun _ _ isComma => stopsString_of_symbol isComma) (stopsString_of_symbol isClosing) ?_
        (decide_eq_true isClosing)
      rw [isClosing]
      decide
    obtain ⟨start, others, rfl, isStart⟩ := exists_cons_of_separated
      (fun first => first.token ≠ .symbol .rightBracket) items fun _ _ isValue => by
        obtain ⟨first, others, rfl, marks⟩ := exists_cons_of_value nested isValue
        exact ⟨first, others, rfl, fun isEnd => absurd (marks _ isEnd) (by decide)⟩
    rw [bracketed_append]
    refine (expect_cons isOpening).trans ((look_cons rfl).trans ?_)
    rw [if_neg fun same => isStart (Option.some.inj same)]
    exact (bind_of_done taken).trans ((expect_cons isClosing).trans rfl)

theorem exists_cons_of_array (isArray : ArrayPhrase phrase tokens value) :
    ∃ first others, tokens = first :: others ∧ first.token = .symbol .leftBracket := by
  cases isArray with
  | empty isOpening => exact ⟨_, _, rfl, isOpening⟩
  | list isOpening => exact ⟨_, _, rfl, isOpening⟩

/-- The colon before messages and lists may be missing. -/
theorem entryRest_eq_done (nested : TakesMessages setting message phrase)
    (isAssignment : AssignmentPhrase phrase tokens value) (behind : StopsString rest) :
    entryRest message setting (tokens ++ rest) = .done value [] rest := by
  cases isAssignment with
  | colonValue isColon isValue =>
    have taken := entryValue_eq_done nested isValue behind
    obtain ⟨first, others, rfl, marks⟩ := exists_cons_of_value nested isValue
    refine (look_cons isColon).trans (advance_cons.trans ((look_cons rfl).trans ?_))
    rw [if_neg fun same => absurd (marks _ (Option.some.inj same)) (by decide)]
    exact taken
  | colonArray isColon isArray =>
    have taken : array message setting (_ ++ rest) = _ := array_eq_done nested isArray
    obtain ⟨first, others, rfl, isOpening⟩ := exists_cons_of_array isArray
    refine (look_cons isColon).trans (advance_cons.trans ((look_cons isOpening).trans ?_))
    exact taken
  | message isMessage =>
    have taken := nested.takes tokens value rest isMessage
    obtain ⟨first, others, rfl, isBrace | isAngle⟩ := nested.starts tokens value isMessage
    · exact (look_cons isBrace).trans taken
    · exact (look_cons isAngle).trans taken
  | array isArray =>
    have taken : array message setting (_ ++ rest) = _ := array_eq_done nested isArray
    obtain ⟨first, others, rfl, isOpening⟩ := exists_cons_of_array isArray
    exact (look_cons isOpening).trans taken

/-- What may follow an entry: nothing that its value or its separator would go on with. -/
structure StopsEntry (rest : List Lexeme) : Prop where
  string : StopsString rest
  separator : ∀ next ∈ rest.head?,
    next.token ≠ .symbol .comma ∧ next.token ≠ .symbol .semicolon

/-- A separator is taken if there is one, and none if there is not. -/
theorem separator_eq_done (isSeparator : SeparatorPhrase tokens) (behind : StopsEntry rest) :
    separator setting (tokens ++ rest) = .done () [] rest := by
  cases isSeparator with
  | comma isComma => exact (look_cons isComma).trans rfl
  | semicolon isSemicolon => exact (look_cons isSemicolon).trans rfl
  | absent =>
    refine look_bind.trans (congrFun (congrFun (?_ : _ = (pure () : Parser Unit)) setting) rest)
    split
    · next same =>
      obtain ⟨next, others, rfl, isComma⟩ := exists_lexeme_of_look same
      exact absurd isComma (behind.separator next rfl).1
    · next same =>
      obtain ⟨next, others, rfl, isSemicolon⟩ := exists_lexeme_of_look same
      exact absurd isSemicolon (behind.separator next rfl).2
    · rfl

/-- An entry is taken with its separator, before what may stand behind an entry. -/
theorem entry_eq_done (nested : TakesMessages setting message phrase) {entry : OptionEntry}
    {closing : Symbol} (isEntry : EntryPhrase phrase tokens entry) (behind : StopsEntry rest) :
    Parser.entry message closing setting (tokens ++ rest) = .done entry [] rest := by
  obtain @⟨first, middle, last, key, value, isKey, isAssignment, isSeparator⟩ := isEntry
  have valueEnds : StopsString (last ++ rest) := by
    cases isSeparator with
    | absent => exact behind.string
    | comma isComma => exact stopsString_of_symbol isComma
    | semicolon isSemicolon => exact stopsString_of_symbol isSemicolon
  rw [List.append_assoc, List.append_assoc]
  refine (bind_of_done (entryKey_eq_done isKey)).trans ?_
  refine (bind_of_done (entryRest_eq_done nested isAssignment valueEnds)).trans ?_
  exact (bind_of_done (separator_eq_done isSeparator behind)).trans rfl

/-- An entry starts with its key. -/
theorem exists_cons_of_entry {entry : OptionEntry} (isEntry : EntryPhrase phrase tokens entry) :
    ∃ first others, tokens = first :: others ∧
      ((∃ text, first.token = .word text) ∨ first.token = .symbol .leftBracket) := by
  obtain ⟨isKey, -, -⟩ := isEntry
  cases isKey with
  | plain isName =>
    obtain ⟨isWord⟩ := isName
    exact ⟨_, _, rfl, .inl ⟨_, isWord⟩⟩
  | extension isOpening => exact ⟨_, _, rfl, .inr isOpening⟩

/-- An entry may stand behind an entry, since it starts with a key. -/
theorem stopsEntry_of_entry {entry : OptionEntry} (isEntry : EntryPhrase phrase tokens entry) :
    StopsEntry (tokens ++ rest) := by
  obtain ⟨first, others, rfl, ⟨text, isWord⟩ | isOpening⟩ := exists_cons_of_entry isEntry
  · refine ⟨?_, ?_⟩
    · rintro _ ⟨⟩ bytes isString
      exact nomatch isWord.symm.trans isString
    · rintro _ ⟨⟩
      simp [isWord]
  · refine ⟨stopsString_of_symbol isOpening, ?_⟩
    rintro _ ⟨⟩
    simp [isOpening]

/-- The entries of a message are taken with the bracket that closes it. -/
theorem entries_eq_done (nested : TakesMessages setting message phrase) {last : Lexeme}
    {opening closing : Symbol} {found : List OptionEntry} (brackets : Brackets opening closing)
    (many : Many (EntryPhrase phrase) tokens found) (isClosing : last.token = .symbol closing) :
    entries message closing setting (tokens ++ last :: rest) =
      .done (found, last.span) [] rest := by
  have behind : StopsEntry (last :: rest) := by
    refine ⟨stopsString_of_symbol isClosing, ?_⟩
    rintro _ ⟨⟩
    cases brackets <;> simp [isClosing]
  refine (loops_many StopsEntry many ?_ ?_ behind (.last ?_)).repeating
  · intro before tokens entry rest isEntry behind
    have taken : Parser.entry message closing setting (tokens ++ rest) = _ :=
      entry_eq_done nested isEntry behind
    obtain ⟨first, others, rfl, isFirst⟩ := exists_cons_of_entry isEntry
    have goesOn : ¬ some first.token = some (.symbol closing) := by
      intro same
      rw [Option.some.inj same] at isFirst
      rcases isFirst with ⟨text, ⟨⟩⟩ | isOpening
      cases brackets <;> cases isOpening
    refine (look_cons rfl).trans ?_
    rw [if_neg goesOn]
    exact (bind_of_done taken).trans rfl
  · intro tokens entry rest isEntry
    obtain ⟨first, others, rfl, -⟩ := exists_cons_of_entry isEntry
    exact ⟨List.cons_ne_nil _ _, stopsEntry_of_entry isEntry⟩
  · refine (look_cons isClosing).trans ?_
    rw [if_pos rfl]
    rfl

end Messages

/-- Messages are taken whole if they nest to no more than the depth. -/
theorem takesMessages_aggregate (depth : Nat) :
    TakesMessages setting (aggregate depth) (MessagePhrase depth) := by
  refine ⟨fun _ _ isMessage => isMessage.exists_cons, ?_⟩
  induction depth with
  | zero => exact fun _ _ _ isMessage => isMessage.elim
  | succ depth inductionHypothesis =>
    have nested : TakesMessages setting (aggregate depth) (MessagePhrase depth) :=
      ⟨fun _ _ isMessage => isMessage.exists_cons, inductionHypothesis⟩
    rintro _ _ rest @⟨first, last, opening, closing, tokens, found, brackets, isOpening, isEntries,
      isClosing⟩
    -- The bracket that opens the message is looked at first, and only then taken.
    have opened : closingBracket setting (first :: tokens ++ [last] ++ rest) =
        .done closing [] (first :: tokens ++ [last] ++ rest) := by
      cases brackets <;> exact (look_cons isOpening).trans rfl
    refine (bind_of_done opened).trans ?_
    rw [bracketed_append]
    refine advance_cons.trans ?_
    exact (bind_of_done (entries_eq_done nested brackets isEntries isClosing)).trans rfl

/-! ### Settings -/

/-- A setting is taken whole if no literal follows that belongs to its value. -/
theorem setting_eq_done {found : OptionSetting} (isSetting : SettingPhrase tokens found)
    (behind : found.value.Ends rest) :
    Parser.setting setting (tokens ++ rest) = .done found [] rest := by
  cases isSetting with
  | @message first tokens equals name value isName isEquals inBraces isMessage =>
    have taken : aggregate 100 setting (tokens ++ rest) = .done value [] rest :=
      (takesMessages_aggregate 100).takes tokens value rest isMessage
    obtain ⟨opening, others, rfl, -⟩ := isMessage.exists_cons
    rw [List.append_assoc, List.cons_append]
    refine (bind_of_done (optionName_eq_done isName isEquals)).trans ?_
    refine (look_cons (inBraces opening rfl)).trans ?_
    rw [if_pos rfl]
    exact (bind_of_done taken).trans rfl
  | @scalar first tokens equals name value isName isEquals isScalar =>
    have taken : scalarValue "a constant" setting (tokens ++ rest) = .done value [] rest :=
      scalarValue_eq_done isScalar behind
    obtain ⟨start, others, rfl, noBracket⟩ := isScalar.exists_cons
    rw [List.append_assoc, List.cons_append]
    refine (bind_of_done (optionName_eq_done isName isEquals)).trans ((look_cons rfl).trans ?_)
    rw [if_neg fun same => absurd (noBracket _ (Option.some.inj same)) (by decide)]
    exact (bind_of_done taken).trans rfl

end Parser

/-- The parser of options takes exactly what derives from the grammar, finds no fault in it, and
answers what was derived; a string it takes to its last literal. -/
theorem setting_eq_done_iff (setting : Setting) (input : List Lexeme) (found : OptionSetting)
    (faults : List SemanticFault) (rest : List Lexeme) :
    Parser.setting setting input = .done found faults rest ↔
      faults = [] ∧ (∃ taken, input = taken ++ rest ∧ SettingPhrase taken found) ∧
        ∀ bytes span, found.value = .string bytes span →
          ∀ next ∈ rest.head?, ∀ more, next.token ≠ .string more := by
  constructor
  · intro done
    obtain ⟨⟨taken, rfl, isSetting⟩, behind⟩ := Parser.derives_setting setting found faults rest done
    have alone : Parser.setting setting (taken ++ rest) = .done found [] rest :=
      Parser.setting_eq_done isSetting behind
    exact ⟨(Outcome.done.inj (done.symm.trans alone)).2.1, ⟨taken, rfl, isSetting⟩, behind⟩
  · rintro ⟨rfl, ⟨taken, rfl, isSetting⟩, behind⟩
    exact Parser.setting_eq_done isSetting behind

/-- A message in angle brackets may be the value of an entry, but not that of an option. -/
theorem angles_stop_setting : ∃ name equals opening closing : Lexeme,
    [name, equals, opening, closing].map (·.token) =
        [.word "foo", .symbol .equals, .symbol .leftAngle, .symbol .rightAngle] ∧
      (∃ keys, OptionNamePhrase [name] keys) ∧
      (∃ value, MessagePhrase 100 [opening, closing] value) ∧
      ∀ setting found faults rest,
        Parser.setting setting [name, equals, opening, closing] ≠ .done found faults rest := by
  refine ⟨⟨.word "foo", ⟨0, 3⟩, ⟨none, [], none⟩, false⟩,
    ⟨.symbol .equals, ⟨4, 5⟩, ⟨none, [], none⟩, false⟩,
    ⟨.symbol .leftAngle, ⟨6, 7⟩, ⟨none, [], none⟩, false⟩,
    ⟨.symbol .rightAngle, ⟨7, 8⟩, ⟨none, [], none⟩, false⟩, rfl, ?_, ?_, ?_⟩
  · exact ⟨_, .single (.plain (.word rfl))⟩
  · exact ⟨.aggregate [] ⟨6, 8⟩, .aggregate .angles rfl .nil rfl⟩
  · intro setting found faults rest done
    cases done

end ProtoSchema
