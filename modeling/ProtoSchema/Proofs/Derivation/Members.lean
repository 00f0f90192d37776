/-
This file writes down the grammar of enums, apart from the parser. Between the
braces stand statements that set options, statements that reserve, and values, in
any order, with semicolons that end nothing among them. What some tokens stand for,
and where it ends, is told by the tokens: the first token of a phrase tells which
one it is, and a list goes on as long as a mark follows its items.
-/

import ProtoSchema.Proofs.Derivation.Completeness

namespace ProtoSchema

/-! ### Statements that reserve -/

/-- An integer with a minus sign or without. -/
inductive IntegerPhrase : Phrase IntLiteral where
  | unsigned {lexeme : Lexeme} {value : UInt64} (isInt : lexeme.token = .int value) :
      IntegerPhrase [lexeme] ⟨false, value, lexeme.span⟩
  | minus {sign lexeme : Lexeme} {value : UInt64} (isSign : sign.token = .symbol .minus)
      (isInt : lexeme.token = .int value) :
      IntegerPhrase [sign, lexeme] ⟨true, value, sign.span.through lexeme.span⟩

/-- An integer, or the word for the greatest one. -/
inductive RangeEndPhrase : Phrase RangeEnd where
  | int {tokens : List Lexeme} {literal : IntLiteral} (isInt : IntegerPhrase tokens literal) :
      RangeEndPhrase tokens (.int literal)
  | max {lexeme : Lexeme} (isWord : lexeme.token = .word "max") :
      RangeEndPhrase [lexeme] (.max lexeme.span)

/-- An integer, or two with a word between them. -/
inductive RangePhrase : Phrase Range where
  | single {tokens : List Lexeme} {first : IntLiteral} (isFirst : IntegerPhrase tokens first) :
      RangePhrase tokens ⟨first, .absent⟩
  | range {tokens last : List Lexeme} {between : Lexeme} {first : IntLiteral} {bound : RangeEnd}
      (isFirst : IntegerPhrase tokens first) (isWord : between.token = .word "to")
      (isLast : RangeEndPhrase last bound) :
      RangePhrase (tokens ++ between :: last) ⟨first, bound⟩

/-- A string that is text. -/
inductive TextPhrase : Phrase Name where
  | text {tokens : List Lexeme} {bytes : Bytes} {span : Span} {text : String}
      (isString : StringPhrase tokens (bytes, span))
      (isText : String.fromUTF8? ⟨bytes.toArray⟩ = some text) :
      TextPhrase tokens ⟨text, span⟩

/-- Ranges with commas between them, or names. -/
inductive ReservedPhrase : Phrase ReservedItems where
  | ranges {tokens : List Lexeme} {ranges : List Range}
      (items : Separated .comma RangePhrase tokens ranges) : ReservedPhrase tokens (.ranges ranges)
  | names {tokens : List Lexeme} {names : List Name}
      (items : Separated .comma TextPhrase tokens names) : ReservedPhrase tokens (.names names)

/-! ### Members -/

/-- Settings in brackets, which may be left out. -/
inductive SettingsPhrase : Phrase (List OptionSetting) where
  | absent : SettingsPhrase [] []
  | list {first last : Lexeme} {tokens : List Lexeme} {settings : List OptionSetting}
      (isOpening : first.token = .symbol .leftBracket)
      (items : Separated .comma SettingPhrase tokens settings)
      (isClosing : last.token = .symbol .rightBracket) :
      SettingsPhrase (first :: tokens ++ [last]) settings

/-- What a member of an enum says. -/
inductive EnumMember where
  | option (setting : OptionSetting)
  | reserved (items : ReservedItems)
  | value (name : Name) (number : IntLiteral) (options : List OptionSetting)

namespace EnumMember

/-- What a member sets, if it is an option statement. -/
def option? : EnumMember → Option OptionSetting
  | option setting => some setting
  | _ => none

/-- What a member reserves, if it does. -/
def reserved? : EnumMember → Option ReservedItems
  | reserved items => some items
  | _ => none

/-- The name, number and options of a member that is a value. -/
def value? : EnumMember → Option (Name × IntLiteral × List OptionSetting)
  | value name number options => some (name, number, options)
  | _ => none

end EnumMember

/-- What stands between the first word of a member and its semicolon. The word tells of which kind
the member is. -/
inductive ContentPhrase (word : Lexeme) : Phrase EnumMember where
  | option {tokens : List Lexeme} {setting : OptionSetting} (isWord : word.token = .word "option")
      (isSetting : SettingPhrase tokens setting) : ContentPhrase word tokens (.option setting)
  | reserved {tokens : List Lexeme} {items : ReservedItems}
      (isWord : word.token = .word "reserved") (isItems : ReservedPhrase tokens items) :
      ContentPhrase word tokens (.reserved items)
  | value {equals : Lexeme} {tokens others : List Lexeme} {text : String} {number : IntLiteral}
      {options : List OptionSetting} (isWord : word.token = .word text)
      (isOther : text ∉ ["option", "reserved"]) (isEquals : equals.token = .symbol .equals)
      (isNumber : IntegerPhrase tokens number) (isSettings : SettingsPhrase others options) :
      ContentPhrase word (equals :: (tokens ++ others)) (.value ⟨text, word.span⟩ number options)

/-- A word, what belongs to it, and a semicolon. -/
inductive MemberPhrase : Phrase EnumMember where
  | member {first last : Lexeme} {tokens : List Lexeme} {member : EnumMember}
      (isContent : ContentPhrase first tokens member) (isEnd : last.token = .symbol .semicolon) :
      MemberPhrase (first :: tokens ++ [last]) member

/-! ### Enums -/

/-- Members that follow one another, with semicolons that end nothing. -/
inductive MembersPhrase : Phrase (List EnumMember) where
  | nil : MembersPhrase [] []
  | empty {semicolon : Lexeme} {tokens : List Lexeme} {members : List EnumMember}
      (isEmpty : semicolon.token = .symbol .semicolon) (others : MembersPhrase tokens members) :
      MembersPhrase (semicolon :: tokens) members
  | member {first tokens : List Lexeme} {member : EnumMember} {members : List EnumMember}
      (one : MemberPhrase first member) (others : MembersPhrase tokens members) :
      MembersPhrase (first ++ tokens) (member :: members)

/-- A word, a name, and members in braces. -/
inductive EnumPhrase : Phrase (Name × List EnumMember) where
  | enum {first second opening closing : Lexeme} {tokens : List Lexeme} {name : Name}
      {members : List EnumMember} (isWord : first.token = .word "enum")
      (isName : NamePhrase [second] name) (isOpening : opening.token = .symbol .leftBrace)
      (isMembers : MembersPhrase tokens members) (isClosing : closing.token = .symbol .rightBrace) :
      EnumPhrase (first :: (second :: (opening :: tokens)) ++ [closing]) (name, members)

/-! ### Phrases that end where they must -/

section Unambiguous

variable {Value : Type} {first second rest left tokens others : List Lexeme}

/-- What some tokens stand for, and where the phrase ends, is told by the tokens, if what may stand
behind it does. -/
def Unambiguous (phrase : Phrase Value) (ends : List Lexeme → Prop) : Prop :=
  ∀ {first second rest left : List Lexeme} {value other : Value}, phrase first value →
    phrase second other → first ++ rest = second ++ left → ends rest → ends left →
      value = other ∧ rest = left

/-- If the end is told as well, the tokens stand for no more than one value. -/
theorem Unambiguous.unique {phrase : Phrase Value} {value other : Value}
    (unambiguous : Unambiguous phrase fun _ => True) (isValue : phrase tokens value)
    (isOther : phrase tokens other) : value = other := by
  have same : tokens ++ [] = tokens ++ [] := rfl
  exact (unambiguous isValue isOther same trivial trivial).1

/-- The tokens start with a mark. -/
def StartsWith (mark : Symbol) (tokens : List Lexeme) : Prop :=
  ∃ first others, tokens = first :: others ∧ first.token = .symbol mark

/-- A phrase that a parser takes whole is unambiguous, as the parser answers but once. -/
theorem Unambiguous.of_parser {phrase : Phrase Value} {ends : List Lexeme → Prop}
    (parser : Parser Value) (setting : Setting)
    (takes : ∀ {tokens value rest}, phrase tokens value → ends rest →
      parser setting (tokens ++ rest) = .done value [] rest) : Unambiguous phrase ends := by
  intro first second rest left value other isFirst isSecond same ends endsLeft
  have done := takes isFirst ends
  rw [same, takes isSecond endsLeft] at done
  obtain ⟨rfl, -, rfl⟩ := Outcome.done.inj done
  exact ⟨rfl, rfl⟩

/-- A list starts with an item, and goes on behind a mark. -/
theorem Separated.cases_front {mark : Symbol} {item : Phrase Value} {values : List Value}
    (separated : Separated mark item tokens values) :
    ∃ first value, item first value ∧ (tokens = first ∧ values = [value] ∨
      ∃ between others following, tokens = first ++ between :: others ∧
        between.token = .symbol mark ∧ Separated mark item others following ∧
        values = value :: following) := by
  induction separated with
  | @single tokens value one => exact ⟨tokens, value, one, .inl ⟨rfl, rfl⟩⟩
  | @more tokens last between values value before isMark one inductionHypothesis =>
    obtain ⟨front, head, isItem, ⟨rfl, rfl⟩ |
      ⟨earlier, others, following, rfl, isEarlier, onward, rfl⟩⟩ := inductionHypothesis
    · exact ⟨tokens, head, isItem, .inr ⟨between, last, [value], rfl, isMark, .single one, rfl⟩⟩
    · refine ⟨front, head, isItem, .inr ⟨earlier, others ++ between :: last, following ++ [value],
        ?_, isEarlier, .more onward isMark one, rfl⟩⟩
      rw [List.append_assoc, List.cons_append]

/-- A list is unambiguous if its items are, before the mark and before the end. -/
theorem Unambiguous.separated {mark closing : Symbol} {item : Phrase Value}
    {ends : List Lexeme → Prop} (one : Unambiguous item ends)
    (between : ∀ {tokens}, StartsWith mark tokens → ends tokens)
    (last : ∀ {tokens}, StartsWith closing tokens → ends tokens) (differ : closing ≠ mark) :
    Unambiguous (Separated mark item) (StartsWith closing) := by
  intro first second rest left values others isFirst isSecond same closes closesLeft
  induction values generalizing first second others with
  | nil =>
    obtain ⟨_, _, -, ⟨-, absurdity⟩ | ⟨_, _, _, -, -, -, absurdity⟩⟩ := isFirst.cases_front
    all_goals cases absurdity
  | cons value values inductionHypothesis =>
    -- What stands behind the first items is either the end or a mark, and not both.
    have conflict {between : Lexeme} {behind tokens : List Lexeme}
        (closes : StartsWith closing tokens) (isMark : between.token = .symbol mark)
        (split : tokens = between :: behind) : False := by
      obtain ⟨head, _, rfl, isClosing⟩ := closes
      obtain ⟨rfl, -⟩ := List.cons.inj split
      exact differ (Token.symbol.inj (isClosing.symm.trans isMark))
    obtain ⟨front, head, isItem, ⟨rfl, heads⟩ |
      ⟨mark, onward, following, rfl, isMark, more, heads⟩⟩ := isFirst.cases_front
    all_goals
      obtain ⟨rfl, rfl⟩ := List.cons.inj heads
      obtain ⟨otherFront, otherHead, isOther, ⟨rfl, rfl⟩ |
        ⟨otherMark, otherOnward, otherFollowing, rfl, isOtherMark, otherMore, rfl⟩⟩ :=
        isSecond.cases_front
    · obtain ⟨rfl, rfl⟩ := one isItem isOther same (last closes) (last closesLeft)
      exact ⟨rfl, rfl⟩
    · rw [List.append_assoc, List.cons_append] at same
      obtain ⟨-, split⟩ := one isItem isOther same (last closes)
        (between ⟨otherMark, _, rfl, isOtherMark⟩)
      exact (conflict closes isOtherMark split).elim
    · rw [List.append_assoc, List.cons_append] at same
      obtain ⟨-, split⟩ := one isItem isOther same (between ⟨mark, _, rfl, isMark⟩)
        (last closesLeft)
      exact (conflict closesLeft isMark split.symm).elim
    · rw [List.append_assoc, List.cons_append, List.append_assoc, List.cons_append] at same
      obtain ⟨rfl, split⟩ := one isItem isOther same (between ⟨mark, _, rfl, isMark⟩)
        (between ⟨otherMark, _, rfl, isOtherMark⟩)
      obtain ⟨rfl, onwards⟩ := List.cons.inj split
      obtain ⟨rfl, rfl⟩ := inductionHypothesis more otherMore onwards
      exact ⟨rfl, rfl⟩

theorem StartsWith.stopsString {mark : Symbol} (starts : StartsWith mark tokens) :
    StopsString tokens := by
  obtain ⟨first, others, rfl, isMark⟩ := starts
  exact stopsString_of_symbol isMark

/-! Each phrase of an enum is unambiguous, if those that it is made of are. -/

/-- An integer starts neither with a word nor with a string. -/
theorem IntegerPhrase.exists_cons {literal : IntLiteral} (isInt : IntegerPhrase tokens literal) :
    ∃ first others, tokens = first :: others ∧
      (∀ text, first.token ≠ .word text) ∧ ∀ bytes, first.token ≠ .string bytes := by
  cases isInt with
  | @unsigned lexeme _ isInt => exact ⟨lexeme, [], rfl, by simp [isInt], by simp [isInt]⟩
  | @minus sign lexeme _ isSign isInt =>
    exact ⟨sign, [lexeme], rfl, by simp [isSign], by simp [isSign]⟩

theorem unambiguous_integer : Unambiguous IntegerPhrase fun _ => True := by
  intro first second rest left value other isFirst isSecond same _ _
  cases isFirst with
  | unsigned isInt =>
    cases isSecond with
    | unsigned isOther =>
      obtain ⟨rfl, rfl⟩ := List.cons.inj same
      obtain rfl := Token.int.inj (isInt.symm.trans isOther)
      exact ⟨rfl, rfl⟩
    | minus isSign =>
      obtain ⟨rfl, -⟩ := List.cons.inj same
      cases isInt.symm.trans isSign
  | minus isSign isInt =>
    cases isSecond with
    | unsigned isOther =>
      obtain ⟨rfl, -⟩ := List.cons.inj same
      cases isSign.symm.trans isOther
    | minus _ isOther =>
      obtain ⟨rfl, behind⟩ := List.cons.inj same
      obtain ⟨rfl, rfl⟩ := List.cons.inj behind
      obtain rfl := Token.int.inj (isInt.symm.trans isOther)
      exact ⟨rfl, rfl⟩

theorem unambiguous_rangeEnd : Unambiguous RangeEndPhrase fun _ => True := by
  intro first second rest left value other isFirst isSecond same _ _
  cases isFirst with
  | int isInt =>
    cases isSecond with
    | int isOther =>
      obtain ⟨rfl, rfl⟩ := unambiguous_integer isInt isOther same trivial trivial
      exact ⟨rfl, rfl⟩
    | max isWord =>
      obtain ⟨head, others, rfl, noWord, -⟩ := isInt.exists_cons
      obtain ⟨rfl, -⟩ := List.cons.inj same
      exact absurd isWord (noWord _)
  | max isWord =>
    cases isSecond with
    | int isOther =>
      obtain ⟨head, others, rfl, noWord, -⟩ := isOther.exists_cons
      obtain ⟨rfl, -⟩ := List.cons.inj same
      exact absurd isWord (noWord _)
    | max _ =>
      obtain ⟨rfl, rfl⟩ := List.cons.inj same
      exact ⟨rfl, rfl⟩

/-- A comma or a semicolon follows. -/
def EndsRange (tokens : List Lexeme) : Prop :=
  StartsWith .comma tokens ∨ StartsWith .semicolon tokens

theorem EndsRange.ne_word {lexeme : Lexeme} (ends : EndsRange (lexeme :: tokens)) (text : String) :
    lexeme.token ≠ .word text := by
  obtain ⟨_, _, same, isMark⟩ | ⟨_, _, same, isMark⟩ := ends
  all_goals
    obtain ⟨rfl, -⟩ := List.cons.inj same
    simp [isMark]

theorem unambiguous_range : Unambiguous RangePhrase EndsRange := by
  intro first second rest left value other isFirst isSecond same ends endsLeft
  cases isFirst with
  | single isInt =>
    cases isSecond with
    | single isOther =>
      obtain ⟨rfl, rfl⟩ := unambiguous_integer isInt isOther same trivial trivial
      exact ⟨rfl, rfl⟩
    | range isOther isWord =>
      rw [List.append_assoc] at same
      obtain ⟨-, rfl⟩ := unambiguous_integer isInt isOther same trivial trivial
      exact absurd isWord (ends.ne_word _)
  | range isInt isWord isLast =>
    rw [List.append_assoc] at same
    cases isSecond with
    | single isOther =>
      obtain ⟨-, rfl⟩ := unambiguous_integer isInt isOther same trivial trivial
      exact absurd isWord (endsLeft.ne_word _)
    | range isOther _ isOtherLast =>
      rw [List.append_assoc] at same
      obtain ⟨rfl, behind⟩ := unambiguous_integer isInt isOther same trivial trivial
      obtain ⟨rfl, lasts⟩ := List.cons.inj behind
      obtain ⟨rfl, rfl⟩ := unambiguous_rangeEnd isLast isOtherLast lasts trivial trivial
      exact ⟨rfl, rfl⟩

theorem unambiguous_text : Unambiguous TextPhrase StopsString := by
  intro first second rest left value other isFirst isSecond same ends endsLeft
  obtain ⟨isString, isText⟩ := isFirst
  obtain ⟨isOther, isOtherText⟩ := isSecond
  have unambiguous : Unambiguous StringPhrase StopsString :=
    Unambiguous.of_parser Parser.bytes ⟨none, 0, ⟨none, [], none⟩⟩ Parser.bytes_eq_done
  obtain ⟨found, rfl⟩ := unambiguous isString isOther same ends endsLeft
  obtain ⟨rfl, rfl⟩ := Prod.mk.inj found
  obtain rfl := Option.some.inj (isText.symm.trans isOtherText)
  exact ⟨rfl, rfl⟩

/-- What reserves starts with a string if it reserves names, and not if it reserves ranges. -/
theorem RangePhrase.exists_cons {range : Range} (isRange : RangePhrase tokens range) :
    ∃ first others, tokens = first :: others ∧ ∀ bytes, first.token ≠ .string bytes := by
  cases isRange with
  | single isInt =>
    obtain ⟨first, others, rfl, -, noString⟩ := isInt.exists_cons
    exact ⟨first, others, rfl, noString⟩
  | range isInt =>
    obtain ⟨first, others, rfl, -, noString⟩ := isInt.exists_cons
    exact ⟨first, _, rfl, noString⟩

theorem TextPhrase.exists_cons {name : Name} (isText : TextPhrase tokens name) :
    ∃ first others, tokens = first :: others ∧ ∃ bytes, first.token = .string bytes := by
  obtain ⟨isString, -⟩ := isText
  obtain ⟨first, bytes, others, rfl, isFirst⟩ := isString.exists_cons
  exact ⟨first, others, rfl, bytes, isFirst⟩

theorem unambiguous_reserved : Unambiguous ReservedPhrase (StartsWith .semicolon) := by
  intro first second rest left value other isFirst isSecond same ends endsLeft
  have conflict {first second rest left : List Lexeme} {ranges : List Range} {names : List Name}
      (items : Separated .comma RangePhrase first ranges)
      (texts : Separated .comma TextPhrase second names) (same : first ++ rest = second ++ left) :
      False := by
    obtain ⟨head, _, rfl, noString⟩ := Parser.exists_cons_of_separated
      (fun first => ∀ bytes, first.token ≠ .string bytes) items fun _ _ => RangePhrase.exists_cons
    obtain ⟨_, _, rfl, bytes, isString⟩ := Parser.exists_cons_of_separated
      (fun first => ∃ bytes, first.token = .string bytes) texts fun _ _ => TextPhrase.exists_cons
    obtain ⟨rfl, -⟩ := List.cons.inj same
    exact noString bytes isString
  cases isFirst with
  | ranges items =>
    cases isSecond with
    | ranges others =>
      obtain ⟨rfl, rfl⟩ := unambiguous_range.separated .inl .inr (by decide) items others same
        ends endsLeft
      exact ⟨rfl, rfl⟩
    | names texts => exact (conflict items texts same).elim
  | names texts =>
    cases isSecond with
    | ranges items => exact (conflict items texts same.symm).elim
    | names others =>
      obtain ⟨rfl, rfl⟩ := unambiguous_text.separated StartsWith.stopsString
        StartsWith.stopsString (by decide) texts others same ends endsLeft
      exact ⟨rfl, rfl⟩

theorem unambiguous_setting : Unambiguous SettingPhrase StopsString :=
  Unambiguous.of_parser Parser.setting ⟨none, 0, ⟨none, [], none⟩⟩ fun isSetting stops =>
    Parser.setting_eq_done isSetting fun _ _ _ => stops

theorem unambiguous_settings : Unambiguous SettingsPhrase (StartsWith .semicolon) := by
  intro first second rest left value other isFirst isSecond same ends endsLeft
  cases isFirst with
  | absent =>
    cases isSecond with
    | absent => exact ⟨rfl, same⟩
    | list isOpening =>
      obtain ⟨_, _, rfl, isEnd⟩ := ends
      obtain ⟨rfl, -⟩ := List.cons.inj same
      cases isEnd.symm.trans isOpening
  | list isOpening items isClosing =>
    cases isSecond with
    | absent =>
      obtain ⟨_, _, rfl, isEnd⟩ := endsLeft
      obtain ⟨rfl, -⟩ := List.cons.inj same
      cases isEnd.symm.trans isOpening
    | list _ otherItems isOtherClosing =>
      rw [bracketed_append, bracketed_append] at same
      obtain ⟨-, inside⟩ := List.cons.inj same
      have closes : StartsWith .rightBracket _ := ⟨_, rest, rfl, isClosing⟩
      have closesOther : StartsWith .rightBracket _ := ⟨_, left, rfl, isOtherClosing⟩
      obtain ⟨rfl, behind⟩ := unambiguous_setting.separated StartsWith.stopsString
        StartsWith.stopsString (by decide) items otherItems inside closes closesOther
      exact ⟨rfl, (List.cons.inj behind).2⟩

/-- Contents with another word are of another kind. -/
theorem unambiguous_content {word : Lexeme} :
    Unambiguous (ContentPhrase word) (StartsWith .semicolon) := by
  intro first second rest left member other isFirst isSecond same ends endsLeft
  cases isFirst with
  | option isWord isSetting =>
    cases isSecond with
    | option _ isOther =>
      obtain ⟨rfl, rfl⟩ := unambiguous_setting isSetting isOther same ends.stopsString
        endsLeft.stopsString
      exact ⟨rfl, rfl⟩
    | reserved isReserved => simp [isWord] at isReserved
    | value isName isOther => simp_all
  | reserved isWord isItems =>
    cases isSecond with
    | option isOption => simp [isWord] at isOption
    | reserved _ isOther =>
      obtain ⟨rfl, rfl⟩ := unambiguous_reserved isItems isOther same ends endsLeft
      exact ⟨rfl, rfl⟩
    | value isName isOther => simp_all
  | value isWord isOther isEquals isNumber isSettings =>
    cases isSecond with
    | option isOption => simp_all
    | reserved isReserved => simp_all
    | value isName _ _ isSecondNumber isSecondSettings =>
      obtain rfl := Token.word.inj (isWord.symm.trans isName)
      rw [List.cons_append, List.cons_append, List.append_assoc, List.append_assoc] at same
      obtain ⟨-, numbers⟩ := List.cons.inj same
      obtain ⟨rfl, settings⟩ := unambiguous_integer isNumber isSecondNumber numbers trivial trivial
      obtain ⟨rfl, rfl⟩ := unambiguous_settings isSettings isSecondSettings settings ends endsLeft
      exact ⟨rfl, rfl⟩

theorem unambiguous_member : Unambiguous MemberPhrase fun _ => True := by
  intro first second rest left member other isFirst isSecond same _ _
  obtain ⟨isContent, isEnd⟩ := isFirst
  obtain ⟨isOther, isOtherEnd⟩ := isSecond
  rw [bracketed_append, bracketed_append] at same
  obtain ⟨rfl, contents⟩ := List.cons.inj same
  obtain ⟨rfl, behind⟩ := unambiguous_content isContent isOther contents ⟨_, rest, rfl, isEnd⟩
    ⟨_, left, rfl, isOtherEnd⟩
  exact ⟨rfl, (List.cons.inj behind).2⟩

/-- A member starts with a word. -/
theorem MemberPhrase.exists_cons {member : EnumMember} (one : MemberPhrase tokens member) :
    ∃ first others text, tokens = first :: others ∧ first.token = .word text := by
  obtain ⟨isContent, -⟩ := one
  cases isContent with
  | option isWord => exact ⟨_, _, _, rfl, isWord⟩
  | reserved isWord => exact ⟨_, _, _, rfl, isWord⟩
  | value isWord => exact ⟨_, _, _, rfl, isWord⟩

/-- The members are told by the tokens up to the brace. -/
theorem unambiguous_members : Unambiguous MembersPhrase (StartsWith .rightBrace) := by
  intro first second rest left members others isFirst isSecond same closes closesLeft
  -- A brace starts neither a member nor an empty statement, and a member starts with a word.
  have noBrace {lexeme : Lexeme} {behind tokens : List Lexeme} {token : Token}
      (closes : StartsWith .rightBrace tokens) (split : tokens = lexeme :: behind)
      (isToken : lexeme.token = token) (other : token ≠ .symbol .rightBrace) : False := by
    obtain ⟨_, _, rfl, isBrace⟩ := closes
    obtain ⟨rfl, -⟩ := List.cons.inj split
    exact other (isToken.symm.trans isBrace)
  induction isFirst generalizing second others with
  | nil =>
    cases isSecond with
    | nil => exact ⟨rfl, same⟩
    | empty isEmpty => exact (noBrace closes same isEmpty (by simp)).elim
    | member one =>
      obtain ⟨_, _, _, rfl, isWord⟩ := one.exists_cons
      exact (noBrace closes same isWord (by simp)).elim
  | empty isEmpty _ inductionHypothesis =>
    cases isSecond with
    | nil => exact (noBrace closesLeft same.symm isEmpty (by simp)).elim
    | empty _ others => exact inductionHypothesis others (List.cons.inj same).2
    | member one =>
      obtain ⟨_, _, _, rfl, isWord⟩ := one.exists_cons
      obtain ⟨rfl, -⟩ := List.cons.inj same
      cases isEmpty.symm.trans isWord
  | member one _ inductionHypothesis =>
    cases isSecond with
    | nil =>
      obtain ⟨_, _, _, rfl, isWord⟩ := one.exists_cons
      exact (noBrace closesLeft same.symm isWord (by simp)).elim
    | empty isEmpty =>
      obtain ⟨_, _, _, rfl, isWord⟩ := one.exists_cons
      obtain ⟨rfl, -⟩ := List.cons.inj same
      cases isEmpty.symm.trans isWord
    | member other others =>
      rw [List.append_assoc, List.append_assoc] at same
      obtain ⟨rfl, behind⟩ := unambiguous_member one other same trivial trivial
      obtain ⟨rfl, rfl⟩ := inductionHypothesis others behind
      exact ⟨rfl, rfl⟩

/-- The name and the members of an enum are told by its tokens. -/
theorem unambiguous_enum : Unambiguous EnumPhrase fun _ => True := by
  intro first second rest left value other isFirst isSecond same _ _
  obtain ⟨-, ⟨isName⟩, -, isMembers, isClosing⟩ := isFirst
  obtain ⟨-, ⟨isOtherName⟩, -, isOtherMembers, isOtherClosing⟩ := isSecond
  rw [bracketed_append, bracketed_append] at same
  obtain ⟨-, names⟩ := List.cons.inj same
  obtain ⟨rfl, openings⟩ := List.cons.inj names
  obtain rfl := Token.word.inj (isName.symm.trans isOtherName)
  obtain ⟨-, inside⟩ := List.cons.inj openings
  obtain ⟨rfl, behind⟩ := unambiguous_members isMembers isOtherMembers inside
    ⟨_, rest, rfl, isClosing⟩ ⟨_, left, rfl, isOtherClosing⟩
  exact ⟨rfl, (List.cons.inj behind).2⟩

end Unambiguous

end ProtoSchema
