/-
This file writes down the grammar of options, apart from the parser. A phrase says
of some tokens, with their places, that they may stand for a value. Names, numbers
and strings are phrases of tokens; lists and messages in text format are put
together from them, where a message nests others up to a depth.
-/

import ProtoSchema.Proofs.Grammar.WellFormed
import ProtoSchema.Token.Lexeme

namespace ProtoSchema

/-- What tokens may stand for. -/
abbrev Phrase (Value : Type) := List Lexeme → Value → Prop

/-! ### Sequences -/

section Sequences

variable {Value : Type}

/-- Items that follow one another, perhaps none. -/
inductive Many (item : Phrase Value) : Phrase (List Value) where
  | nil : Many item [] []
  | more {tokens last : List Lexeme} {values : List Value} {value : Value}
      (before : Many item tokens values) (one : item last value) :
      Many item (tokens ++ last) (values ++ [value])

/-- Items with a mark between them, at least one. -/
inductive Separated (mark : Symbol) (item : Phrase Value) : Phrase (List Value) where
  | single {tokens : List Lexeme} {value : Value} (one : item tokens value) :
      Separated mark item tokens [value]
  | more {tokens last : List Lexeme} {between : Lexeme} {values : List Value} {value : Value}
      (before : Separated mark item tokens values) (isMark : between.token = .symbol mark)
      (one : item last value) :
      Separated mark item (tokens ++ between :: last) (values ++ [value])

end Sequences

/-! ### Names -/

/-- A word is a name, whichever it is. -/
inductive NamePhrase : Phrase Name where
  | word {lexeme : Lexeme} {text : String} (isWord : lexeme.token = .word text) :
      NamePhrase [lexeme] ⟨text, lexeme.span⟩

/-- Identifiers with dots between them, and perhaps one in front. -/
inductive TypePhrase : Phrase TypeName where
  | relative {tokens : List Lexeme} {parts : List Name}
      (isPath : Separated .dot NamePhrase tokens parts) : TypePhrase tokens ⟨none, ⟨parts⟩⟩
  | absolute {dot : Lexeme} {tokens : List Lexeme} {parts : List Name}
      (isDot : dot.token = .symbol .dot) (isPath : Separated .dot NamePhrase tokens parts) :
      TypePhrase (dot :: tokens) ⟨some dot.span, ⟨parts⟩⟩

/-- An identifier, or the name of an extension in the given brackets. -/
inductive KeyPhrase (opening closing : Symbol) : Phrase OptionKey where
  | plain {tokens : List Lexeme} {name : Name} (isName : NamePhrase tokens name) :
      KeyPhrase opening closing tokens (.plain name)
  | extension {first last : Lexeme} {tokens : List Lexeme} {name : TypeName}
      (isOpening : first.token = .symbol opening) (isType : TypePhrase tokens name)
      (isClosing : last.token = .symbol closing) :
      KeyPhrase opening closing (first :: tokens ++ [last])
        (.extension name (first.span.through last.span))

/-! ### Scalars -/

/-- String literals that follow one another are one string. -/
inductive StringPhrase : Phrase (Bytes × Span) where
  | single {first : Lexeme} {bytes : Bytes} (isString : first.token = .string bytes) :
      StringPhrase [first] (bytes, first.span)
  | more {tokens : List Lexeme} {value bytes : Bytes} {span : Span} {last : Lexeme}
      (before : StringPhrase tokens (value, span)) (isString : last.token = .string bytes) :
      StringPhrase (tokens ++ [last]) (value ++ bytes, span.through last.span)

/-- What a token stands for that is a number without a sign of its own. -/
inductive Numeric (negative : Bool) (span : Span) : Token → OptionValue → Prop where
  | int (value : UInt64) : Numeric negative span (.int value) (.int ⟨negative, value, span⟩)
  | float (value : Magnitude) :
      Numeric negative span (.float value) (.float (.number negative value) span)
  | infinity : Numeric negative span (.word "inf") (.float (.number negative .infinity) span)
  | notANumber : Numeric negative span (.word "nan") (.float .nan span)

/-- A number with a sign or without. A plus changes nothing but the place. -/
inductive NumberPhrase : Phrase OptionValue where
  | unsigned {lexeme : Lexeme} {value : OptionValue}
      (isNumber : Numeric false lexeme.span lexeme.token value) : NumberPhrase [lexeme] value
  | plus {sign lexeme : Lexeme} {value : OptionValue} (isSign : sign.token = .symbol .plus)
      (isNumber : Numeric false (sign.span.through lexeme.span) lexeme.token value) :
      NumberPhrase [sign, lexeme] value
  | minus {sign lexeme : Lexeme} {value : OptionValue} (isSign : sign.token = .symbol .minus)
      (isNumber : Numeric true (sign.span.through lexeme.span) lexeme.token value) :
      NumberPhrase [sign, lexeme] value

/-- A value of one kind each. Words that are values of their own are no identifiers here. -/
inductive ScalarPhrase : Phrase OptionValue where
  | identifier {tokens : List Lexeme} {name : Name} (isName : NamePhrase tokens name)
      (free : name.text ∉ OptionValue.reservedWords) : ScalarPhrase tokens (.identifier name)
  | true {lexeme : Lexeme} (isWord : lexeme.token = .word "true") :
      ScalarPhrase [lexeme] (.bool true lexeme.span)
  | false {lexeme : Lexeme} (isWord : lexeme.token = .word "false") :
      ScalarPhrase [lexeme] (.bool false lexeme.span)
  | string {tokens : List Lexeme} {bytes : Bytes} {span : Span}
      (isString : StringPhrase tokens (bytes, span)) : ScalarPhrase tokens (.string bytes span)
  | number {tokens : List Lexeme} {value : OptionValue} (isNumber : NumberPhrase tokens value) :
      ScalarPhrase tokens value

/-! ### Messages in text format -/

section Messages

variable (message : Phrase OptionValue)

/-- A nested message or a scalar. -/
inductive ValuePhrase : Phrase OptionValue where
  | message {tokens : List Lexeme} {value : OptionValue} (isMessage : message tokens value) :
      ValuePhrase tokens value
  | scalar {tokens : List Lexeme} {value : OptionValue} (isScalar : ScalarPhrase tokens value) :
      ValuePhrase tokens value

/-- A list in brackets. -/
inductive ArrayPhrase : Phrase OptionValue where
  | empty {first last : Lexeme} (isOpening : first.token = .symbol .leftBracket)
      (isClosing : last.token = .symbol .rightBracket) :
      ArrayPhrase [first, last] (.array [] (first.span.through last.span))
  | list {first last : Lexeme} {tokens : List Lexeme} {values : List OptionValue}
      (isOpening : first.token = .symbol .leftBracket)
      (items : Separated .comma (ValuePhrase message) tokens values)
      (isClosing : last.token = .symbol .rightBracket) :
      ArrayPhrase (first :: tokens ++ [last]) (.array values (first.span.through last.span))

/-- What follows the key of an entry: before a message or a list the colon may be left out. -/
inductive AssignmentPhrase : Phrase OptionValue where
  | colonValue {colon : Lexeme} {tokens : List Lexeme} {value : OptionValue}
      (isColon : colon.token = .symbol .colon) (isValue : ValuePhrase message tokens value) :
      AssignmentPhrase (colon :: tokens) value
  | colonArray {colon : Lexeme} {tokens : List Lexeme} {value : OptionValue}
      (isColon : colon.token = .symbol .colon) (isArray : ArrayPhrase message tokens value) :
      AssignmentPhrase (colon :: tokens) value
  | message {tokens : List Lexeme} {value : OptionValue} (isMessage : message tokens value) :
      AssignmentPhrase tokens value
  | array {tokens : List Lexeme} {value : OptionValue}
      (isArray : ArrayPhrase message tokens value) : AssignmentPhrase tokens value

/-- The comma or semicolon that may follow an entry. -/
inductive SeparatorPhrase : List Lexeme → Prop where
  | absent : SeparatorPhrase []
  | comma {lexeme : Lexeme} (isComma : lexeme.token = .symbol .comma) : SeparatorPhrase [lexeme]
  | semicolon {lexeme : Lexeme} (isSemicolon : lexeme.token = .symbol .semicolon) :
      SeparatorPhrase [lexeme]

/-- A key, a value with the colon it may have, and a separator, which may be missing. -/
inductive EntryPhrase : Phrase OptionEntry where
  | entry {first middle last : List Lexeme} {key : OptionKey} {value : OptionValue}
      (isKey : KeyPhrase .leftBracket .rightBracket first key)
      (isAssignment : AssignmentPhrase message middle value) (isSeparator : SeparatorPhrase last) :
      EntryPhrase (first ++ middle ++ last) ⟨key, value, key.span.through value.span⟩

/-- The two pairs of brackets that a message may stand in. -/
inductive Brackets : Symbol → Symbol → Prop where
  | braces : Brackets .leftBrace .rightBrace
  | angles : Brackets .leftAngle .rightAngle

/-- A message whose entries may hold the given messages. -/
inductive AggregatePhrase : Phrase OptionValue where
  | aggregate {first last : Lexeme} {opening closing : Symbol} {tokens : List Lexeme}
      {entries : List OptionEntry} (brackets : Brackets opening closing)
      (isOpening : first.token = .symbol opening)
      (isEntries : Many (EntryPhrase message) tokens entries)
      (isClosing : last.token = .symbol closing) :
      AggregatePhrase (first :: tokens ++ [last])
        (.aggregate entries (first.span.through last.span))

end Messages

/-- A message in which messages nest up to a depth, itself included. -/
def MessagePhrase : Nat → Phrase OptionValue
  | 0 => fun _ _ => False
  | depth + 1 => AggregatePhrase (MessagePhrase depth)

/-- A message starts with its opening bracket. -/
theorem MessagePhrase.exists_cons {depth : Nat} {tokens : List Lexeme} {value : OptionValue}
    (isMessage : MessagePhrase depth tokens value) :
    ∃ first others, tokens = first :: others ∧
      (first.token = .symbol .leftBrace ∨ first.token = .symbol .leftAngle) := by
  cases depth with
  | zero => exact isMessage.elim
  | succ depth =>
    obtain ⟨brackets, isOpening, -, -⟩ := isMessage
    cases brackets with
    | braces => exact ⟨_, _, rfl, .inl isOpening⟩
    | angles => exact ⟨_, _, rfl, .inr isOpening⟩

/-! ### Settings -/

/-- The parts of an option's name, with dots between them. -/
abbrev OptionNamePhrase : Phrase (List OptionKey) :=
  Separated .dot (KeyPhrase .leftParen .rightParen)

/-- An option's name and value. A value that is a message stands in braces. -/
inductive SettingPhrase : Phrase OptionSetting where
  | message {first tokens : List Lexeme} {equals : Lexeme} {name : List OptionKey}
      {value : OptionValue} (isName : OptionNamePhrase first name)
      (isEquals : equals.token = .symbol .equals)
      (inBraces : ∀ opening ∈ tokens.head?, opening.token = .symbol .leftBrace)
      (isMessage : MessagePhrase 100 tokens value) :
      SettingPhrase (first ++ equals :: tokens) ⟨name, value⟩
  | scalar {first tokens : List Lexeme} {equals : Lexeme} {name : List OptionKey}
      {value : OptionValue} (isName : OptionNamePhrase first name)
      (isEquals : equals.token = .symbol .equals) (isScalar : ScalarPhrase tokens value) :
      SettingPhrase (first ++ equals :: tokens) ⟨name, value⟩

end ProtoSchema
