/-
This file defines tokens, the trivia between them, and the texts by which
diagnostics quote them. The lexer reserves no word: a keyword is an identifier
that the grammar expects at some place.
-/

import ProtoSchema.Number.Decimal
import ProtoSchema.Source.Span

namespace ProtoSchema

/-- The punctuation characters. -/
inductive Symbol where
  | dot
  | minus
  | plus
  | leftParen
  | rightParen
  | leftBrace
  | rightBrace
  | leftBracket
  | rightBracket
  | leftAngle
  | rightAngle
  | comma
  | equals
  | colon
  | semicolon
  | slash
deriving DecidableEq, Repr

namespace Symbol

/-- The character that a mark is written as. -/
def character : Symbol → Char
  | dot => '.'
  | minus => '-'
  | plus => '+'
  | leftParen => '('
  | rightParen => ')'
  | leftBrace => '{'
  | rightBrace => '}'
  | leftBracket => '['
  | rightBracket => ']'
  | leftAngle => '<'
  | rightAngle => '>'
  | comma => ','
  | equals => '='
  | colon => ':'
  | semicolon => ';'
  | slash => '/'

/-- The mark that is written as a character, if there is one. -/
def ofCharacter? : Char → Option Symbol
  | '.' => some dot
  | '-' => some minus
  | '+' => some plus
  | '(' => some leftParen
  | ')' => some rightParen
  | '{' => some leftBrace
  | '}' => some rightBrace
  | '[' => some leftBracket
  | ']' => some rightBracket
  | '<' => some leftAngle
  | '>' => some rightAngle
  | ',' => some comma
  | '=' => some equals
  | ':' => some colon
  | ';' => some semicolon
  | '/' => some slash
  | _ => none

theorem ofCharacter?_character (symbol : Symbol) :
    ofCharacter? symbol.character = some symbol := by
  cases symbol <;> rfl

/-- A mark as text. -/
def text (symbol : Symbol) : String :=
  String.singleton symbol.character

end Symbol

/-- A string of bytes, the value of a string literal. -/
abbrev Bytes := List UInt8

/-- A token that the grammar sees. -/
inductive Token where
  | word (text : String)
  | int (value : UInt64)
  | float (value : Magnitude)
  | string (bytes : Bytes)
  | symbol (mark : Symbol)
deriving DecidableEq, Repr

/-- What stands between tokens and is not blank. A line comment holds the text after its slashes
with the line break that ends it, a block comment the text between its delimiters. -/
inductive Trivia where
  | lineComment (text : String)
  | blockComment (text : String)
  | newline
deriving DecidableEq, Repr

/-- A token or a piece of trivia. -/
inductive Element where
  | token (token : Token)
  | trivia (trivia : Trivia)
deriving DecidableEq, Repr

/-- An element and the bytes of the source it was read from. -/
structure Piece where
  element : Element
  span : Span
deriving DecidableEq, Repr

/-! ### Texts for diagnostics -/

/-- The digits of a number in a base up to sixteen, in lower case and padded with zeros. -/
def paddedDigits (base width number : Nat) : List Char :=
  let digits := Nat.toDigits base number
  List.replicate (width - digits.length) '0' ++ digits

/-- A byte as diagnostics quote it: printable ASCII as it is, quotes and the backslash escaped,
tab and the line breaks by letter, and all else in hexadecimal. -/
def quotedByte (byte : UInt8) : List Char :=
  let code := byte.toNat
  if code = 9 then ['\\', 't']
  else if code = 13 then ['\\', 'r']
  else if code = 10 then ['\\', 'n']
  else if code = 34 ∨ code = 39 ∨ code = 92 then ['\\', Char.ofNat code]
  else if 32 ≤ code ∧ code < 127 then [Char.ofNat code]
  else '\\' :: 'x' :: paddedDigits 16 2 code

/-- Numbers in diagnostics never have an exponent. -/
def quotedFloatStyle : Decimal.Style := ⟨none, none⟩

/-- A float as diagnostics quote it: a whole number in full, any other by its shortest digits. -/
def quotedFloat (value : Magnitude) : String :=
  if !value.isInfinite && value.isIntegral then toString value.whole ++ ".0"
  else Decimal.text quotedFloatStyle value

/-- A token as diagnostics quote it. -/
def Token.quoted : Token → String
  | .word text => text
  | .int value => toString value.toNat
  | .float value => quotedFloat value
  | .string bytes => "\"" ++ String.ofList (bytes.flatMap quotedByte) ++ "\""
  | .symbol mark => mark.text

end ProtoSchema
