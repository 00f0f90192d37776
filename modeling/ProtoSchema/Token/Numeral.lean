/-
This file reads numbers. Integers are decimal, octal after a zero, or
hexadecimal after `0x`; a number with a point or an exponent is a float. An
identifier may not follow a number without a blank; only the literal zero is
exempt, and so is a run of digits that starts with a zero and a digit that is
not octal, which is read as the literal zero. In a run that starts with a zero
and an octal digit every digit has to be octal.
-/

import ProtoSchema.Diagnostic.Fault
import ProtoSchema.Source.Identifier
import ProtoSchema.Token.Escape

namespace ProtoSchema

/-- The value of a number before its size is checked. -/
inductive NumeralValue where
  | int (value : Nat)
  /-- Digits that are not all digits of their base. -/
  | misspelled
  | float (value : Magnitude)
deriving DecidableEq, Repr

/-- A number at the front of a text: its length in characters, its value, and whether an
identifier directly after it is a fault. -/
structure Numeral where
  length : Nat
  value : NumeralValue
  endsBeforeIdentifier : Bool
deriving DecidableEq, Repr

namespace Numeral

/-! ### Floats -/

/-- The length of the sign at the front of a text, if any. -/
def signLength : List Char → Nat
  | '+' :: _ | '-' :: _ => 1
  | _ => 0

/-- The length of the exponent at the front of a text; zero if there is none. -/
def exponentLength : List Char → Nat
  | [] => 0
  | first :: rest =>
    let sign := signLength rest
    let digits := (rest.drop sign).takeWhile Char.isDigit
    if (first = 'e' ∨ first = 'E') ∧ digits ≠ [] then 1 + sign + digits.length else 0

/-- The value of an exponent; the empty text stands for zero. -/
def exponentValue (exponent : List Char) : Int :=
  match exponent.drop 1 with
  | '-' :: digits => -(numeralValue 10 digits : Int)
  | '+' :: digits => numeralValue 10 digits
  | digits => numeralValue 10 digits

/-- The float with the given digits before and after the point and the given exponent. -/
def floatValue (whole fraction exponent : List Char) : Magnitude :=
  .ofDecimal (numeralValue 10 (whole ++ fraction)) (exponentValue exponent - fraction.length)

/-- The float at the front of a text whose first digits are `whole` and go on with `after`, unless
there is neither a point nor an exponent. -/
def float? (whole after : List Char) : Option Numeral :=
  match after with
  | '.' :: rest =>
    let fraction := rest.takeWhile Char.isDigit
    let following := rest.drop fraction.length
    let exponent := following.take (exponentLength following)
    some ⟨whole.length + 1 + fraction.length + exponent.length,
      .float (floatValue whole fraction exponent), true⟩
  | _ =>
    let exponent := after.take (exponentLength after)
    if exponent = [] then none
    else some ⟨whole.length + exponent.length, .float (floatValue whole [] exponent), true⟩

/-! ### Integers -/

/-- The literal zero, over so many characters. -/
def zero (length : Nat) : Numeral := ⟨length, .int 0, false⟩

/-- The hexadecimal digits of a number whose zero is followed by the given text. -/
def hexDigits : List Char → List Char
  | first :: rest => if first = 'x' ∨ first = 'X' then rest.takeWhile isHexDigit else []
  | [] => []

/-- The integer whose first decimal digits are `digits` and go on with `after`. -/
def int (digits after : List Char) : Numeral :=
  match digits with
  | ['0'] =>
    match hexDigits after with
    | [] => zero 1
    | hex => ⟨2 + hex.length, .int (numeralValue 16 hex), true⟩
  | '0' :: second :: more =>
    if isOctalDigit second then
      ⟨digits.length, if more.all isOctalDigit then .int (numeralValue 8 (second :: more))
        else .misspelled, true⟩
    else zero digits.length
  | _ => ⟨digits.length, .int (numeralValue 10 digits), true⟩

/-- The number at the front of a text that starts with a digit, or with a point and a digit. -/
def read (characters : List Char) : Numeral :=
  let digits := characters.takeWhile Char.isDigit
  let after := characters.drop digits.length
  (float? digits after).getD (int digits after)

/-! ### Tokens -/

/-- The integers that fit a token lie below this bound. -/
def intBound : Nat := 0x10000000000000000

/-- The token of a number; an integer that does not fit or is misspelled counts as zero. -/
def token (numeral : Numeral) : Token :=
  match numeral.value with
  | .int value => .int (if value < intBound then UInt64.ofNat value else 0)
  | .misspelled => .int 0
  | .float value => .float value

/-- The identifier that directly follows a number. -/
def trailingIdentifier : List Char → List Char
  | first :: rest =>
    if isIdentifierStart first then first :: rest.takeWhile isIdentifierPart else []
  | [] => []

/-- The faults of a number that stands at `offset` and is followed by the given text. Misspelled
integers are reported like those that do not fit. -/
def faults (numeral : Numeral) (offset : Nat) (after : List Char) : List LexicalFault :=
  let stop := offset + numeral.length
  let identifier := trailingIdentifier after
  let runsOn : List LexicalFault :=
    if numeral.endsBeforeIdentifier ∧ identifier ≠ [] then
      [⟨.numberRunsIntoIdentifier, ⟨offset, stop + identifier.length⟩⟩]
    else []
  match numeral.value with
  | .int value => if value < intBound then runsOn else runsOn ++ [⟨.integerTooLarge, ⟨offset, stop⟩⟩]
  | .misspelled => runsOn ++ [⟨.integerTooLarge, ⟨offset, stop⟩⟩]
  | .float _ => runsOn

end Numeral

end ProtoSchema
