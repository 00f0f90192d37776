/-
This file reads the escapes of string literals and writes bytes so that they
can be read back. An escape stands for one byte or for the UTF-8 encoding of
one character. One that has the form of an escape but no value, such as an octal
escape above 255 or a surrogate, is told apart from what is no escape at all.
-/

import ProtoSchema.Token.Basic

namespace ProtoSchema

/-! ### Digits -/

/-- Whether a character is a digit to the base eight. -/
def isOctalDigit (character : Char) : Bool :=
  '0' ≤ character && character ≤ '7'

/-- Whether a character is a digit to the base sixteen, of either case. -/
def isHexDigit (character : Char) : Bool :=
  character.isDigit || ('a' ≤ character && character ≤ 'f') ||
    ('A' ≤ character && character ≤ 'F')

/-- The value of a digit in any base up to sixteen; characters that are no digits count as zero. -/
def digitValue (character : Char) : Nat :=
  if character.isDigit then character.toNat - '0'.toNat
  else if 'a' ≤ character && character ≤ 'f' then character.toNat - 'a'.toNat + 10
  else if 'A' ≤ character && character ≤ 'F' then character.toNat - 'A'.toNat + 10
  else 0

/-- The value of a numeral. -/
def numeralValue (base : Nat) (digits : List Char) : Nat :=
  digits.foldl (fun value digit => value * base + digitValue digit) 0

/-! ### Reading -/

/-- What follows a backslash: its length in characters, and the bytes it stands for unless its
value is none of a byte or a character. -/
structure Escape where
  length : Nat
  bytes : Option Bytes
deriving DecidableEq, Repr

namespace Escape

/-- The byte that a letter or a mark stands for after a backslash. -/
def simple? : Char → Option UInt8
  | 'a' => some 7
  | 'b' => some 8
  | 'f' => some 12
  | 'n' => some 10
  | 'r' => some 13
  | 't' => some 9
  | 'v' => some 11
  | '?' => some 63
  | '\\' => some 92
  | '\'' => some 39
  | '"' => some 34
  | _ => none

/-- One or two hexadecimal digits after the letter. -/
def byte? (following : List Char) : Option Escape :=
  match (following.take 2).takeWhile isHexDigit with
  | [] => none
  | digits => some ⟨digits.length + 1, some [UInt8.ofNat (numeralValue 16 digits)]⟩

/-- Exactly as many hexadecimal digits as asked for after the letter. -/
def character? (count : Nat) (following : List Char) : Option Escape :=
  let digits := (following.take count).takeWhile isHexDigit
  let code := numeralValue 16 digits
  if digits.length = count then
    some ⟨count + 1,
      if code.isValidChar then some (String.utf8EncodeChar (Char.ofNat code)) else none⟩
  else none

/-- One to three octal digits. -/
def octal? (following : List Char) : Option Escape :=
  match (following.take 3).takeWhile isOctalDigit with
  | [] => none
  | digits =>
    let code := numeralValue 8 digits
    some ⟨digits.length, if code < 256 then some [UInt8.ofNat code] else none⟩

/-- The escape at the front of what follows a backslash. -/
def read? : List Char → Option Escape
  | [] => none
  | first :: following =>
    if first = 'x' ∨ first = 'X' then byte? following
    else if first = 'u' then character? 4 following
    else if first = 'U' then character? 8 following
    else if isOctalDigit first then octal? (first :: following)
    else (simple? first).map fun byte => ⟨1, some [byte]⟩

/-! ### Writing -/

/-- A byte written so that it can stand in a literal: printable ASCII as it is, quotes and the
backslash escaped, tab and the line breaks by letter, and all else as three octal digits. -/
def write (byte : UInt8) : List Char :=
  let code := byte.toNat
  if code = 9 then ['\\', 't']
  else if code = 13 then ['\\', 'r']
  else if code = 10 then ['\\', 'n']
  else if code = 34 ∨ code = 39 ∨ code = 92 then ['\\', Char.ofNat code]
  else if 32 ≤ code ∧ code < 127 then [Char.ofNat code]
  else '\\' :: paddedDigits 8 3 code

/-- A string literal, in double quotes, whose value is the bytes. -/
def literal (bytes : Bytes) : String :=
  "\"" ++ String.ofList (bytes.flatMap write) ++ "\""

end Escape

end ProtoSchema
