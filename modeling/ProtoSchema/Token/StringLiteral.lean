/-
This file reads a string literal after its opening quote. The literal ends at
the next quote of the same kind; a line break or the end of the source leaves
it unterminated. Characters that may not stand in a literal and backslashes
that start no escape are reported, adjacent ones together, and reading goes on.
-/

import ProtoSchema.Diagnostic.Fault
import ProtoSchema.Token.Escape

namespace ProtoSchema

/-- What was read of a literal after its opening quote: its value, its length in characters with
whatever ended it, and its faults. -/
structure StringBody where
  bytes : Bytes
  length : Nat
  faults : List LexicalFault
deriving DecidableEq, Repr

namespace StringBody

/-- The body of a literal that ends after so many characters without a fault. -/
def closing (length : Nat) : StringBody := ⟨[], length, []⟩

/-- More characters, standing for some bytes, in front of a body. -/
def prepend (count : Nat) (bytes : Bytes) (body : StringBody) : StringBody :=
  { body with bytes := bytes ++ body.bytes, length := count + body.length }

/-- Whether a fault goes on where another stopped and is of the kinds that are reported together. -/
def continues (stop : Nat) (fault : LexicalFault) : Bool :=
  (fault.cause = .badStringCharacters ∨ fault.cause = .badStringEscape) ∧ fault.span.start = stop

/-- Characters at fault in front of a body. They take up the fault that follows without a gap. -/
def reject (cause : LexicalCause) (span : Span) (count : Nat) (body : StringBody) : StringBody :=
  { body with
    length := count + body.length
    faults :=
      match body.faults with
      | [] => [⟨cause, span⟩]
      | next :: others =>
        if continues span.stop next then ⟨cause, span.through next.span⟩ :: others
        else ⟨cause, span⟩ :: next :: others }

/-- Reads the rest of a literal opened at `opening` with `quote`; its next character stands at
`offset`. -/
def read (opening : Nat) (quote : Char) (offset : Nat) : List Char → StringBody
  | [] => ⟨[], 0, [⟨.unterminatedString, ⟨opening, offset⟩⟩]⟩
  | first :: rest =>
    if first = quote then closing 1
    else if first = '\n' then ⟨[], 1, [⟨.unterminatedString, ⟨opening, offset⟩⟩]⟩
    else if first = '\x00' then
      (read opening quote (offset + 1) rest).reject .badStringCharacters ⟨offset, offset + 1⟩ 1
    else if first = '\\' then
      match Escape.read? rest with
      | none =>
        (read opening quote (offset + 1) rest).reject .badStringEscape ⟨offset, offset + 1⟩ 1
      | some escape =>
        let count := escape.length + 1
        let body := read opening quote (offset + count) (rest.drop escape.length)
        match escape.bytes with
        | some bytes => body.prepend count bytes
        | none => body.reject .badStringEscape ⟨offset, offset + count⟩ count
    else
      (read opening quote (offset + first.utf8Size) rest).prepend 1 (String.utf8EncodeChar first)
termination_by characters => characters.length
decreasing_by all_goals simp only [List.length_cons, List.length_drop]; omega

end StringBody

end ProtoSchema
