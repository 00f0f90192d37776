/-
This file cuts a source text into tokens, comments and line breaks. Scanning
goes on past malformed tokens, so that every lexical fault of a source is found;
but a source with a fault has no tokens.
-/

import ProtoSchema.Token.BlockComment
import ProtoSchema.Token.Numeral
import ProtoSchema.Token.StringLiteral

namespace ProtoSchema

/-- What stands at the front of a text, with its length in characters. -/
inductive Front where
  | blank
  | unknown
  | element (element : Element) (length : Nat) (faults : List LexicalFault)
deriving DecidableEq, Repr

namespace Front

/-- The length in characters of what stands at the front. -/
def length : Front → Nat
  | blank | unknown => 1
  | element _ length _ => length

/-- The word that the text starts with. -/
def word (characters : List Char) : Front :=
  let text := characters.takeWhile isIdentifierPart
  element (.token (.word (String.ofList text))) text.length []

/-- The numeral that the text starts with, with the faults in it and behind it. -/
def number (offset : Nat) (characters : List Char) : Front :=
  let numeral := Numeral.read characters
  element (.token numeral.token) numeral.length
    (numeral.faults offset (characters.drop numeral.length))

/-- A string literal opened by `quote`. -/
def string (offset : Nat) (quote : Char) (rest : List Char) : Front :=
  let body := StringBody.read offset quote (offset + 1) rest
  element (.token (.string body.bytes)) (1 + body.length) body.faults

/-- A line comment, after its slashes, with the line break that ends it. -/
def lineComment (rest : List Char) : Front :=
  let line := rest.takeWhile (· ≠ '\n')
  let text := rest.take (line.length + 1)
  element (.trivia (.lineComment (String.ofList (unifyNewlines text)))) (2 + text.length) []

/-- A block comment, after its opening delimiter. -/
def blockComment (offset : Nat) (rest : List Char) : Front :=
  let body := CommentBody.read 1 rest
  element (.trivia (.blockComment (String.ofList (unifyNewlines body.text)))) (2 + body.length)
    (if body.closed then [] else [⟨.unterminatedComment, ⟨offset, offset + 2⟩⟩])

/-- A punctuation character, unless the character is none. -/
def symbol (first : Char) : Front :=
  match Symbol.ofCharacter? first with
  | some mark => element (.token (.symbol mark)) 1 []
  | none => unknown

/-- What stands at the front of a text at an offset, given by its first character and the rest. -/
def read (offset : Nat) (first : Char) (rest : List Char) : Front :=
  if isBlank first then blank
  else if first = '\n' then element (.trivia .newline) 1 []
  else if isIdentifierStart first then word (first :: rest)
  else if first.isDigit ∨ (first = '.' ∧ rest.head?.any Char.isDigit) then
    number offset (first :: rest)
  else if first = '"' ∨ first = '\'' then string offset first rest
  else if first = '/' ∧ rest.head? = some '/' then lineComment (rest.drop 1)
  else if first = '/' ∧ rest.head? = some '*' then blockComment offset (rest.drop 1)
  else symbol first

end Front

/-- A piece with the faults found in it, or a character that starts none. -/
inductive Scanned where
  | piece (piece : Piece) (faults : List LexicalFault)
  | unknown (span : Span)
deriving DecidableEq, Repr

namespace Scanned

/-- Everything in a text that is not blank, from left to right; the text stands at `offset`. -/
def all (offset : Nat) : List Char → List Scanned
  | [] => []
  | first :: rest =>
    let front := Front.read offset first rest
    let extra := front.length - 1
    let stop := offset + byteLength (first :: rest.take extra)
    let others := all stop (rest.drop extra)
    match front with
    | .blank => others
    | .unknown => unknown ⟨offset, stop⟩ :: others
    | .element element _ faults => piece ⟨element, ⟨offset, stop⟩⟩ faults :: others
termination_by characters => characters.length
decreasing_by simp only [List.length_cons, List.length_drop]; omega

/-- The piece that was found, if the characters make up one. -/
def piece? : Scanned → Option Piece
  | .piece found _ => some found
  | .unknown _ => none

/-- The faults of what was scanned, in order; characters that follow one another and start no
piece are one fault. -/
def faults : List Scanned → List LexicalFault
  | [] => []
  | .piece _ own :: others => own ++ faults others
  | .unknown span :: others =>
    match faults others with
    | [] => [⟨.unknownCharacters, span⟩]
    | next :: more =>
      if next.cause = .unknownCharacters ∧ next.span.start = span.stop then
        ⟨.unknownCharacters, span.through next.span⟩ :: more
      else ⟨.unknownCharacters, span⟩ :: next :: more

end Scanned

/-- The pieces of a source, or the faults that keep it from having any. -/
inductive Scan where
  | pieces (pieces : List Piece)
  | faulty (first : LexicalFault) (others : List LexicalFault)
deriving DecidableEq, Repr

/-- Cuts a source into pieces. -/
def scan (source : List Char) : Scan :=
  let scanned := Scanned.all 0 source
  match Scanned.faults scanned with
  | [] => .pieces (scanned.filterMap Scanned.piece?)
  | first :: others => .faulty first others

end ProtoSchema
