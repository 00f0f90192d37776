/-
This file reads a block comment after its opening delimiter. Block comments
nest. In the text of a comment the blanks that start a line are dropped, and so
is one asterisk after them, so that a comment framed by a column of asterisks
keeps only what was written in the frame.
-/

import ProtoSchema.Token.Basic

namespace ProtoSchema

/-- The characters that separate tokens and are no line break: tab, vertical tab, form feed,
carriage return and space. -/
def isBlank (character : Char) : Bool :=
  character = ' ' || character = '\t' || character = '\r' || character = '\x0b' ||
    character = '\x0c'

/-- Every line break of two characters becomes one of one character. -/
def unifyNewlines : List Char → List Char
  | [] => []
  | [last] => [last]
  | first :: second :: rest =>
    if first = '\r' ∧ second = '\n' then '\n' :: unifyNewlines rest
    else first :: unifyNewlines (second :: rest)

/-- What was read of a block comment after its opening delimiter: its text, its length in
characters with the delimiter that closed it and the blanks after that, and whether it was closed
at all. -/
structure CommentBody where
  text : List Char
  length : Nat
  closed : Bool
deriving DecidableEq, Repr

namespace CommentBody

/-- More characters in front of a body, of which some text is kept. -/
def prepend (count : Nat) (text : List Char) (body : CommentBody) : CommentBody :=
  { body with text := text ++ body.text, length := count + body.length }

/-- The number of characters at the start of a line that are not text: blanks, and an asterisk
after them unless it starts a closing delimiter. -/
def frameLength (line : List Char) : Nat :=
  let blanks := line.takeWhile fun character => character = ' ' || character = '\t'
  match line.drop blanks.length with
  | '*' :: '/' :: _ => blanks.length
  | '*' :: _ => blanks.length + 1
  | _ => blanks.length

/-- Reads the rest of a comment. The comments that are open are counted in 32 bits, and the count
starts over where it has no place. -/
def read (depth : UInt32) : List Char → CommentBody
  | [] => ⟨[], 0, false⟩
  | '*' :: '/' :: rest =>
    let blanks := rest.takeWhile isBlank
    if depth - 1 = 0 then ⟨[], 2 + blanks.length, true⟩
    else
      (read (depth - 1) (rest.drop blanks.length)).prepend (2 + blanks.length)
        ('*' :: '/' :: blanks)
  | '/' :: '*' :: rest => (read (depth + 1) rest).prepend 2 ['/', '*']
  | '\n' :: rest =>
    let frame := frameLength rest
    (read depth (rest.drop frame)).prepend (1 + frame) ['\n']
  | first :: rest => (read depth rest).prepend 1 [first]
termination_by characters => characters.length
decreasing_by all_goals simp only [List.length_cons, List.length_drop]; omega

end CommentBody

end ProtoSchema
