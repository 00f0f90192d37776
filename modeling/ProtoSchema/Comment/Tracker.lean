/-
This file decides which declaration a comment belongs to. Only the trivia
between two tokens matter: those before the first token of a declaration, and
those after the token that ends one. The first comment on the line of the
ending token trails the declaration that it ends. Of the others, each run of
line comments and each block comment is a block, and the last block leads the
next declaration unless a blank line stands between them; the blocks that do
not lead are detached.
-/

import ProtoSchema.Token.Basic

namespace ProtoSchema

/-- The comments between two tokens, sorted by what they belong to. -/
structure Surroundings where
  /-- Belongs to the declaration that ends before the comments. -/
  trailing : Option String
  /-- Precede the next declaration at a distance. -/
  detached : List String
  /-- Belongs to the declaration that starts after the comments. -/
  leading : Option String
deriving DecidableEq, Repr

/-- What is known of the comments since a token. -/
structure Tracker where
  trailing : Option String
  detached : List String
  leading : Option String
  /-- The next comment would be a trailing one. -/
  awaitsTrailing : Bool
  /-- The last block is a run of line comments, which a further one would extend. -/
  inLineComments : Bool
  /-- Nothing but blanks was seen on this line. -/
  atLineStart : Bool
deriving DecidableEq, Repr

namespace Tracker

/-- At the start of a source, where no declaration has ended. -/
def atStart : Tracker := ⟨none, [], none, false, false, true⟩

/-- After a token that ends or opens a declaration. -/
def afterToken : Tracker := ⟨none, [], none, true, false, false⟩

/-- Detaches the last block. -/
def flush (tracker : Tracker) : Tracker :=
  { tracker with
    detached := tracker.detached ++ tracker.leading.toList
    leading := none
    inLineComments := false }

/-- The comment belongs to the token before it, and no other does. -/
def trail (tracker : Tracker) (text : String) : Tracker :=
  { tracker with trailing := some text, awaitsTrailing := false }

/-- A block comment trails the token before it, or leads what follows until another comment or a
blank line takes its place. -/
def blockComment (tracker : Tracker) (text : String) : Tracker :=
  let placed :=
    if tracker.awaitsTrailing then tracker.trail text
    else { tracker.flush with leading := some text }
  { placed with atLineStart := false }

/-- Extends the run of line comments, or starts one. -/
def extendRun (tracker : Tracker) (text : String) : Tracker :=
  let ready :=
    if tracker.leading.isSome && !tracker.inLineComments then tracker.flush else tracker
  { ready with leading := some (ready.leading.getD "" ++ text), inLineComments := true }

/-- A line comment ends its line. -/
def lineComment (tracker : Tracker) (text : String) : Tracker :=
  let placed := if tracker.awaitsTrailing then tracker.trail text else tracker.extendRun text
  { placed with atLineStart := true }

/-- A line break ends the line on which a comment would be trailing; on a blank line it detaches
the block above. -/
def newline (tracker : Tracker) : Tracker :=
  let placed :=
    if tracker.awaitsTrailing then { tracker with awaitsTrailing := false }
    else if tracker.atLineStart then tracker.flush
    else tracker
  { placed with atLineStart := true }

/-- What is known after one more piece of trivia. -/
def step (tracker : Tracker) : Trivia → Tracker
  | .lineComment text => tracker.lineComment text
  | .blockComment text => tracker.blockComment text
  | .newline => tracker.newline

/-- What is known of the comments when the next token comes. -/
def surroundings (tracker : Tracker) : Surroundings :=
  ⟨tracker.trailing, tracker.detached, tracker.leading⟩

/-- The comments among some trivia, sorted. -/
def sort (start : Tracker) (trivia : List Trivia) : Surroundings :=
  (trivia.foldl step start).surroundings

end Tracker

end ProtoSchema
