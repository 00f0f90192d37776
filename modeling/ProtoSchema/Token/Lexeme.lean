/-
This file prepares the pieces of a source for the grammar: the tokens alone,
each with the comments before it sorted, and with a note whether it directly
follows a closing brace, where an empty statement may stand.
-/

import ProtoSchema.Comment.Tracker

namespace ProtoSchema

/-- A token with what the grammar asks about the gap before it. -/
structure Lexeme where
  token : Token
  span : Span
  before : Surroundings
  followsBrace : Bool
deriving DecidableEq, Repr

/-- The tokens of a source and the comments after the last of them. -/
structure TokenStream where
  lexemes : List Lexeme
  atEnd : Surroundings
deriving DecidableEq, Repr

namespace TokenStream

/-- A lexeme in front of a stream. -/
def prepend (lexeme : Lexeme) (stream : TokenStream) : TokenStream :=
  { stream with lexemes := lexeme :: stream.lexemes }

/-- The stream of some pieces, given what is known of the comments since the last token and whether
that token was a closing brace. -/
def build (comments : Tracker) (followsBrace : Bool) : List Piece → TokenStream
  | [] => ⟨[], comments.surroundings⟩
  | ⟨.trivia trivia, _⟩ :: rest => build (comments.step trivia) followsBrace rest
  | ⟨.token token, span⟩ :: rest =>
    (build .afterToken (token = .symbol .rightBrace) rest).prepend
      ⟨token, span, comments.surroundings, followsBrace⟩

/-- The stream of the pieces of a source. -/
def ofPieces (pieces : List Piece) : TokenStream :=
  build .atStart false pieces

end TokenStream

end ProtoSchema
