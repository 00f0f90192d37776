/-
This file lists the tokens of a source for tools that want nothing but tokens:
without trivia, each with its class and its place, and closed by a mark for the
end of the source. Here the words that have a meaning somewhere in the grammar
are told apart from the others.
-/

import ProtoSchema.Source.Location
import ProtoSchema.Token.Scan

namespace ProtoSchema

/-- The words with a meaning somewhere in the grammar. -/
def keywords : List String :=
  ["syntax", "package", "import", "weak", "public", "option", "message", "enum", "service", "rpc",
    "stream", "returns", "extend", "oneof", "map", "optional", "required", "repeated", "reserved",
    "extensions", "to", "max", "group", "double", "float", "int32", "int64", "uint32", "uint64",
    "sint32", "sint64", "fixed32", "fixed64", "sfixed32", "sfixed64", "bool", "string", "bytes"]

/-- The class and value of a listed token. -/
inductive ListedKind where
  | keyword (text : String)
  | identifier (text : String)
  | string (bytes : Bytes)
  | int (value : UInt64)
  | float (value : Magnitude)
  | symbol (mark : Symbol)
  | endOfFile
deriving DecidableEq, Repr

/-- A token with its place in the source. -/
structure ListedToken where
  kind : ListedKind
  span : Span
  location : Location
deriving DecidableEq, Repr

/-- A word is listed as a keyword if it is one, although the grammar tells no keywords. -/
def ListedKind.ofToken : Token → ListedKind
  | .word text => if text ∈ keywords then .keyword text else .identifier text
  | .int value => .int value
  | .float value => .float value
  | .string bytes => .string bytes
  | .symbol mark => .symbol mark

/-- The listed form of a piece; trivia has none. -/
def ListedToken.ofPiece? (lines : LineIndex) (piece : Piece) : Option ListedToken :=
  match piece.element with
  | .token token => some ⟨.ofToken token, piece.span, lines.locate piece.span.start⟩
  | .trivia _ => none

/-- The listing of the pieces of a source. -/
def listing (source : List Char) (pieces : List Piece) : List ListedToken :=
  let lines := LineIndex.ofSource source
  let stop := byteLength source
  pieces.filterMap (ListedToken.ofPiece? lines) ++ [⟨.endOfFile, .point stop, lines.locate stop⟩]

/-! ### Texts -/

/-- Numbers in a listing have an exponent below a ten-thousandth and from ten quadrillions on. -/
def listedFloatStyle : Decimal.Style := ⟨some (-3), some 16⟩

/-- How the command line prints the kind of a token. -/
def ListedKind.text : ListedKind → String
  | keyword text => "Keyword(\"" ++ text ++ "\")"
  | identifier text => "Ident(\"" ++ text ++ "\")"
  | string bytes =>
    "String([" ++ ", ".intercalate (bytes.map fun byte => toString byte.toNat) ++ "])"
  | int value => "Int(" ++ toString value.toNat ++ ")"
  | float value => "Float(" ++ Decimal.text listedFloatStyle value ++ ")"
  | symbol mark => "Symbol('" ++ mark.text ++ "')"
  | endOfFile => "Eof"

/-- One line of a listing. -/
def ListedToken.text (token : ListedToken) : String :=
  token.location.text ++ "\t" ++ token.kind.text

end ProtoSchema
