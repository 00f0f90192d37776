/-
This file joins the stages: a source of an allowed length is cut into tokens,
parsed while its declarations are checked, and resolved. It is either accepted
or rejected with a report.
-/

import ProtoSchema.Diagnostic.Report
import ProtoSchema.Grammar.Files
import ProtoSchema.Resolution.Resolve
import ProtoSchema.Token.Listing

namespace ProtoSchema

/-- The length of source, in bytes, that is allowed unless another is set. -/
def defaultMaxLength : Nat := 2147483647

/-- How sources are parsed. -/
structure ParseOptions where
  /-- The file name in reports. -/
  fileName : String := "<input>"
  /-- Whether references to types are resolved after parsing. -/
  resolves : Bool := true
  /-- The greatest length of a source in bytes. -/
  maxLength : Nat := defaultMaxLength
deriving DecidableEq, Repr

namespace ParseOptions

/-- The report on diagnostics found in a source. -/
def report (options : ParseOptions) (source : List Char) (found : Diagnostic)
    (others : List Diagnostic) : Report :=
  .ofDiagnostics options.fileName source found others

/-- The pieces of a source of an allowed length. -/
def pieces (options : ParseOptions) (source : List Char) : Except Report (List Piece) :=
  if options.maxLength < byteLength source then
    .error (options.report source (.tooLarge options.maxLength) [])
  else
    match scan source with
    | .pieces pieces => .ok pieces
    | .faulty first others =>
      .error (options.report source (.lexical first) (others.map .lexical))

/-- The tokens of a source. -/
def tokenize (options : ParseOptions) (source : String) : Except Report (List ListedToken) := do
  let characters := source.toList
  return listing characters (← options.pieces characters)

/-- The schema that a source spells. -/
def parse (options : ParseOptions) (source : String) : Except Report File := do
  let characters := source.toList
  let pieces ← options.pieces characters
  match parseFile (byteLength characters) (.ofPieces pieces) with
  | .accepted file => return if options.resolves then file.resolve else file
  | .rejected first others => throw (options.report characters first others)

end ParseOptions

/-- The schema that a source spells, resolved, with nothing set otherwise. -/
def parse (source : String) : Except Report File :=
  ({} : ParseOptions).parse source

end ProtoSchema
