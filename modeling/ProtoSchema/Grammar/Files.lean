/-
This file parses files. The edition, if it is declared, comes first, and
decides which rules the rest is held to.
-/

import ProtoSchema.Diagnostic.Report
import ProtoSchema.Grammar.Messages
import ProtoSchema.Grammar.Services
import ProtoSchema.Validation.File

namespace ProtoSchema

namespace Parser

/-! ### Statements -/

/-- The statement that declares the edition. One that is not known counts as the newer. -/
def editionStatement : Parser Edition := do
  let _ ← word "syntax"
  let _ ← mark .equals
  let name ← text
  let edition := Edition.ofName? name.text
  report (if edition.isSome then [] else [⟨.unknownEdition name.text, name.span⟩])
  let _ ← terminator
  return edition.getD .proto3

/-- The declared edition, if the source starts with it. -/
def declaredEdition : Parser (Option Edition) := do
  if (← look) = some (.word "syntax") then return some (← editionStatement) else return none

/-- The statement that names the package. -/
def package : Parser Package := do
  let comments ← leadingComments
  let start ← word "package"
  let name ← dottedName
  let (stop, trailing) ← terminator
  return ⟨name, { comments with trailing }, start.through stop⟩

/-- The word in front of the path of an import, if there is one. -/
def importKind : Parser (Option ImportKind) := do
  match ← look with
  | some (.word "weak") =>
    let _ ← advance
    return some .weak
  | some (.word "public") =>
    let _ ← advance
    return some .reexported
  | some (.string _) => return none
  | _ => unexpected "a string literal, 'public' or 'weak'"

/-- The statement that imports another file. -/
def «import» : Parser Import := do
  let comments ← leadingComments
  let start ← word "import"
  let kind ← importKind
  let path ← text
  let (stop, trailing) ← terminator
  return ⟨kind, path, { comments with trailing }, start.through stop⟩

/-! ### Files -/

/-- The file with a package. The first one counts; a further one is a fault. -/
def addPackage (file : File) (package : Package) : Parser File := do
  match file.package with
  | some first =>
    report [⟨.repeatedPackage first.span, package.span⟩]
    return file
  | none => return { file with package := some package }

/-- The members of a file. -/
def fileMember : Member File := fun file next =>
  match next with
  | .word text =>
    if text = "import" then some do
      return { file with imports := file.imports ++ [← «import»] }
    else if text = "package" then some do addPackage file (← package)
    else if text = "option" then some do
      return { file with options := file.options ++ [← optionStatement] }
    else if text = "message" then some do
      let message ← message Nesting.message.limit [file.messages.length]
      return { file with messages := file.messages ++ [message] }
    else if text = "enum" then some do
      return { file with enums := file.enums ++ [← enumeration] }
    else if text = "service" then some do
      return { file with services := file.services ++ [← service] }
    else if text = "extend" then some do
      return { file with extensions := file.extensions ++ [← extension none] }
    else none
  | _ => none

/-- The declarations of a file that declares the given edition. -/
def declarations (declared : Option Edition) : Parser File := do
  let file ← topLevel fileMember
    "'enum', 'extend', 'import', 'message', 'option', 'service', 'package' or ';'"
    { File.empty with declaredEdition := declared }
  report file.faults
  return file

/-- A file, from its edition to its last declaration. -/
def file : Parser File := do
  let declared ← declaredEdition
  inEdition declared (declarations declared)

end Parser

/-- The file that a token stream spells, unless there is a fault in it. The faults are those that
were gone past and, last, the one that stopped the parser, if one did. -/
inductive ParsedFile where
  | accepted (file : File)
  | rejected (first : Diagnostic) (others : List Diagnostic)

/-- Parses the tokens of a source of the given length. -/
def parseFile (length : Nat) (stream : TokenStream) : ParsedFile :=
  match Parser.file ⟨none, length, stream.atEnd⟩ stream.lexemes with
  | .done file [] _ => .accepted file
  | .done _ (first :: others) _ => .rejected (.semantic first) (others.map .semantic)
  | .stopped [] fault => .rejected (.grammatical fault) []
  | .stopped (first :: others) fault =>
    .rejected (.semantic first) (others.map .semantic ++ [.grammatical fault])

end ProtoSchema
