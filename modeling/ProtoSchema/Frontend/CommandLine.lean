/-
This file reads the arguments of the command line and works on the files they
name, given their contents. Arguments are taken from left to right, and the
first that cannot be taken, or that asks for the version or for help, decides.
-/

import ProtoSchema.Frontend.Load
import ProtoSchema.Tree.Printer

namespace ProtoSchema

namespace CommandLine

/-- What to do with the files. -/
structure Request where
  files : List String := []
  /-- List the tokens of each file instead of parsing it. -/
  listsTokens : Bool := false
  /-- Print each file in canonical form. -/
  prints : Bool := false
  /-- Leave references to types unresolved. -/
  leavesReferences : Bool := false
  /-- The greatest length of a file, if it was set. -/
  maxLength : Option Nat := none
  /-- How often more of the log was asked for. -/
  verbosity : Nat := 0
deriving DecidableEq, Repr

/-- What the arguments ask for. -/
inductive Invocation where
  | run (request : Request)
  | version
  | help
  | misuse (complaint : String)
deriving DecidableEq, Repr

/-! ### Arguments -/

/-- The largest length that can be set. -/
def lengthBound : Nat := 0x10000000000000000

/-- A length in decimal digits, with an optional plus sign. -/
def readLength? (text : String) : Option Nat :=
  let digits :=
    match text.toList with
    | '+' :: rest => rest
    | all => all
  let value := numeralValue 10 digits
  if digits ≠ [] ∧ digits.all Char.isDigit ∧ value < lengthBound then some value else none

/-- The letters of an argument after its dash, each of which stands for an argument. -/
def takeLetters (request : Request) : List Char → Except Invocation Request
  | [] => .ok request
  | 'v' :: rest => takeLetters { request with verbosity := request.verbosity + 1 } rest
  | 'V' :: _ => .error .version
  | 'h' :: _ => .error .help
  | letter :: _ => .error (.misuse ("unexpected argument '-" ++ String.singleton letter ++ "' found"))

/-- An argument that may be given once. -/
def once (taken : Bool) (name : String) (request : Request) : Except Invocation Request :=
  if taken then
    .error (.misuse ("the argument '--" ++ name ++ "' cannot be used multiple times"))
  else .ok request

/-- An argument without a value, given by its name. -/
def takeFlag (request : Request) (name : String) : Except Invocation Request :=
  match name with
  | "tokens" => once request.listsTokens name { request with listsTokens := true }
  | "print" => once request.prints name { request with prints := true }
  | "no-resolve" => once request.leavesReferences name { request with leavesReferences := true }
  | "verbose" => .ok { request with verbosity := request.verbosity + 1 }
  | "version" => .error .version
  | "help" => .error .help
  | _ => .error (.misuse ("unexpected argument '--" ++ name ++ "' found"))

/-- The argument that sets the greatest length. -/
def takeLength (request : Request) (value : String) : Except Invocation Request :=
  match readLength? value with
  | none => .error (.misuse ("invalid value '" ++ value ++ "' for '--max-file-len <BYTES>'"))
  | some length =>
    once request.maxLength.isSome "max-file-len <BYTES>" { request with maxLength := some length }

/-- The path of a file. -/
def takeFile (request : Request) (path : String) : Except Invocation Request :=
  if path = "" then .error (.misuse "a value is required for '<PROTO_FILES>...'")
  else .ok { request with files := request.files ++ [path] }

/-- An argument that says its value after an equals sign; only the length takes one. -/
def takeAssigned (request : Request) (name value : String) : Except Invocation Request :=
  if name = "max-file-len" then takeLength request value
  else .error (.misuse ("unexpected value '" ++ value ++ "' for '--" ++ name ++ "' found"))

/-- An argument that needs no further one. -/
def takeOne (request : Request) (argument : String) : Except Invocation Request :=
  match argument.toList with
  | '-' :: '-' :: long =>
    let name := long.takeWhile (· ≠ '=')
    match long.drop name.length with
    | [] => takeFlag request (String.ofList name)
    | _ :: value => takeAssigned request (String.ofList name) (String.ofList value)
  | '-' :: letter :: letters => takeLetters request (letter :: letters)
  | _ => takeFile request argument

/-- Takes the arguments one after the other. After two dashes all are files. -/
def takeAll (request : Request) : List String → Except Invocation Request
  | [] => .ok request
  | "--" :: files => files.foldlM takeFile request
  | ["--max-file-len"] => .error (.misuse "a value is required for '--max-file-len <BYTES>'")
  | "--max-file-len" :: value :: rest => do takeAll (← takeLength request value) rest
  | argument :: rest => do takeAll (← takeOne request argument) rest

/-- What the arguments ask for. At least one file must be named. -/
def Invocation.ofArguments (arguments : List String) : Invocation :=
  match takeAll {} arguments with
  | .error invocation => invocation
  | .ok request =>
    if request.files.isEmpty then
      .misuse "the following required arguments were not provided: <PROTO_FILES>..."
    else .run request

/-! ### Work -/

namespace Request

/-- What a request asks of the parser. -/
def parseOptions (request : Request) : ParseOptions :=
  { resolves := !request.leavesReferences
    maxLength := request.maxLength.getD defaultMaxLength }

/-- What is written for a file with the given contents. -/
def process (request : Request) (path : String) (contents : Except String Bytes) :
    Except LoadError String :=
  if request.listsTokens then do
    let tokens ← request.parseOptions.tokenizeContents path contents
    return String.join (tokens.map fun token => token.text ++ "\n")
  else do
    let file ← request.parseOptions.parseContents path contents
    return if request.prints then file.render else ""

end Request

/-- What is printed when asked for the version. -/
def versionText : String := "protofront 0.1.0\n"

/-- What is printed when asked for help. -/
def helpText : String :=
  "A front end for protobuf schema files: tokenizer, parser, validator and scope resolver.\n\n" ++
    "Usage: protofront [OPTIONS] <PROTO_FILES>...\n\n" ++
    "Arguments:\n  <PROTO_FILES>...  The source file(s) to check\n\n" ++
    "Options:\n" ++
    "      --tokens                If set, prints the tokens of each file instead of parsing it\n" ++
    "      --print                 If set, prints each file in canonical form after parsing\n" ++
    "      --no-resolve            If set, named field types are not resolved to messages or " ++
    "enums\n" ++
    "      --max-file-len <BYTES>  The maximum length of a source file, in bytes [default: " ++
    "2147483647]\n" ++
    "  -v, --verbose...            Increases the logging verbosity. May be repeated\n" ++
    "  -h, --help                  Print help\n" ++
    "  -V, --version               Print version\n"

/-- What a run leaves behind. -/
structure Transcript where
  output : String
  errors : List String
  status : Nat
deriving DecidableEq, Repr

namespace Transcript

/-- The transcript after one more file. A failed file does not keep the others from being worked
on. -/
def add (transcript : Transcript) (result : Except LoadError String) : Transcript :=
  match result with
  | .ok output => { transcript with output := transcript.output ++ output }
  | .error error => { transcript with errors := transcript.errors ++ [error.summary], status := 1 }

end Transcript

/-- Runs the command line on files whose contents, or the reason why they cannot be opened, are
given by their paths. -/
def run (arguments : List String) (contents : String → Except String Bytes) : Transcript :=
  match Invocation.ofArguments arguments with
  | .version => ⟨versionText, [], 0⟩
  | .help => ⟨helpText, [], 0⟩
  | .misuse complaint => ⟨"", ["error: " ++ complaint], 2⟩
  | .run request =>
    request.files.foldl (fun transcript path =>
      transcript.add (request.process path (contents path))) ⟨"", [], 0⟩

end CommandLine

end ProtoSchema
