/-
This file loads sources that arrive as bytes, in pieces and perhaps not to the
end. No more is read than it takes to see that a source is too long, so what
would go wrong after that does not matter.
-/

import ProtoSchema.Frontend.Parse

namespace ProtoSchema

/-- Bytes as they arrive: piece after piece, then the end or a failure. -/
structure Delivery where
  pieces : List Bytes
  failure : Option String
deriving DecidableEq, Repr

namespace Delivery

/-- The first bytes of a delivery, up to a limit, after which nothing is asked for any more. An
empty piece is taken for the end. -/
def takeFrom (failure : Option String) : Nat → List Bytes → Except String Bytes
  | 0, _ => .ok []
  | _ + 1, [] =>
    match failure with
    | none => .ok []
    | some reason => .error reason
  | _ + 1, [] :: _ => .ok []
  | limit + 1, piece :: rest => do
    let taken := piece.take (limit + 1)
    return taken ++ (← takeFrom failure (limit + 1 - taken.length) rest)

/-- What is read of a delivery up to a limit, or why reading failed. -/
def take (delivery : Delivery) (limit : Nat) : Except String Bytes :=
  takeFrom delivery.failure limit delivery.pieces

end Delivery

/-- Why a source could not be loaded. -/
inductive LoadError where
  | rejected (report : Report)
  | cannotOpen (path reason : String)
  | cannotRead (name reason : String)
  | tooLarge (name : String) (limit : Nat)
  | notUtf8 (name : String)

namespace LoadError

/-- The text of an error; that of a rejected source is the text of its primary diagnostic. -/
def message : LoadError → String
  | rejected report => report.primary.message
  | cannotOpen path _ => "error opening file '" ++ path ++ "'"
  | cannotRead name _ => "error reading file '" ++ name ++ "'"
  | tooLarge name _ => "file '" ++ name ++ "' is too large"
  | notUtf8 name => "file '" ++ name ++ "' is not valid utf-8"

/-- The message on one line with what else is known: the position, or the reason. -/
def summary (error : LoadError) : String :=
  match error with
  | rejected report => report.summary
  | cannotOpen _ reason | cannotRead _ reason => error.message ++ ": " ++ reason
  | tooLarge _ _ | notUtf8 _ => error.message

/-- The advice that comes with the text, if there is any. -/
def help : LoadError → Option String
  | rejected report => report.primary.help
  | tooLarge _ limit => some (Diagnostic.lengthHelp limit)
  | cannotOpen _ _ | cannotRead _ _ | notUtf8 _ => none

/-- Whether the source itself is at fault. -/
def isAboutSource : LoadError → Bool
  | rejected _ | tooLarge _ _ | notUtf8 _ => true
  | cannotOpen _ _ | cannotRead _ _ => false

/-- Whether the source could not be got at. -/
def isAboutAccess (error : LoadError) : Bool := !error.isAboutSource

end LoadError

/-- The greatest number of bytes that can be asked for, which is the greatest length that a limit
can allow. -/
def greatestLength : Nat := 0xFFFFFFFFFFFFFFFF

/-- How many bytes are asked for. One more than allowed shows that a source is too long, but the
greatest length has nothing above it. -/
def askedLength (maxLength : Nat) : Nat := min (maxLength + 1) greatestLength

/-- The text of a delivery of at most so many bytes. -/
def readSource (name : String) (maxLength : Nat) (delivery : Delivery) :
    Except LoadError String :=
  match delivery.take (askedLength maxLength) with
  | .error reason => .error (.cannotRead name reason)
  | .ok bytes =>
    if maxLength < bytes.length then .error (.tooLarge name maxLength)
    else
      match String.fromUTF8? ⟨bytes.toArray⟩ with
      | some source => .ok source
      | none => .error (.notUtf8 name)

/-- The text of a file with the given contents, or with the reason why it cannot be opened. -/
def openSource (path : String) (maxLength : Nat) (contents : Except String Bytes) :
    Except LoadError String :=
  match contents with
  | .error reason => .error (.cannotOpen path reason)
  | .ok bytes => readSource path maxLength ⟨[bytes], none⟩

namespace ParseOptions

/-- The schema that a delivery spells. -/
def parseDelivery (options : ParseOptions) (delivery : Delivery) : Except LoadError File := do
  let source ← readSource options.fileName options.maxLength delivery
  (options.parse source).mapError .rejected

/-- The schema that a file spells; reports name the path. -/
def parseContents (options : ParseOptions) (path : String) (contents : Except String Bytes) :
    Except LoadError File := do
  let source ← openSource path options.maxLength contents
  ({ options with fileName := path }.parse source).mapError .rejected

/-- The tokens of a file; reports name the path. -/
def tokenizeContents (options : ParseOptions) (path : String) (contents : Except String Bytes) :
    Except LoadError (List ListedToken) := do
  let source ← openSource path options.maxLength contents
  ({ options with fileName := path }.tokenize source).mapError .rejected

end ParseOptions

end ProtoSchema
