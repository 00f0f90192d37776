/-
This file collects the messages and enums of a file under their names relative
to the package. A name may be written with the package in front, relative to
the package, or starting with the name of any message; where several readings
are possible, that is also the order in which they are tried.
-/

import ProtoSchema.Tree.Declaration

namespace ProtoSchema

/-- A message under its own name and under the name relative to the package. -/
structure DeclaredMessage where
  name : String
  path : String
deriving DecidableEq, Repr

/-- The types of a file. -/
structure SymbolTable where
  package : String
  /-- Every message, before those nested in it. -/
  messages : List DeclaredMessage
  /-- Every enum, under its name relative to the package. -/
  enums : List String
deriving DecidableEq, Repr

namespace SymbolTable

/-! ### Collecting -/

mutual

/-- A message and those inside it, each with its path. -/
def messagesOf (scope : String) : Message → List DeclaredMessage
  | ⟨name, _, _, messages, _, _, _, _, _, _, _⟩ =>
    let path := qualify scope name.text
    ⟨name.text, path⟩ :: messagesIn path messages

/-- The messages in a scope and those inside them. -/
def messagesIn (scope : String) : List Message → List DeclaredMessage
  | [] => []
  | message :: rest => messagesOf scope message ++ messagesIn scope rest

end

/-- The names of some enums in a scope. -/
def enumNames (scope : String) (enums : List Enumeration) : List String :=
  enums.map fun enumeration => qualify scope enumeration.name.text

mutual

/-- The paths of the enums in a message; those of messages inside it come first. -/
def enumsOf (scope : String) : Message → List String
  | ⟨name, _, _, messages, enums, _, _, _, _, _, _⟩ =>
    let path := qualify scope name.text
    enumsIn path messages ++ enumNames path enums

/-- The paths of the enums in messages. -/
def enumsIn (scope : String) : List Message → List String
  | [] => []
  | message :: rest => enumsOf scope message ++ enumsIn scope rest

end

/-- The table of a file. The package is no part of the paths. -/
def ofFile (file : File) : SymbolTable :=
  ⟨file.packageName, messagesIn "" file.messages, enumsIn "" file.messages ++ enumNames "" file.enums⟩

/-! ### Looking up -/

/-- What a name relative to the package stands for. A message takes precedence over an enum. -/
def get? (table : SymbolTable) (name : String) : Option ReferenceKind :=
  if table.messages.any fun message => message.path = name then some .message
  else if name ∈ table.enums then some .enumeration
  else none

/-- Whether an enum has this path. -/
def isEnum (table : SymbolTable) (name : String) : Bool :=
  table.get? name = some .enumeration

/-- A name without the package in front, if it is there. -/
def relative (table : SymbolTable) (name : String) : String :=
  let front := (table.package ++ ".").toList
  if table.package ≠ "" ∧ front.isPrefixOf name.toList then
    String.ofList (name.toList.drop front.length)
  else name

/-- What a name stands for whose first part is the name of a message. -/
def getThrough? (table : SymbolTable) (name : String) : Option ReferenceKind :=
  let first := name.toList.takeWhile (· ≠ '.')
  match name.toList.drop first.length with
  | [] => none
  | _ :: rest => do
    let message ← table.messages.find? fun message => message.name = String.ofList first
    table.get? (qualify message.path (String.ofList rest))

/-- What a name with dots stands for; a message if nothing is known of it. -/
def classifyQualified (table : SymbolTable) (name : String) : ReferenceKind :=
  let relative := table.relative name
  ((table.get? relative).or (table.getThrough? relative)).getD .message

/-- What a name without dots stands for inside the messages of the given names: an enum if one of
them, or the file itself, declares an enum of that name. -/
def classifyBare (table : SymbolTable) (scopes : List String) (name : String) : ReferenceKind :=
  if (scopes ++ [""]).any fun scope => table.isEnum (qualify scope name) then .enumeration
  else .message

/-- What a type name stands for inside the messages of the given names. -/
def classify (table : SymbolTable) (scopes : List String) (name : TypeName) : ReferenceKind :=
  if name.isQualified then table.classifyQualified name.path.text
  else table.classifyBare scopes name.path.text

end SymbolTable

end ProtoSchema
