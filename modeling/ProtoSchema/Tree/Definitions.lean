/-
This file lists the named definitions of a file with their full names. A
package defines each of its leading parts. A message or enum is named within
its package and the messages around it, a method within its service. The values
of an enum are named beside the enum, not inside it.
-/

import ProtoSchema.Tree.Declaration

namespace ProtoSchema

/-- What a name can be given to. -/
inductive DefinitionKind where
  | package
  | message
  | enumeration
  | enumValue
  | service
  | method
deriving DecidableEq, Repr

/-- A definition with its full name, which includes the package. -/
structure Definition where
  fullName : String
  kind : DefinitionKind
  /-- Where the name was declared. -/
  span : Span
  /-- The scope of a message, enum or service; the enum of a value; the service of a method. -/
  container : String
  /-- Declared inside a message. -/
  nested : Bool
deriving DecidableEq, Repr

namespace Definition

/-- Whether two definitions of one full name clash across the file. The parts of a package may
repeat those of another; members of one declaration are compared when that is checked. -/
def conflicts (first second : Definition) : Bool :=
  match first.kind, second.kind with
  | .package, .package => false
  | .message, .message | .message, .enumeration | .enumeration, .message
  | .enumeration, .enumeration =>
    !(first.nested && second.nested && first.container = second.container)
  | .enumValue, .enumValue | .method, .method => first.container ≠ second.container
  | _, _ => true

/-! ### Listing -/

/-- The definitions of the parts of a package name that starts at `start`, after those before
`scope`. -/
def ofParts (start : Nat) (scope : String) : List Name → List Definition
  | [] => []
  | part :: rest =>
    let fullName := qualify scope part.text
    ⟨fullName, .package, ⟨start, part.span.stop⟩, "", false⟩ :: ofParts start fullName rest

/-- Each part of a package name is defined in the part before it. -/
def ofPackage (package : Package) : List Definition :=
  ofParts package.name.span.start "" package.name.parts

/-- An enum and its values, whose names are in the scope of the enum. -/
def ofEnum (scope : String) (nested : Bool) (enumeration : Enumeration) : List Definition :=
  let fullName := qualify scope enumeration.name.text
  ⟨fullName, .enumeration, enumeration.name.span, scope, nested⟩ ::
    enumeration.values.map fun value =>
      ⟨qualify scope value.name.text, .enumValue, value.name.span, fullName, nested⟩

/-- A service and its methods, whose names are in the scope of the service. -/
def ofService (scope : String) (service : Service) : List Definition :=
  let fullName := qualify scope service.name.text
  ⟨fullName, .service, service.name.span, scope, false⟩ ::
    service.methods.map fun method =>
      ⟨qualify fullName method.name.text, .method, method.name.span, fullName, false⟩

mutual

/-- A message, then what is nested in it. -/
def ofMessage (scope : String) (nested : Bool) : Message → List Definition
  | ⟨name, _, _, messages, enums, _, _, _, _, _, _⟩ =>
    let fullName := qualify scope name.text
    ⟨fullName, .message, name.span, scope, nested⟩ ::
      (ofMessages fullName true messages ++ enums.flatMap (ofEnum fullName true))

/-- The definitions in messages, one message after the other. -/
def ofMessages (scope : String) (nested : Bool) : List Message → List Definition
  | [] => []
  | message :: rest => ofMessage scope nested message ++ ofMessages scope nested rest

end

end Definition

namespace File

/-- The scope of the definitions at the top of a file: the package name, built part by part. -/
def scope (file : File) : String :=
  match file.package with
  | some package => package.name.parts.foldl (fun scope part => qualify scope part.text) ""
  | none => ""

/-- Every definition of a file: the package's, the messages', the enums', the services'. -/
def definitions (file : File) : List Definition :=
  file.package.toList.flatMap Definition.ofPackage ++
    Definition.ofMessages file.scope false file.messages ++
    file.enums.flatMap (Definition.ofEnum file.scope false) ++
    file.services.flatMap (Definition.ofService file.scope)

end File

end ProtoSchema
