/-
This file finds the entries of a list whose key has occurred before. Each is
paired with the first entry of its key, not with the nearest.
-/

import ProtoSchema.Diagnostic.Fault
import ProtoSchema.Tree.Name

namespace ProtoSchema

variable {Entry Key : Type} [DecidableEq Key]

/-- The entries whose key has occurred, each after the first entry of that key; `seen` holds the
first entries so far. -/
def clashesAfter (key : Entry → Key) (seen : List Entry) : List Entry → List (Entry × Entry)
  | [] => []
  | entry :: rest =>
    match seen.find? fun earlier => key earlier = key entry with
    | some first => (first, entry) :: clashesAfter key seen rest
    | none => clashesAfter key (entry :: seen) rest

/-- The entries whose key has occurred before in a list, each after the first entry of that key. -/
def clashes (key : Entry → Key) (entries : List Entry) : List (Entry × Entry) :=
  clashesAfter key [] entries

/-- A name that another name has taken. -/
def repeatedName (first second : Name) : SemanticFault :=
  ⟨.repeatedName second.text first.span, second.span⟩

/-- The names of a list that have occurred before. -/
def repeatedNames (names : List Name) : List SemanticFault :=
  (clashes Name.text names).map fun (first, second) => repeatedName first second

/-- The fault of a name that does not start with an uppercase letter. -/
def typeNameFaults (kind : TypeLike) (name : Name) : List SemanticFault :=
  if isTypeIdentifier name.text then [] else [⟨.badTypeName kind name.text, name.span⟩]

end ProtoSchema
