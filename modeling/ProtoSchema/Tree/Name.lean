/-
This file defines the leaves of a schema tree: names, dotted names, references
to types, integer literals, and the comments of a declaration.
-/

import ProtoSchema.Source.Identifier
import ProtoSchema.Source.Span

namespace ProtoSchema

/-- An identifier and its place. -/
structure Name where
  text : String
  span : Span
deriving DecidableEq, Repr, Inhabited

/-- Identifiers joined by dots, such as the name of a package. -/
structure DottedName where
  parts : List Name
deriving DecidableEq, Repr, Inhabited

namespace DottedName

/-- The parts with dots between them. -/
def text (name : DottedName) : String :=
  ".".intercalate (name.parts.map Name.text)

/-- From the start of the first part to the end of the last. -/
def span (name : DottedName) : Span :=
  ⟨(name.parts.head?.map (·.span.start)).getD 0, (name.parts.getLast?.map (·.span.stop)).getD 0⟩

end DottedName

/-- The name of a type; with a dot in front it is looked up from the root. -/
structure TypeName where
  dot : Option Span
  path : DottedName
deriving DecidableEq, Repr, Inhabited

namespace TypeName

/-- The path, behind a dot if there is one in front. -/
def text (name : TypeName) : String :=
  (if name.dot.isSome then "." else "") ++ name.path.text

/-- From the dot, if there is one, to the end of the path. -/
def span (name : TypeName) : Span :=
  match name.dot with
  | some dot => dot.through name.path.span
  | none => name.path.span

/-- Whether the name has a dot, in front or within. -/
def isQualified (name : TypeName) : Bool :=
  name.dot.isSome || 1 < name.path.parts.length

end TypeName

/-- The comments of a declaration. -/
structure Comments where
  /-- The blocks above the declaration that a blank line separates from it. -/
  detached : List String
  /-- The block directly above the declaration. -/
  leading : Option String
  /-- The comment after the declaration on its line. -/
  trailing : Option String
deriving DecidableEq, Repr, Inhabited

/-- No comments around a declaration. -/
def Comments.none : Comments := ⟨[], .none, .none⟩

end ProtoSchema
