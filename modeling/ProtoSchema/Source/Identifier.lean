/-
This file says what an identifier is, when it may name a type, and how the name
of a scope and the name of a member combine into a dotted name.
-/

namespace ProtoSchema

/-- The characters that may start an identifier: ASCII letters and the underscore. -/
def isIdentifierStart (character : Char) : Bool :=
  character.isAlpha || character = '_'

/-- The characters that may continue an identifier: ASCII letters, digits and the underscore. -/
def isIdentifierPart (character : Char) : Bool :=
  character.isAlphanum || character = '_'

/-- A letter or underscore followed by letters, digits and underscores. -/
def isIdentifier (word : String) : Bool :=
  match word.toList with
  | [] => false
  | first :: rest => isIdentifierStart first && rest.all isIdentifierPart

/-- An identifier that starts with an uppercase letter. -/
def isTypeIdentifier (word : String) : Bool :=
  (word.toList.head?.any Char.isUpper) && isIdentifier word

/-- The name of a member in a scope; the empty scope adds nothing. -/
def qualify (scope name : String) : String :=
  if scope = "" then name else scope ++ "." ++ name

@[simp] theorem qualify_empty (name : String) : qualify "" name = name := by
  simp [qualify]

end ProtoSchema
