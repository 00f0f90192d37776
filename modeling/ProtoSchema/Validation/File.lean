/-
This file checks what only a whole file shows: its imports, its package name,
and that no two definitions anywhere in it share a full name, except for those
pairs that are compared when the declaration they belong to is checked.
-/

import ProtoSchema.Tree.Definitions
import ProtoSchema.Validation.Clashes

namespace ProtoSchema

/-- The components of a path, cut at its slashes. -/
def pathComponents : List Char → List (List Char)
  | [] => [[]]
  | first :: rest =>
    if first = '/' then [] :: pathComponents rest
    else
      match pathComponents rest with
      | [] => [[first]]
      | component :: others => (first :: component) :: others

/-- Import paths have no backslash and no component that is empty, a dot or two dots. -/
def isImportPath (path : String) : Bool :=
  !path.toList.contains '\\' &&
    (pathComponents path.toList).all fun component =>
      component ≠ [] && component ≠ ['.'] && component ≠ ['.', '.']

namespace File

/-- The paths are of the right form, and no file is imported twice. -/
def importFaults (file : File) : List SemanticFault :=
  file.imports.flatMap (fun entry =>
    if isImportPath entry.path.text then [] else [⟨.badImportPath, entry.path.span⟩]) ++
    (clashes (·.path.text) file.imports).map fun (first, second) =>
      ⟨.repeatedImport second.path.text first.span, second.span⟩

/-- The parts of the package name are identifiers. -/
def packageFaults (file : File) : List SemanticFault :=
  file.package.toList.flatMap fun package =>
    package.name.parts.flatMap fun part =>
      if isIdentifier part.text then [] else [⟨.badPackageName package.name.text, part.span⟩]

/-- No full name is given to two definitions that cannot share it. -/
def definitionFaults (file : File) : List SemanticFault :=
  ((clashes Definition.fullName file.definitions).filter
    fun (first, second) => first.conflicts second).map fun (first, second) =>
      ⟨.repeatedName second.fullName first.span, second.span⟩

/-- Everything wrong with a file as a whole. -/
def faults (file : File) : List SemanticFault :=
  file.importFaults ++ file.packageFaults ++ file.definitionFaults

end File

end ProtoSchema
