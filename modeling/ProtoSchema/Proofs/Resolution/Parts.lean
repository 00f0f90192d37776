/-
This file takes dotted texts apart. A text that is made of parts without dots has
no other parts, so what starts with a package and a dot starts with the parts of
that package, and the first part is what stands before the first dot.
-/

import Mathlib.Data.List.Basic
import ProtoSchema.Proofs.Resolution.Qualified

namespace ProtoSchema

/-- What stands between the dots of a text. -/
def partsOf (text : String) : List String :=
  (text.toList.splitOn '.').map String.ofList

/-- The part is not empty and has no dots. -/
structure IsPart (part : String) : Prop where
  some : part ≠ ""
  plain : '.' ∉ part.toList

theorem Name.WellFormed.isPart {name : Name} (wellFormed : name.WellFormed) : IsPart name.text :=
  ⟨wellFormed.text_ne, dot_notMem_of_isIdentifier wellFormed⟩

theorem TypeName.WellFormed.isPart {name : TypeName} (wellFormed : name.WellFormed) :
    name.path.parts.map Name.text ≠ [] ∧
      ∀ part ∈ name.path.parts.map Name.text, IsPart part := by
  rw [ne_eq, List.map_eq_nil_iff, List.forall_mem_map]
  exact ⟨wellFormed.some, fun part member => (wellFormed.parts part member).isPart⟩

theorem partsOf_ne_nil (text : String) : partsOf text ≠ [] := by
  unfold partsOf
  rw [ne_eq, List.map_eq_nil_iff]
  exact List.splitOn_ne_nil _ _

/-- Parts without dots are the parts of what is made of them. -/
theorem partsOf_intercalate {parts : List String} (some : parts ≠ [])
    (each : ∀ part ∈ parts, IsPart part) : partsOf (".".intercalate parts) = parts := by
  have dot : ".".toList = ['.'] := rfl
  have split : (['.'].intercalate (parts.map String.toList)).splitOn '.' =
      parts.map String.toList := by
    refine List.splitOn_intercalate '.' ?_ ?_
    · rw [List.forall_mem_map]
      exact fun part member => (each part member).plain
    · rw [ne_eq, List.map_eq_nil_iff]
      exact some
  unfold partsOf
  rw [String.toList_intercalate, dot, split, List.map_map]
  simp only [Function.comp_def, String.ofList_toList, List.map_id']

theorem partsOf_append (first second : String) :
    partsOf (first ++ "." ++ second) = partsOf first ++ partsOf second := by
  have characters : (first ++ "." ++ second).toList = first.toList ++ '.' :: second.toList := by
    simp
  unfold partsOf
  rw [characters, List.splitOn_append_cons_self, List.map_append]

/-- What is made of parts without dots is made of no others. -/
theorem intercalate_injective {first second : List String} (firstSome : first ≠ [])
    (secondSome : second ≠ []) (firstEach : ∀ part ∈ first, IsPart part)
    (secondEach : ∀ part ∈ second, IsPart part)
    (same : ".".intercalate first = ".".intercalate second) : first = second := by
  rw [← partsOf_intercalate firstSome firstEach, same, partsOf_intercalate secondSome secondEach]

/-- Without its package, a name of which more is left is the rest of its parts. -/
def File.withoutPackage (file : File) (parts : List String) : List String :=
  if file.packageParts ≠ [] ∧ file.packageParts <+: parts ∧ parts ≠ file.packageParts then
    parts.drop file.packageParts.length
  else parts

namespace File

variable {file : File} {parts : List String}

theorem withoutPackage_append {rest : List String} (package : file.packageParts ≠ [])
    (some : rest ≠ []) : file.withoutPackage (file.packageParts ++ rest) = rest := by
  have more : file.packageParts ++ rest ≠ file.packageParts := by simpa using some
  rw [withoutPackage, if_pos ⟨package, List.prefix_append _ _, more⟩, List.drop_left]

/-- The package is taken from a name, or the name does not start with it. -/
theorem withoutPackage_cases (file : File) (parts : List String) :
    (file.packageParts ≠ [] ∧ ∃ rest, rest ≠ [] ∧ parts = file.packageParts ++ rest ∧
        file.withoutPackage parts = rest) ∨
      ((file.packageParts ≠ [] → ∀ rest, rest ≠ [] → parts ≠ file.packageParts ++ rest) ∧
        file.withoutPackage parts = parts) := by
  by_cases front : file.packageParts ≠ [] ∧ file.packageParts <+: parts ∧
      parts ≠ file.packageParts
  · obtain ⟨package, ⟨rest, rfl⟩, more⟩ := front
    have some : rest ≠ [] := by
      intro none
      rw [none, List.append_nil] at more
      exact more rfl
    exact .inl ⟨package, rest, some, rfl, withoutPackage_append package some⟩
  · refine .inr ⟨?_, if_neg front⟩
    intro package rest some eq
    refine front ⟨package, ⟨rest, eq.symm⟩, ?_⟩
    rw [eq]
    simpa using some

theorem withoutPackage_ne_nil (some : parts ≠ []) : file.withoutPackage parts ≠ [] := by
  obtain ⟨-, rest, restSome, -, eq⟩ | ⟨-, eq⟩ := file.withoutPackage_cases parts
  · rw [eq]
    exact restSome
  · rw [eq]
    exact some

theorem withoutPackage_subset : file.withoutPackage parts ⊆ parts := by
  unfold withoutPackage
  split
  · exact List.drop_subset _ _
  · exact List.Subset.refl _

/-- The name of the package is made of its parts. -/
theorem packageName_eq (file : File) : file.packageName = ".".intercalate file.packageParts := by
  unfold packageName packageParts
  cases file.package with
  | none => rfl
  | some package =>
    simp only [Option.map_some, Option.getD_some, Option.toList_some, List.flatMap_singleton]
    rfl

theorem WellFormed.packagePart (wellFormed : file.WellFormed) :
    ∀ part ∈ file.packageParts, IsPart part := by
  unfold packageParts
  cases found : file.package with
  | none => simp
  | some package =>
    simp only [Option.toList_some, List.flatMap_singleton, List.forall_mem_map]
    intro part member
    exact ((wellFormed.members.package package found).parts part member).isPart

/-- What the lookup takes off a name made of parts is the package, part by part. -/
theorem WellFormed.relative_eq (wellFormed : file.WellFormed) (some : parts ≠ [])
    (each : ∀ part ∈ parts, IsPart part) :
    (SymbolTable.ofFile file).relative (".".intercalate parts) =
      ".".intercalate (file.withoutPackage parts) := by
  have tablePackage : (SymbolTable.ofFile file).package = ".".intercalate file.packageParts :=
    file.packageName_eq
  have packageEach := wellFormed.packagePart
  by_cases package : file.packageParts = []
  · have noName : (SymbolTable.ofFile file).package = "" := by
      rw [tablePackage, package]
      rfl
    rw [SymbolTable.relative_of_empty noName, withoutPackage, if_neg fun both => both.1 package]
  · have named : (SymbolTable.ofFile file).package ≠ "" := by
      rw [tablePackage]
      exact intercalate_ne package fun part member => (packageEach part member).some
    obtain ⟨-, rest, restSome, eq, left⟩ | ⟨others, left⟩ := file.withoutPackage_cases parts
    · rw [left, eq, String.intercalate_append_of_ne_nil package restSome, ← tablePackage]
      exact SymbolTable.relative_append named _
    · rw [left]
      unfold SymbolTable.relative
      refine if_neg fun front => ?_
      obtain ⟨tail, tailEq⟩ := List.isPrefixOf_iff_prefix.mp front.2
      have text : ".".intercalate parts =
          ".".intercalate file.packageParts ++ "." ++ String.ofList tail := by
        rw [← String.toList_inj, ← tailEq, tablePackage]
        simp only [String.toList_append, String.toList_ofList]
      have split := congrArg partsOf text
      rw [partsOf_intercalate some each, partsOf_append,
        partsOf_intercalate package packageEach] at split
      exact others package _ (partsOf_ne_nil _) split

end File

end ProtoSchema
