/-
This file shows what names with dots in them are resolved to. A name that is
written with the package in front, or without one in a file that has none, is
looked up under exactly the path of names that it spells: taking the package
away never cuts a part in two, because the package is made of whole parts. Every
message and enum is found under its path, and no two are under one.
-/

import ProtoSchema.Proofs.Resolution.Places
import ProtoSchema.Proofs.Resolution.Sites

namespace ProtoSchema

/-! ### Names made of parts -/

theorem Name.WellFormed.text_ne {name : Name} (wellFormed : name.WellFormed) : name.text ≠ "" := by
  intro empty
  rw [Name.WellFormed, empty] at wellFormed
  exact absurd wellFormed (by decide)

theorem intercalate_ne {parts : List String} (some : parts ≠ []) (each : ∀ part ∈ parts, part ≠ "") :
    ".".intercalate parts ≠ "" := by
  obtain ⟨first, rest, rfl⟩ := List.exists_cons_of_ne_nil some
  intro empty
  cases rest with
  | nil => exact each first List.mem_cons_self (by simpa using empty)
  | cons second others =>
    have characters := congrArg String.toList empty
    rw [String.intercalate_cons_cons] at characters
    simp at characters

/-- In a scope that is made of names, the name of a member is joined on by a dot. -/
theorem qualify_intercalate {scope : List String} (each : ∀ part ∈ scope, part ≠ "")
    (name : String) :
    qualify (".".intercalate scope) name = ".".intercalate (scope ++ [name]) := by
  by_cases empty : scope = []
  · subst empty
    simp
  · rw [qualify, if_neg (intercalate_ne empty each),
      String.intercalate_append_of_ne_nil empty (List.cons_ne_nil _ _),
      String.intercalate_singleton]

namespace SymbolTable

variable {table : SymbolTable}

/-- Of a name with the package in front, what follows the package is looked up. -/
theorem relative_append (some : table.package ≠ "") (name : String) :
    table.relative (table.package ++ "." ++ name) = name := by
  have characters : (table.package ++ "." ++ name).toList =
      (table.package ++ ".").toList ++ name.toList := String.toList_append
  have front : (table.package ++ ".").toList.isPrefixOf
      (table.package ++ "." ++ name).toList = true := by
    rw [List.isPrefixOf_iff_prefix, characters]
    exact List.prefix_append _ _
  rw [relative, if_pos ⟨some, front⟩, characters, List.drop_left, String.ofList_toList]

/-- Without a package, a name is looked up as it is written. -/
theorem relative_of_empty (none : table.package = "") (name : String) :
    table.relative name = name := by
  rw [relative, if_neg fun both => both.1 none]

end SymbolTable

/-! ### What is found under a path -/

namespace File

variable {file : File} {around : List Message}

/-- The messages in a place are in the table, with those in them. -/
theorem Place.subset_messages (place : file.Place around) :
    (file.messagesAt around).flatMap (SymbolTable.messagesOf (pathOf around)) ⊆
      (SymbolTable.ofFile file).messages := by
  induction place with
  | top =>
    rw [SymbolTable.ofFile, SymbolTable.messagesIn_eq]
    exact List.Subset.refl _
  | @inside message around _ messageMember inductionHypothesis =>
    intro declared member
    refine inductionHypothesis (List.mem_flatMap.mpr ⟨message, messageMember, ?_⟩)
    rw [SymbolTable.messagesOf_eq]
    exact List.mem_cons_of_mem _ member

/-- The name that a place is looked up under is made of the names of the messages around it. -/
theorem WellFormed.pathOf_eq (wellFormed : file.WellFormed) (place : file.Place around) :
    pathOf around = ".".intercalate (namesOf around) ∧ ∀ name ∈ namesOf around, name ≠ "" := by
  induction place with
  | top => exact ⟨rfl, fun _ member => absurd member List.not_mem_nil⟩
  | @inside message around outer member inductionHypothesis =>
    obtain ⟨path, names⟩ := inductionHypothesis
    have identifier : message.name.WellFormed := wellFormed.isIdentifier_messageAt outer member
    rw [namesOf_cons, pathOf_cons, path, qualify_intercalate names]
    refine ⟨rfl, List.forall_mem_append.mpr ⟨names, List.forall_mem_singleton.mpr ?_⟩⟩
    exact identifier.text_ne

theorem WellFormed.qualify_pathOf (wellFormed : file.WellFormed) (place : file.Place around)
    (name : String) :
    qualify (pathOf around) name = ".".intercalate (namesOf around ++ [name]) := by
  obtain ⟨path, names⟩ := wellFormed.pathOf_eq place
  rw [path, qualify_intercalate names]

/-- A message is found under its path. -/
theorem WellFormed.get?_of_declaresMessage (wellFormed : file.WellFormed) {path : List String}
    (declares : file.DeclaresMessage path) :
    (SymbolTable.ofFile file).get? (".".intercalate path) = some .message := by
  obtain ⟨around, place, message, member, rfl⟩ := declares
  have found : ((SymbolTable.ofFile file).messages.any fun declared =>
      declared.path = ".".intercalate (namesOf around ++ [message.name.text])) = true := by
    rw [← wellFormed.qualify_pathOf place, List.any_eq_true]
    refine ⟨⟨message.name.text, qualify (pathOf around) message.name.text⟩, ?_, by simp⟩
    refine place.subset_messages (List.mem_flatMap.mpr ⟨message, member, ?_⟩)
    rw [SymbolTable.messagesOf_eq]
    exact List.mem_cons_self
  rw [SymbolTable.get?, if_pos found]

/-- An enum is found under its path, for no message has that path. -/
theorem WellFormed.get?_of_declaresEnum (wellFormed : file.WellFormed) {path : List String}
    (declares : file.DeclaresEnum path) :
    (SymbolTable.ofFile file).get? (".".intercalate path) = some .enumeration := by
  obtain ⟨around, place, enumeration, member, rfl⟩ := declares
  have isEnum := (wellFormed.isEnum_iff place
    (wellFormed.isIdentifier_enumAt place member)).mpr ⟨enumeration, member, rfl⟩
  rw [SymbolTable.isEnum, decide_eq_true_eq] at isEnum
  rw [← wellFormed.qualify_pathOf place, isEnum]

/-! ### Names that spell a path -/

/-- The parts of the name of the package; none if there is no package. -/
def packageParts (file : File) : List String :=
  (file.package.toList.flatMap fun package => package.name.parts).map Name.text

/-- A name is written as the package and then a path. Without a package, a path of one name is
written with a dot in front; otherwise it would be a bare name. -/
structure Spells (file : File) (name : TypeName) (path : List String) : Prop where
  parts : name.path.parts.map Name.text = file.packageParts ++ path
  dotted : file.package = none → name.dot.isSome = true ∨ 2 ≤ path.length

/-- A name that spells a path is looked up under that path. -/
theorem WellFormed.relative_of_spells (wellFormed : file.WellFormed) {name : TypeName}
    {path : List String} (some : path ≠ []) (spells : file.Spells name path) :
    name.isQualified = true ∧
      (SymbolTable.ofFile file).relative name.path.text = ".".intercalate path := by
  obtain ⟨parts, dotted⟩ := spells
  have length : name.path.parts.length = file.packageParts.length + path.length := by
    rw [← List.length_append, ← parts, List.length_map]
  have pathLength := List.length_pos_iff.mpr some
  rw [TypeName.isQualified, Bool.or_eq_true, decide_eq_true_eq, DottedName.text, parts, length]
  have tablePackage : (SymbolTable.ofFile file).package = file.packageName := rfl
  cases found : file.package with
  | none =>
    have noParts : file.packageParts = [] := by rw [packageParts, found]; rfl
    have noName : file.packageName = "" := by rw [packageName, found]; rfl
    rw [noParts, List.nil_append, List.length_nil, Nat.zero_add]
    exact ⟨(dotted found).imp_right fun two => by omega,
      SymbolTable.relative_of_empty (tablePackage.trans noName) _⟩
  | some package =>
    obtain ⟨partsSome, partsWellFormed⟩ := wellFormed.members.package package found
    have packageParts : file.packageParts = package.name.parts.map Name.text := by
      simp [File.packageParts, found]
    have packageName : file.packageName = ".".intercalate file.packageParts := by
      rw [packageParts, File.packageName, found]
      rfl
    have partsNe : file.packageParts ≠ [] := by
      rw [packageParts, ne_eq, List.map_eq_nil_iff]
      exact partsSome
    have each : ∀ part ∈ file.packageParts, part ≠ "" := by
      rw [packageParts, List.forall_mem_map]
      exact fun part member => (partsWellFormed part member).text_ne
    have partsLength := List.length_pos_iff.mpr partsNe
    refine ⟨.inr (by omega), ?_⟩
    rw [String.intercalate_append_of_ne_nil partsNe some, ← packageName, ← tablePackage]
    refine SymbolTable.relative_append ?_ _
    rw [tablePackage, packageName]
    exact intercalate_ne partsNe each

/-- A name that spells the path of a message or an enum is classified as that. -/
theorem WellFormed.classify_of_spells (wellFormed : file.WellFormed) {name : TypeName}
    {path : List String} (spells : file.Spells name path) (scopes : List String) :
    (file.DeclaresMessage path →
        (SymbolTable.ofFile file).classify scopes name = .message) ∧
      (file.DeclaresEnum path →
        (SymbolTable.ofFile file).classify scopes name = .enumeration) := by
  have looked (some : path ≠ []) {kind : ReferenceKind}
      (found : (SymbolTable.ofFile file).get? (".".intercalate path) = .some kind) :
      (SymbolTable.ofFile file).classify scopes name = kind := by
    obtain ⟨qualified, relative⟩ := wellFormed.relative_of_spells some spells
    rw [SymbolTable.classify, if_pos qualified, SymbolTable.classifyQualified, relative, found]
    rfl
  constructor
  · intro declares
    refine looked ?_ (wellFormed.get?_of_declaresMessage declares)
    obtain ⟨around, -, message, -, rfl⟩ := declares
    simp
  · intro declares
    refine looked ?_ (wellFormed.get?_of_declaresEnum declares)
    obtain ⟨around, -, enumeration, -, rfl⟩ := declares
    simp

theorem spells_resolve {name : TypeName} {path : List String} :
    file.resolve.Spells name path ↔ file.Spells name path :=
  ⟨fun ⟨parts, dotted⟩ => ⟨parts, dotted⟩, fun ⟨parts, dotted⟩ => ⟨parts, dotted⟩⟩

/-- In a resolved file, a type whose name spells the path of a message or an enum is that. -/
theorem WellFormed.kind_of_spells (wellFormed : file.WellFormed) {site : Site}
    (member : site ∈ file.resolve.sites) {path : List String}
    (spells : file.Spells site.type.name path) :
    (file.DeclaresMessage path → site.type.kind = .message) ∧
      (file.DeclaresEnum path → site.type.kind = .enumeration) := by
  have entry := List.mem_map_of_mem member (f := Site.entry)
  rw [file.entries_resolve] at entry
  obtain ⟨original, originalMember, same⟩ := List.mem_map.mp entry
  obtain ⟨-, type⟩ := wellFormed.sites original originalMember
  have resolved : (SymbolTable.ofFile file).resolveReference (scopesOf original.around)
      original.type = site.type := (Prod.mk.inj same).2
  have name : site.type.name = original.type.name := by
    rw [← resolved, SymbolTable.name_resolveReference]
  rw [name] at spells
  rw [← resolved, SymbolTable.resolveReference, if_pos type.undecided]
  exact wellFormed.classify_of_spells spells _

end File

end ProtoSchema
