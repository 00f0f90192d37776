/-
This file says what a name with dots is looked up as, path by path. Without the
package, the name is the path of a message or of an enum; or else its first part
is taken for the first message of that name, wherever it is declared, and the
other parts are looked for in there. A dot in front of the name changes nothing.
-/

import ProtoSchema.Proofs.Resolution.Parts

namespace ProtoSchema

/-! ### The messages of a file in order -/

mutual

/-- The paths of a message in the messages of the given names and of the messages in it. -/
def Message.paths (outer : List String) : Message → List (List String)
  | ⟨name, _, _, messages, _, _, _, _, _, _, _⟩ =>
    (outer ++ [name.text]) :: Message.pathsOf (outer ++ [name.text]) messages

/-- The paths to messages and to those inside them. -/
def Message.pathsOf (outer : List String) : List Message → List (List String)
  | [] => []
  | message :: rest => message.paths outer ++ Message.pathsOf outer rest

end

theorem Message.pathsOf_eq (outer : List String) (messages : List Message) :
    pathsOf outer messages = messages.flatMap (paths outer) := by
  induction messages with
  | nil => rfl
  | cons message rest inductionHypothesis =>
    rw [pathsOf, inductionHypothesis, List.flatMap_cons]

theorem Message.paths_eq (outer : List String) (message : Message) :
    message.paths outer =
      (outer ++ [message.name.text]) ::
        message.messages.flatMap (paths (outer ++ [message.name.text])) := by
  cases message
  rw [paths, pathsOf_eq]

/-- A message of the table under its path. -/
def DeclaredMessage.ofPath (path : List String) : DeclaredMessage :=
  ⟨path.getLastD "", ".".intercalate path⟩

namespace File

/-- The paths of all messages, each before those of the messages in it. -/
def messagePaths (file : File) : List (List String) := Message.pathsOf [] file.messages

/-- The path of the first message of a name, wherever it is declared. -/
def firstMessage? (file : File) (name : String) : Option (List String) :=
  file.messagePaths.find? fun path => path.getLastD "" = name

variable {file : File} {around : List Message} {path : List String}

theorem WellFormed.messagesOf_eq (wellFormed : file.WellFormed) (message : Message) :
    ∀ {around : List Message}, file.Place around → message ∈ file.messagesAt around →
      SymbolTable.messagesOf (pathOf around) message =
        (message.paths (namesOf around)).map DeclaredMessage.ofPath := by
  induction message using Message.induction with
  | step message inductionHypothesis =>
    intro around place member
    have inside := place.inside member
    have inner : message.messages.flatMap (SymbolTable.messagesOf (pathOf (message :: around))) =
        message.messages.flatMap fun inner =>
          (inner.paths (namesOf (message :: around))).map DeclaredMessage.ofPath :=
      List.flatMap_congr fun inner innerMember =>
        inductionHypothesis inner innerMember inside innerMember
    have name : DeclaredMessage.ofPath (namesOf around ++ [message.name.text]) =
        ⟨message.name.text, qualify (pathOf around) message.name.text⟩ := by
      rw [wellFormed.qualify_pathOf place, DeclaredMessage.ofPath, List.getLastD_concat]
    rw [SymbolTable.messagesOf_eq, Message.paths_eq, List.map_cons, List.map_flatMap, name,
      ← pathOf_cons, ← namesOf_cons, inner]

/-- The table lists the messages of the file in order. -/
theorem WellFormed.messages_ofFile (wellFormed : file.WellFormed) :
    (SymbolTable.ofFile file).messages = file.messagePaths.map DeclaredMessage.ofPath := by
  have each : file.messages.flatMap (SymbolTable.messagesOf (pathOf [])) =
      file.messages.flatMap fun message =>
        (message.paths (namesOf [])).map DeclaredMessage.ofPath :=
    List.flatMap_congr fun message member => wellFormed.messagesOf_eq message .top member
  rw [messagePaths, Message.pathsOf_eq, List.map_flatMap, SymbolTable.ofFile,
    SymbolTable.messagesIn_eq]
  exact each

theorem declaresMessage_of_mem_paths (message : Message) :
    ∀ {around : List Message}, file.Place around → message ∈ file.messagesAt around →
      path ∈ message.paths (namesOf around) → file.DeclaresMessage path := by
  induction message using Message.induction with
  | step message inductionHypothesis =>
    intro around place messageMember member
    rw [Message.paths_eq, List.mem_cons, List.mem_flatMap] at member
    obtain rfl | ⟨inner, innerMember, member⟩ := member
    · exact ⟨around, place, message, messageMember, rfl⟩
    · rw [← namesOf_cons] at member
      exact inductionHypothesis inner innerMember (place.inside messageMember) innerMember member

/-- The first message of a name is declared in the file. -/
theorem declaresMessage_of_firstMessage? {name : String} (found : file.firstMessage? name = some path) :
    file.DeclaresMessage path := by
  have member := List.mem_of_find?_eq_some found
  rw [messagePaths, Message.pathsOf_eq, List.mem_flatMap] at member
  obtain ⟨message, messageMember, member⟩ := member
  exact declaresMessage_of_mem_paths message .top messageMember member

end File

/-! ### What is found under a path -/

/-- What is found under a name is a message or an enum. -/
theorem SymbolTable.get?_cases (table : SymbolTable) (name : String) :
    table.get? name = some .message ∨ table.get? name = some .enumeration ∨
      table.get? name = none := by
  unfold get?
  split
  · exact .inl rfl
  · split
    · exact .inr (.inl rfl)
    · exact .inr (.inr rfl)

namespace File

variable {file : File} {around : List Message} {path : List String}

/-- The names of the messages around a place have no dots. -/
theorem WellFormed.isPart_namesOf (wellFormed : file.WellFormed) (place : file.Place around) :
    ∀ name ∈ namesOf around, IsPart name := by
  induction place with
  | top => exact fun _ member => absurd member List.not_mem_nil
  | @inside message around outer member inductionHypothesis =>
    have identifier : message.name.WellFormed := wellFormed.isIdentifier_messageAt outer member
    rw [namesOf_cons, List.forall_mem_append, List.forall_mem_singleton]
    exact ⟨inductionHypothesis, identifier.isPart⟩

theorem WellFormed.isPart_of_declaresMessage (wellFormed : file.WellFormed)
    (declares : file.DeclaresMessage path) : path ≠ [] ∧ ∀ part ∈ path, IsPart part := by
  obtain ⟨around, place, message, member, rfl⟩ := declares
  have identifier : message.name.WellFormed := wellFormed.isIdentifier_messageAt place member
  refine ⟨by simp, ?_⟩
  rw [List.forall_mem_append, List.forall_mem_singleton]
  exact ⟨wellFormed.isPart_namesOf place, identifier.isPart⟩

theorem WellFormed.isPart_of_declaresEnum (wellFormed : file.WellFormed)
    (declares : file.DeclaresEnum path) : path ≠ [] ∧ ∀ part ∈ path, IsPart part := by
  obtain ⟨around, place, enumeration, member, rfl⟩ := declares
  have identifier : enumeration.name.WellFormed := wellFormed.isIdentifier_enumAt place member
  refine ⟨by simp, ?_⟩
  rw [List.forall_mem_append, List.forall_mem_singleton]
  exact ⟨wellFormed.isPart_namesOf place, identifier.isPart⟩

/-- Nothing but an enum is found as an enum under its path. -/
theorem WellFormed.get?_eq_enumeration_iff (wellFormed : file.WellFormed) (some : path ≠ [])
    (each : ∀ part ∈ path, IsPart part) :
    (SymbolTable.ofFile file).get? (".".intercalate path) = .some .enumeration ↔
      file.DeclaresEnum path := by
  refine ⟨fun found => ?_, wellFormed.get?_of_declaresEnum⟩
  unfold SymbolTable.get? at found
  split at found
  · cases found
  · split at found
    · next member =>
      obtain ⟨around, place, enumeration, enumMember, same⟩ := exists_place_of_mem_enums member
      have declares : file.DeclaresEnum (namesOf around ++ [enumeration.name.text]) :=
        ⟨around, place, enumeration, enumMember, rfl⟩
      obtain ⟨otherSome, otherEach⟩ := wellFormed.isPart_of_declaresEnum declares
      rw [wellFormed.qualify_pathOf place] at same
      rw [intercalate_injective some otherSome each otherEach same]
      exact declares
    · cases found

/-- Nothing but a message is found as a message under its path. -/
theorem WellFormed.get?_eq_message_iff (wellFormed : file.WellFormed) (some : path ≠ [])
    (each : ∀ part ∈ path, IsPart part) :
    (SymbolTable.ofFile file).get? (".".intercalate path) = .some .message ↔
      file.DeclaresMessage path := by
  refine ⟨fun found => ?_, wellFormed.get?_of_declaresMessage⟩
  unfold SymbolTable.get? at found
  split at found
  · next any =>
    obtain ⟨declared, member, same⟩ := List.any_eq_true.mp any
    obtain ⟨around, place, message, messageMember, path⟩ := exists_place_of_mem_messages member
    have declares : file.DeclaresMessage (namesOf around ++ [message.name.text]) :=
      ⟨around, place, message, messageMember, rfl⟩
    obtain ⟨otherSome, otherEach⟩ := wellFormed.isPart_of_declaresMessage declares
    rw [decide_eq_true_eq, path, wellFormed.qualify_pathOf place] at same
    rw [intercalate_injective some otherSome each otherEach same.symm]
    exact declares
  · split at found
    · cases found
    · cases found

/-! ### What a name is read as -/

/-- The first part of the name is read as the first message of that name, and the other parts lead
from there to an enum. -/
def ReadsThrough (file : File) (parts : List String) : Prop :=
  ∃ first nested outer, parts = first :: nested ∧ nested ≠ [] ∧
    file.firstMessage? first = some outer ∧ file.DeclaresEnum (outer ++ nested)

/-- The name, without the package, is read as that of an enum: it is the path of one, or it is not
that of a message and leads to an enum through the first message of its first part. -/
def ReadsEnum (file : File) (parts : List String) : Prop :=
  file.DeclaresEnum parts ∨ (¬ file.DeclaresMessage parts ∧ file.ReadsThrough parts)

/-- What stands before the first dot and after it. -/
theorem split_intercalate {first : String} (plain : IsPart first) (nested : List String) :
    (".".intercalate (first :: nested)).toList.takeWhile (· ≠ '.') = first.toList ∧
      (".".intercalate (first :: nested)).toList.drop first.toList.length =
        if nested = [] then [] else '.' :: (".".intercalate nested).toList := by
  have ends (rest : List Char) (noMore : rest.head? = none ∨ rest.head? = some '.') :
      (first.toList ++ rest).takeWhile (· ≠ '.') = first.toList := by
    have all : ∀ character ∈ first.toList, decide (character ≠ '.') = true := by
      intro character member
      rw [decide_eq_true_eq]
      intro same
      exact plain.plain (same ▸ member)
    rw [List.takeWhile_append_of_pos all]
    cases rest with
    | nil => simp
    | cons next others => simp_all
  cases nested with
  | nil =>
    have none := ends [] (.inl rfl)
    rw [List.append_nil] at none
    rw [String.intercalate_singleton, none, if_pos rfl, List.drop_length]
    exact ⟨rfl, rfl⟩
  | cons second others =>
    have text : (".".intercalate (first :: second :: others)).toList =
        first.toList ++ '.' :: (".".intercalate (second :: others)).toList := by
      rw [String.intercalate_cons_cons]
      simp
    rw [text, ends _ (.inr rfl), if_neg (List.cons_ne_nil _ _), List.drop_left]
    exact ⟨rfl, rfl⟩

/-- What is found through the first part of a name is what its other parts lead to from the first
message of that name. -/
theorem WellFormed.getThrough?_eq_enumeration_iff (wellFormed : file.WellFormed)
    {parts : List String} (each : ∀ part ∈ parts, IsPart part) (some : parts ≠ []) :
    (SymbolTable.ofFile file).getThrough? (".".intercalate parts) = .some .enumeration ↔
      file.ReadsThrough parts := by
  obtain ⟨first, nested, rfl⟩ := List.exists_cons_of_ne_nil some
  obtain ⟨before, after⟩ := split_intercalate (each first List.mem_cons_self) nested
  have nestedEach : ∀ part ∈ nested, IsPart part :=
    fun part member => each part (List.mem_cons_of_mem _ member)
  unfold SymbolTable.getThrough?
  dsimp only
  rw [before]
  by_cases single : nested = []
  · rw [after, if_pos single]
    constructor
    · intro found
      cases found
    · intro ⟨_, others, _, eq, more, _⟩
      exact absurd ((List.cons.inj eq).2 ▸ single) more
  · have search : (SymbolTable.ofFile file).messages.find? (fun message => message.name = first) =
        (file.firstMessage? first).map DeclaredMessage.ofPath := by
      rw [wellFormed.messages_ofFile, List.find?_map]
      rfl
    have reads : file.ReadsThrough (first :: nested) ↔
        ∃ outer, file.firstMessage? first = .some outer ∧ file.DeclaresEnum (outer ++ nested) := by
      constructor
      · intro ⟨_, _, outer, eq, _, found, declares⟩
        obtain ⟨rfl, rfl⟩ := List.cons.inj eq
        exact ⟨outer, found, declares⟩
      · intro ⟨outer, found, declares⟩
        exact ⟨first, nested, outer, rfl, single, found, declares⟩
    rw [after, if_neg single, reads]
    simp only [String.ofList_toList, search, Option.bind_eq_bind, Option.bind_map,
      Option.bind_eq_some_iff, Function.comp_apply]
    refine exists_congr fun outer => and_congr_right fun found => ?_
    obtain ⟨outerSome, outerEach⟩ :=
      wellFormed.isPart_of_declaresMessage (declaresMessage_of_firstMessage? found)
    have joined : qualify (DeclaredMessage.ofPath outer).path (".".intercalate nested) =
        ".".intercalate (outer ++ nested) := by
      have named : ".".intercalate outer ≠ "" :=
        intercalate_ne outerSome fun part member => (outerEach part member).some
      rw [String.intercalate_append_of_ne_nil outerSome single, qualify, DeclaredMessage.ofPath,
        if_neg named]
    rw [joined]
    refine wellFormed.get?_eq_enumeration_iff (by simp [outerSome]) ?_
    exact List.forall_mem_append.mpr ⟨outerEach, nestedEach⟩

/-- A name with dots is that of an enum exactly if it is read as that of one. -/
theorem WellFormed.classifyQualified_eq_enumeration_iff (wellFormed : file.WellFormed)
    {parts : List String} (each : ∀ part ∈ parts, IsPart part) (some : parts ≠ []) :
    (SymbolTable.ofFile file).classifyQualified (".".intercalate parts) = .enumeration ↔
      file.ReadsEnum (file.withoutPackage parts) := by
  have relativeSome : file.withoutPackage parts ≠ [] := withoutPackage_ne_nil some
  have relativeEach : ∀ part ∈ file.withoutPackage parts, IsPart part :=
    fun part member => each part (withoutPackage_subset member)
  have isEnum := wellFormed.get?_eq_enumeration_iff relativeSome relativeEach
  have isMessage := wellFormed.get?_eq_message_iff relativeSome relativeEach
  have through := wellFormed.getThrough?_eq_enumeration_iff relativeEach relativeSome
  unfold SymbolTable.classifyQualified ReadsEnum
  dsimp only
  rw [wellFormed.relative_eq some each, ← isEnum, ← isMessage, ← through]
  obtain found | found | found :=
    (SymbolTable.ofFile file).get?_cases (".".intercalate (file.withoutPackage parts))
  · simp [found]
  · simp [found]
  · cases throughFound : (SymbolTable.ofFile file).getThrough?
        (".".intercalate (file.withoutPackage parts)) with
    | some kind => simp [found]
    | none => simp [found]

/-- A site of a resolved file is a site of the file with its reference resolved. -/
theorem WellFormed.exists_site_of_resolve (wellFormed : file.WellFormed) {site : Site}
    (member : site ∈ file.resolve.sites) :
    ∃ around, site.type.name.WellFormed ∧
      site.type.kind = (SymbolTable.ofFile file).classify (scopesOf around) site.type.name := by
  have entry := List.mem_map_of_mem member (f := Site.entry)
  rw [file.entries_resolve] at entry
  obtain ⟨original, originalMember, same⟩ := List.mem_map.mp entry
  obtain ⟨-, type⟩ := wellFormed.sites original originalMember
  have resolved : (SymbolTable.ofFile file).resolveReference (scopesOf original.around)
      original.type = site.type := (Prod.mk.inj same).2
  refine ⟨original.around, ?_, ?_⟩
  · rw [← resolved, SymbolTable.name_resolveReference]
    exact type.name
  · rw [← resolved, SymbolTable.name_resolveReference, SymbolTable.resolveReference,
      if_pos type.undecided]

/-- In a resolved file, a type whose name has a dot, in front or within, is an enum exactly if the
name is read as that of one. -/
theorem WellFormed.kind_of_isQualified (wellFormed : file.WellFormed) {site : Site}
    (member : site ∈ file.resolve.sites) (qualified : site.type.name.isQualified = true) :
    site.type.kind = .enumeration ↔
      file.ReadsEnum (file.withoutPackage (site.type.name.path.parts.map Name.text)) := by
  obtain ⟨around, name, kind⟩ := wellFormed.exists_site_of_resolve member
  obtain ⟨some, each⟩ := name.isPart
  rw [kind, SymbolTable.classify, if_pos qualified, DottedName.text]
  exact wellFormed.classifyQualified_eq_enumeration_iff each some

/-! ### Resolving -/

theorem withoutPackage_resolve (file : File) (parts : List String) :
    file.resolve.withoutPackage parts = file.withoutPackage parts := rfl

theorem pathsOf_resolveMessage (table : SymbolTable) (message : Message) :
    ∀ (scopes outer : List String),
      (table.resolveMessage scopes message).paths outer = message.paths outer := by
  induction message using Message.induction with
  | step message inductionHypothesis =>
    intro scopes outer
    have inner : message.messages.flatMap (fun inner =>
        (table.resolveMessage (SymbolTable.enter scopes message) inner).paths
          (outer ++ [message.name.text])) =
        message.messages.flatMap (Message.paths (outer ++ [message.name.text])) :=
      List.flatMap_congr fun inner member => inductionHypothesis inner member _ _
    rw [Message.paths_eq, Message.paths_eq, SymbolTable.resolveMessage_eq]
    simp only [List.flatMap_map, inner]

theorem firstMessage?_resolve (file : File) (name : String) :
    file.resolve.firstMessage? name = file.firstMessage? name := by
  have paths : file.resolve.messagePaths = file.messagePaths := by
    simp only [messagePaths, resolve, SymbolTable.resolveMessages_eq, Message.pathsOf_eq,
      List.flatMap_map, pathsOf_resolveMessage]
  rw [firstMessage?, paths, firstMessage?]

theorem readsThrough_resolve {parts : List String} :
    file.resolve.ReadsThrough parts ↔ file.ReadsThrough parts := by
  unfold ReadsThrough
  simp only [firstMessage?_resolve, declaresEnum_resolve]

/-- A name is read in a resolved file as it is in the file. -/
theorem readsEnum_resolve {parts : List String} :
    file.resolve.ReadsEnum parts ↔ file.ReadsEnum parts := by
  unfold ReadsEnum
  rw [declaresEnum_resolve, declaresMessage_resolve, readsThrough_resolve]

end File

end ProtoSchema
