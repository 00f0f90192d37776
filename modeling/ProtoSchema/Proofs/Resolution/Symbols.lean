/-
This file compares the two collections of names of a file. The symbol table lists
the messages in the order of their paths and under the names along them, without
the package; the definitions have the package in front. In a well-formed file no
name is empty, so the names of one are those of the other within the package, for
messages and, as no message and enum share a name, for enums.
-/

import ProtoSchema.Proofs.Resolution.EnumNames
import ProtoSchema.Proofs.Tree.Naming

namespace ProtoSchema

/-! ### Resolving -/

namespace SymbolTable

theorem messagesOf_resolveMessage (table : SymbolTable) (message : Message) :
    ∀ (scope : String) (scopes : List String),
      messagesOf scope (table.resolveMessage scopes message) = messagesOf scope message := by
  induction message using Message.induction with
  | step message inductionHypothesis =>
    intro scope scopes
    rw [messagesOf_eq, messagesOf_eq, resolveMessage_eq, List.flatMap_map]
    exact congrArg _ (List.flatMap_congr fun inner member => inductionHypothesis inner member _ _)

theorem enumsOf_resolveMessage (table : SymbolTable) (message : Message) :
    ∀ (scope : String) (scopes : List String),
      enumsOf scope (table.resolveMessage scopes message) = enumsOf scope message := by
  induction message using Message.induction with
  | step message inductionHypothesis =>
    intro scope scopes
    rw [enumsOf_eq, enumsOf_eq, resolveMessage_eq, List.flatMap_map]
    exact congrArg (· ++ _)
      (List.flatMap_congr fun inner member => inductionHypothesis inner member _ _)

/-- The symbol table of a resolved file is that of the file. -/
theorem ofFile_resolve (file : File) : ofFile file.resolve = ofFile file := by
  simp only [ofFile, File.resolve, resolveMessages_eq, messagesIn_eq, enumsIn_eq, List.flatMap_map,
    messagesOf_resolveMessage, enumsOf_resolveMessage]
  rfl

end SymbolTable

/-! ### Messages in order -/

/-- The messages in a message are listed along the paths to them. -/
theorem Message.paths_eq_positions (message : Message) : ∀ outer : List String,
    message.paths outer = message.positions.map fun path => outer ++ message.namesTo path := by
  induction message using Message.induction with
  | step message inductionHypothesis =>
    intro outer
    have inside : message.messages.flatMap (paths (outer ++ [message.name.text])) =
        (positionsFrom 0 message.messages).flatMap fun path =>
          [outer ++ message.namesTo path] := by
      refine flatMap_eq_of_positions fun index inner found => ?_
      rw [inductionHypothesis inner (List.mem_of_getElem? found), List.map_eq_flatMap]
      simp [namesTo, found]
    rw [paths_eq, positions_eq, inside, List.map_cons, List.map_eq_flatMap]
    rfl

theorem SymbolTable.messagesOf_dotted (message : Message) : ∀ outer : List String,
    messagesOf (dotted outer) message =
      (message.paths outer).map fun path => ⟨path.getLastD "", dotted path⟩ := by
  induction message using Message.induction with
  | step message inductionHypothesis =>
    intro outer
    rw [messagesOf_eq, Message.paths_eq, List.map_cons, List.map_flatMap, qualify_dotted,
      List.getLastD_concat]
    exact congrArg _ (List.flatMap_congr fun inner member => inductionHypothesis inner member _)

namespace File

theorem messagePaths_eq (file : File) : file.messagePaths = file.positions.map file.namesTo := by
  rw [messagePaths, Message.pathsOf_eq, List.map_eq_flatMap]
  refine Message.flatMap_eq_of_positions fun index message found => ?_
  rw [message.paths_eq_positions, List.map_eq_flatMap]
  simp [namesTo, found]

/-- The table lists the messages of a file along their paths. -/
theorem messages_table (file : File) :
    (SymbolTable.ofFile file).messages =
      file.positions.map fun path =>
        ⟨(file.namesTo path).getLastD "", dotted (file.namesTo path)⟩ := by
  have each : file.messages.flatMap (SymbolTable.messagesOf "") =
      file.messagePaths.map fun path => ⟨path.getLastD "", dotted path⟩ := by
    rw [messagePaths, Message.pathsOf_eq, List.map_flatMap]
    exact List.flatMap_congr fun message _ => SymbolTable.messagesOf_dotted message []
  rw [SymbolTable.ofFile, SymbolTable.messagesIn_eq, each, messagePaths_eq, List.map_map]
  rfl

/-! ### What is found and what is defined -/

variable {file : File}

/-- The file defines something of a kind under a full name. -/
def Defines (file : File) (kind : DefinitionKind) (fullName : String) : Prop :=
  ∃ definition ∈ file.definitions, definition.kind = kind ∧ definition.fullName = fullName

/-- The messages that a file defines are those at its paths, within the package. -/
theorem defines_message_iff {fullName : String} :
    file.Defines .message fullName ↔
      ∃ path ∈ file.positions, dotted (file.packageParts ++ file.namesTo path) = fullName := by
  obtain ⟨declared, definitions, permuted⟩ := file.definitions_perm
  unfold Defines
  rw [definitions]
  constructor
  · rintro ⟨definition, member, kind, name⟩
    rw [List.mem_append, permuted.mem_iff, List.mem_append, List.mem_append, List.mem_flatMap,
      List.mem_flatMap, List.mem_flatMap] at member
    obtain member | (⟨path, position, member⟩ | ⟨enumeration, -, member⟩) | ⟨service, -, member⟩ :=
      member
    · obtain ⟨package, -, member⟩ := List.mem_flatMap.mp member
      rw [← Definition.ofPackage_eq] at member
      exact absurd (kind ▸ Definition.kind_of_mem_ofPackage member) (by simp)
    · refine ⟨path, position, ?_⟩
      obtain ⟨message, found⟩ := Option.isSome_iff_exists.mp (mem_positions_iff.mp position)
      rw [definitionsAt, found, Option.elim_some, Message.definitionsAs, List.mem_cons,
        List.mem_flatMap] at member
      obtain rfl | ⟨enumeration, -, member⟩ := member
      · exact name
      · rw [← Definition.ofEnum_dotted] at member
        exact absurd (kind ▸ Definition.kind_of_mem_ofEnum member) (by simp)
    · rw [← Definition.ofEnum_dotted] at member
      exact absurd (kind ▸ Definition.kind_of_mem_ofEnum member) (by simp)
    · rw [← Definition.ofService_dotted] at member
      exact absurd (kind ▸ Definition.kind_of_mem_ofService member) (by simp)
  · rintro ⟨path, position, rfl⟩
    obtain ⟨message, found⟩ := Option.isSome_iff_exists.mp (mem_positions_iff.mp position)
    have here : ∃ definition ∈ file.definitionsAt path, definition.kind = .message ∧
        definition.fullName = dotted (file.packageParts ++ file.namesTo path) := by
      rw [definitionsAt, found]
      exact ⟨_, List.mem_cons_self, rfl, rfl⟩
    obtain ⟨definition, member, kind, name⟩ := here
    have declaredMember : definition ∈ declared := by
      rw [permuted.mem_iff, List.append_assoc]
      exact List.mem_append_left _ (List.mem_flatMap.mpr ⟨path, position, member⟩)
    exact ⟨definition, List.mem_append_right _ declaredMember, kind, name⟩

/-- The names along a path of a well-formed file are not empty. -/
theorem WellFormed.namesTo_ne (wellFormed : file.WellFormed) {path : MessagePath}
    (position : path ∈ file.positions) :
    file.namesTo path ≠ [] ∧ ∀ name ∈ file.namesTo path, name ≠ "" := by
  have member : file.namesTo path ∈ file.messagePaths := by
    rw [messagePaths_eq]
    exact List.mem_map_of_mem position
  rw [messagePaths, Message.pathsOf_eq, List.mem_flatMap] at member
  obtain ⟨message, messageMember, member⟩ := member
  obtain ⟨some, each⟩ := wellFormed.isPart_of_declaresMessage
    (declaresMessage_of_mem_paths message .top messageMember member)
  exact ⟨some, fun name member => (each name member).some⟩

/-- What is made of the names of the package and of others is a name within the package. -/
theorem WellFormed.qualify_package (wellFormed : file.WellFormed) {names : List String}
    (some : names ≠ []) :
    ".".intercalate (file.packageParts ++ names) =
      qualify file.packageName (".".intercalate names) := by
  rw [packageName_eq]
  by_cases package : file.packageParts = []
  · rw [package, List.nil_append]
    exact (qualify_empty _).symm
  · have named : ".".intercalate file.packageParts ≠ "" :=
      intercalate_ne package fun part member => (wellFormed.packagePart part member).some
    rw [qualify, if_neg named, String.intercalate_append_of_ne_nil package some]

/-- A name is that of a message of the table exactly if the file defines it, within the package,
as a message. -/
theorem WellFormed.get?_message_iff (wellFormed : file.WellFormed) (name : String) :
    (SymbolTable.ofFile file).get? name = some .message ↔
      file.Defines .message (qualify file.packageName name) := by
  have found : (SymbolTable.ofFile file).get? name = some .message ↔
      ∃ path ∈ file.positions, dotted (file.namesTo path) = name := by
    have listed : ((SymbolTable.ofFile file).messages.any fun message => message.path = name) =
        true ↔ ∃ path ∈ file.positions, dotted (file.namesTo path) = name := by
      rw [messages_table, List.any_map, List.any_eq_true]
      simp
    rw [← listed, SymbolTable.get?]
    split
    · next any => exact ⟨fun _ => any, fun _ => rfl⟩
    · next none =>
      refine ⟨fun found => ?_, fun any => absurd any none⟩
      split at found
      · cases found
      · cases found
  rw [found, defines_message_iff]
  refine exists_congr fun path => and_congr_right fun position => ?_
  obtain ⟨some, each⟩ := wellFormed.namesTo_ne position
  have within : ∀ part ∈ file.packageParts ++ file.namesTo path, part ≠ "" :=
    List.forall_mem_append.mpr ⟨fun part member => (wellFormed.packagePart part member).some, each⟩
  rw [dotted_eq_intercalate each, dotted_eq_intercalate within, wellFormed.qualify_package some]
  exact ⟨fun same => by rw [same], qualify_right_injective⟩

/-- A name is that of an enum of the table exactly if the file defines it, within the package, as
an enum. -/
theorem WellFormed.get?_enumeration_iff (wellFormed : file.WellFormed) (name : String) :
    (SymbolTable.ofFile file).get? name = some .enumeration ↔
      file.Defines .enumeration (qualify file.packageName name) := by
  have defines : file.Defines .enumeration (qualify file.packageName name) ↔
      ∃ path, file.DeclaresEnum path ∧ ".".intercalate path = name := by
    refine wellFormed.definesEnum_iff.trans
      (exists_congr fun path => and_congr_right fun declares => ?_)
    rw [wellFormed.qualify_package (wellFormed.isPart_of_declaresEnum declares).1]
    exact ⟨fun same => (qualify_right_injective same).symm, fun same => by rw [same]⟩
  rw [defines]
  constructor
  · intro found
    unfold SymbolTable.get? at found
    split at found
    · cases found
    · split at found
      · next member =>
        obtain ⟨around, place, enumeration, enumMember, rfl⟩ := exists_place_of_mem_enums member
        exact ⟨_, ⟨around, place, enumeration, enumMember, rfl⟩,
          (wellFormed.qualify_pathOf place _).symm⟩
      · cases found
  · rintro ⟨path, declares, rfl⟩
    exact wellFormed.get?_of_declaresEnum declares

end File

end ProtoSchema
