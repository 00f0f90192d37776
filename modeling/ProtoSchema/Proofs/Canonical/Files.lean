/-
This file shows that a file is read back from its canonical tokens: the grammar
answers a tree that is equal to it once both are erased, without a fault, if each
direct field of each of its messages is read as a field.
-/

import ProtoSchema.Proofs.Canonical.Messages
import ProtoSchema.Proofs.Tree.Definitions

namespace ProtoSchema

/-- The direct fields of all messages of a file. -/
def File.everyField (file : File) : List Field := file.messages.flatMap Message.everyField

namespace Parser

variable {declared : Option Edition} {rest : List Token}

/-! ### Statements -/

theorem reads_editionStatement (edition : Edition) :
    Reads declared (edition.tokens ++ rest) editionStatement
      fun found left => found = edition ∧ left = rest := by
  refine Reads.expect fun _ => Reads.expect fun _ => ?_
  refine (reads_text edition.name (endsString_symbol _)).bind ?_
  rintro ⟨text, span⟩ _ ⟨rfl, rfl⟩
  rw [Edition.ofName?_name]
  refine Reads.report rfl (reads_terminator.bind ?_)
  rintro _ _ rfl
  exact Reads.pure ⟨rfl, rfl⟩

theorem reads_declaredEdition (edition : Option Edition)
    (noSyntax : rest.head? ≠ some (.word "syntax")) :
    Reads declared (edition.toList.flatMap Edition.tokens ++ rest) declaredEdition
      fun found left => found = edition ∧ left = rest := by
  cases edition with
  | none =>
    refine Reads.look ?_
    rw [Option.toList_none, List.flatMap_nil, List.nil_append, if_neg noSyntax]
    exact Reads.pure ⟨rfl, rfl⟩
  | some edition =>
    rw [Option.toList_some, List.flatMap_singleton]
    refine Reads.look ?_
    rw [if_pos (by rfl)]
    refine (reads_editionStatement edition).bind ?_
    rintro _ _ ⟨rfl, rfl⟩
    exact Reads.pure ⟨rfl, rfl⟩

theorem reads_package (package : Package) (wellFormed : package.name.WellFormed) :
    Reads declared (package.tokens ++ rest) Parser.package
      fun found left => found.erased = package.erased ∧ left = rest := by
  simp only [Package.tokens, List.append_assoc, List.cons_append, List.nil_append]
  refine reads_leadingComments fun comments => Reads.expect fun start => ?_
  refine (reads_dottedName package.name wellFormed (by simp)).bind ?_
  rintro found _ ⟨same, rfl⟩
  refine reads_terminator.bind ?_
  rintro ⟨stop, trailing⟩ _ rfl
  refine Reads.pure ⟨?_, rfl⟩
  rw [Package.erased, Package.erased, same]

theorem reads_import (entry : Import) :
    Reads declared (entry.tokens ++ rest) Parser.import
      fun found left => found.erased = entry.erased ∧ left = rest := by
  have kind : Reads declared
      ((entry.kind.toList.map fun kind => .word kind.name) ++
        textToken entry.path.text :: .symbol .semicolon :: rest)
      importKind fun found left => found = entry.kind ∧
        left = textToken entry.path.text :: .symbol .semicolon :: rest := by
    refine Reads.look ?_
    cases entry.kind with
    | none => exact Reads.pure ⟨rfl, rfl⟩
    | some kind => cases kind <;> exact Reads.advance fun _ => Reads.pure ⟨rfl, rfl⟩
  simp only [Import.tokens, List.append_assoc, List.cons_append, List.nil_append]
  refine reads_leadingComments fun comments => Reads.expect fun start => kind.bind ?_
  rintro _ _ ⟨rfl, rfl⟩
  refine (reads_text entry.path.text (endsString_symbol _)).bind ?_
  rintro found _ ⟨same, rfl⟩
  refine reads_terminator.bind ?_
  rintro ⟨stop, trailing⟩ _ rfl
  refine Reads.pure ⟨?_, rfl⟩
  rw [Import.erased, Import.erased, Name.erased, Name.erased, same]

/-! ### Files -/

theorem Reads.inEdition {Value : Type} {edition : Option Edition} {input : List Token}
    {parser : Parser Value} {goal : Value → List Token → Prop}
    (reads : Reads edition input parser goal) :
    Reads declared input (Parser.inEdition edition parser) goal :=
  fun _ lexemes _ tokens => reads _ lexemes rfl tokens

theorem reads_fileBody {expected : String} (file start : File) (members : file.Members declared)
    (clear : ∀ field ∈ file.everyField, field.Clear .message)
    (starts : start.erased = File.erased { File.empty with declaredEdition := declared }) :
    Reads declared file.bodyTokens (topLevel fileMember expected start)
      fun found left => found.erased = file.erased ∧ left = [] := by
  obtain ⟨edition, named, package, imports, options, messages, enums, services, extensions⟩ := file
  obtain rfl : edition = .proto3 := members.edition
  obtain rfl : named = declared := members.declaredEdition
  rw [topLevel_eq, File.bodyTokens]
  refine Reads.repeating (ReadsLoop.topMembers Package.tokens
    (fun read state => state.erased = File.erased
      ⟨.proto3, named, read.head?, [], [], [], [], [], []⟩) package.toList
    ?_ starts fun state known => ?_)
  · intro before entry after state split known
    obtain ⟨rfl, rfl⟩ : package = some entry ∧ before = [] := by
      cases package with
      | none => simp at split
      | some package =>
        cases before with
        | nil => exact ⟨congrArg some (List.cons.inj split).1, rfl⟩
        | cons first others => simp at split
    have none : state.package = none := by
      have erased : state.package.map Package.erased = none := congrArg File.package known
      exact Option.map_eq_none_iff.mp erased
    refine ⟨_, _, _, rfl, by simp, by simp, rfl, fun rest => ?_⟩
    refine (reads_package entry (members.package entry rfl)).bind ?_
    rintro found _ ⟨same, rfl⟩
    simp only [addPackage, none]
    refine Reads.pure ⟨?_, rfl⟩
    simp only [File.erased, File.mk.injEq] at known ⊢
    simp only [known, same, Option.map_some, List.nil_append, List.head?_cons, and_self]
  have headEq : package.toList.head? = package := by cases package <;> rfl
  rw [headEq] at known
  refine ReadsLoop.topMembers Import.tokens
    (fun read state => state.erased = File.erased
      ⟨.proto3, named, package, read, [], [], [], [], []⟩) imports
    ?_ known fun state known => ?_
  · intro before entry after state split known
    refine ⟨_, _, _, rfl, by simp, by simp, rfl, fun rest => ?_⟩
    refine (reads_import entry).bind ?_
    rintro found _ ⟨same, rfl⟩
    refine Reads.pure ⟨?_, rfl⟩
    simp only [File.erased, File.mk.injEq, List.map_append, List.map_singleton] at known ⊢
    simp only [known, same, and_self]
  refine ReadsLoop.topMembers OptionStatement.tokens
    (fun read state => state.erased = File.erased
      ⟨.proto3, named, package, imports, read, [], [], [], []⟩) options
    ?_ known fun state known => ?_
  · intro before option after state split known
    refine readsMember_option option (members.options option (by simp [split]))
      (fun found => { state with options := state.options ++ [found] }) rfl fun found same => ?_
    simp only [File.erased, File.mk.injEq, List.map_append, List.map_singleton] at known ⊢
    simp only [known, same, and_self]
  refine ReadsLoop.topMembers Message.tokens
    (fun read state => state.erased = File.erased
      ⟨.proto3, named, package, imports, options, read, [], [], []⟩) messages
    ?_ known fun state known => ?_
  · intro before message after state split known
    have place : state.messages.length = before.length := by
      simpa [File.erased] using congrArg (fun file => file.messages.length) known
    refine ⟨_, _, _, message.tokens_eq, by simp, by simp, rfl, fun rest => ?_⟩
    rw [place]
    refine (reads_message _ _ message (members.messages before.length message (by simp [split]))
      (fun field member => clear field (List.mem_flatMap.mpr ⟨message, by simp [split], member⟩))
      rest).bind ?_
    rintro found _ ⟨same, rfl⟩
    refine Reads.pure ⟨?_, rfl⟩
    simp only [File.erased, File.mk.injEq, List.map_append, List.map_singleton] at known ⊢
    simp only [known, same, and_self]
  refine ReadsLoop.topMembers Enumeration.tokens
    (fun read state => state.erased = File.erased
      ⟨.proto3, named, package, imports, options, messages, read, [], []⟩) enums
    ?_ known fun state known => ?_
  · intro before enumeration after state split known
    refine ⟨_, _, _, rfl, by simp, by simp, rfl, fun rest => ?_⟩
    refine (reads_enumeration enumeration (members.enums enumeration (by simp [split]))).bind ?_
    rintro found _ ⟨same, rfl⟩
    refine Reads.pure ⟨?_, rfl⟩
    simp only [File.erased, File.mk.injEq, List.map_append, List.map_singleton] at known ⊢
    simp only [known, same, and_self]
  refine ReadsLoop.topMembers Service.tokens
    (fun read state => state.erased = File.erased
      ⟨.proto3, named, package, imports, options, messages, enums, read, []⟩) services
    ?_ known fun state known => ?_
  · intro before service after state split known
    refine ⟨_, _, _, rfl, by simp, by simp, rfl, fun rest => ?_⟩
    refine (reads_service service (members.services service (by simp [split]))).bind ?_
    rintro found _ ⟨same, rfl⟩
    refine Reads.pure ⟨?_, rfl⟩
    simp only [File.erased, File.mk.injEq, List.map_append, List.map_singleton] at known ⊢
    simp only [known, same, and_self]
  have noRest : extensions.flatMap Extension.tokens =
      extensions.flatMap Extension.tokens ++ [] := (List.append_nil _).symm
  rw [noRest]
  refine ReadsLoop.topMembers Extension.tokens
    (fun read state => state.erased = File.erased
      ⟨.proto3, named, package, imports, options, messages, enums, services, read⟩) extensions
    ?_ known fun state known => ?_
  · intro before extension after state split known
    refine ⟨_, _, _, rfl, by simp, by simp, rfl, fun rest => ?_⟩
    refine (reads_extension none extension (members.extensions extension (by simp [split]))).bind ?_
    rintro found _ ⟨same, rfl⟩
    refine Reads.pure ⟨?_, rfl⟩
    simp only [File.erased, File.mk.injEq, List.map_append, List.map_singleton] at known ⊢
    simp only [known, same, and_self]
  · exact ReadsLoop.topLevelEnd ⟨known, rfl⟩

/-- The declarations of a file start with no statement that declares the edition. -/
theorem head?_bodyTokens (file : File) : file.bodyTokens.head? ≠ some (.word "syntax") := by
  have each {Item : Type} (tokens : Item → List Token) (items : List Item)
      (first : ∀ item, ∃ token others, tokens item = token :: others ∧ token ≠ .word "syntax")
      {after : List Token} (others : after.head? ≠ some (.word "syntax")) :
      (items.flatMap tokens ++ after).head? ≠ some (.word "syntax") := by
    cases items with
    | nil => exact others
    | cons item items =>
      obtain ⟨token, tail, eq, noSyntax⟩ := first item
      rw [List.flatMap_cons, eq]
      simpa using noSyntax
  refine each _ _ (fun _ => ⟨_, _, rfl, by simp⟩) (each _ _ (fun _ => ⟨_, _, rfl, by simp⟩)
    (each _ _ (fun _ => ⟨_, _, rfl, by simp⟩) (each _ _
      (fun message => ⟨_, _, message.tokens_eq, by simp⟩) (each _ _ (fun _ => ⟨_, _, rfl, by simp⟩)
        (each _ _ (fun _ => ⟨_, _, rfl, by simp⟩) ?_)))))
  rw [← List.append_nil (file.extensions.flatMap Extension.tokens)]
  exact each _ _ (fun _ => ⟨_, _, rfl, by simp⟩) (by simp)

/-- A file is read back from its canonical tokens. -/
theorem reads_file (file : File) (wellFormed : file.WellFormed)
    (clear : ∀ field ∈ file.everyField, field.Clear .message) :
    Reads declared file.tokens Parser.file
      fun found left => found.erased = file.erased ∧ left = [] := by
  refine (reads_declaredEdition file.declaredEdition (head?_bodyTokens file)).bind ?_
  rintro _ _ ⟨rfl, rfl⟩
  refine Reads.inEdition ((reads_fileBody file _ wellFormed.members clear rfl).bind ?_)
  rintro found _ ⟨same, rfl⟩
  refine Reads.report ?_ (Reads.pure ⟨same, rfl⟩)
  rw [← found.faults_erased, same, file.faults_erased]
  exact wellFormed.sound

end Parser

end ProtoSchema
