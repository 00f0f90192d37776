/-
This file shows what the parser of files answers. Every file that is read to its
end without a fault is well formed, and if the words that it was read from are
those that it is printed with then no label was dropped.
-/

import ProtoSchema.Proofs.Canonical.Files
import ProtoSchema.Proofs.Grammar.Messages

namespace ProtoSchema

namespace File

/-- How many fields of the file were written with a label that is not printed. -/
def droppedLabels (file : File) : Nat := (file.everyField.map Field.droppedLabels).sum

theorem droppedLabels_eq (file : File) :
    file.droppedLabels = (file.messages.map Message.droppedLabels).sum := by
  rw [droppedLabels, everyField]
  induction file.messages with
  | nil => rfl
  | cons first others inductionHypothesis =>
    simp [Message.droppedLabels, inductionHypothesis]

/-- The words that the declarations of a file cost, those of its dropped labels included. -/
def cost (file : File) : Nat := requiredWords file.bodyTokens + file.droppedLabels

theorem cost_eq (file : File) :
    file.cost = requiredWords (file.package.toList.flatMap Package.tokens) +
      requiredWords (file.imports.flatMap Import.tokens) +
      requiredWords (file.options.flatMap OptionStatement.tokens) +
      requiredWords (file.messages.flatMap Message.tokens) +
      requiredWords (file.enums.flatMap Enumeration.tokens) +
      requiredWords (file.services.flatMap Service.tokens) +
      requiredWords (file.extensions.flatMap Extension.tokens) +
      (file.messages.map Message.droppedLabels).sum := by
  rw [cost, bodyTokens, droppedLabels_eq]
  simp
  omega

end File

namespace Parser

variable {declared : Option Edition} {input : List Token}

/-! ### Statements -/

theorem ensures_editionStatement :
    Ensures declared input editionStatement fun found rest =>
      requiredWords (found.tokens ++ rest) ≤ requiredWords input := by
  refine Ensures.expect ?_
  rintro _ rest rfl
  refine Ensures.expect ?_
  rintro _ rest rfl
  refine ensures_text.bind ?_
  rintro name rest same
  refine Ensures.report fun known => ensures_terminator.bind ?_
  rintro _ rest rfl
  exact Ensures.pure (by simp [Edition.tokens] at same ⊢; omega)

theorem ensures_declaredEdition :
    Ensures declared input declaredEdition fun found rest =>
      requiredWords (found.toList.flatMap Edition.tokens ++ rest) ≤ requiredWords input := by
  refine Ensures.look ?_
  split
  · refine ensures_editionStatement.bind ?_
    rintro edition rest words
    exact Ensures.pure (by simpa using words)
  · exact Ensures.pure (by simp)

theorem ensures_package :
    Ensures declared input Parser.package fun found rest =>
      found.name.WellFormed ∧ requiredWords (found.tokens ++ rest) ≤ requiredWords input := by
  refine ensures_leadingComments.bind ?_
  rintro comments _ rfl
  refine Ensures.expect ?_
  rintro start rest rfl
  refine ensures_dottedName.bind ?_
  rintro name rest ⟨wellFormed, rfl, -⟩
  refine ensures_terminator.bind ?_
  rintro ⟨stop, trailing⟩ rest rfl
  exact Ensures.pure ⟨wellFormed, by simp [Package.tokens]⟩

theorem ensures_importKind :
    Ensures declared input importKind fun found rest =>
      requiredWords (found.toList.map (fun kind => .word kind.name) ++ rest) ≤
        requiredWords input := by
  refine Ensures.look ?_
  split
  · next head =>
    obtain ⟨rest, rfl⟩ := List.head?_eq_some_iff.mp head
    exact Ensures.advance fun _ => Ensures.pure (by simp [ImportKind.name])
  · next head =>
    obtain ⟨rest, rfl⟩ := List.head?_eq_some_iff.mp head
    exact Ensures.advance fun _ => Ensures.pure (by simp [ImportKind.name])
  · exact Ensures.pure (by simp)
  · exact Ensures.unexpected

theorem ensures_import :
    Ensures declared input Parser.import fun found rest =>
      requiredWords (found.tokens ++ rest) ≤ requiredWords input := by
  refine ensures_leadingComments.bind ?_
  rintro comments _ rfl
  refine Ensures.expect ?_
  rintro start rest rfl
  refine ensures_importKind.bind ?_
  rintro kind rest words
  refine ensures_text.bind ?_
  rintro path rest same
  refine ensures_terminator.bind ?_
  rintro ⟨stop, trailing⟩ rest rfl
  refine Ensures.pure ?_
  simp [Import.tokens] at words same ⊢
  omega

/-! ### Files -/

theorem Ensures.inEdition {Value : Type} {edition : Option Edition} {parser : Parser Value}
    {goal : Value → List Token → Prop} (ensures : Ensures edition input parser goal) :
    Ensures declared input (Parser.inEdition edition parser) goal :=
  fun lexical _ lexemes value rest _ tokens done =>
    ensures lexical _ lexemes value rest rfl tokens done

theorem ensuresMember_file :
    EnsuresMember declared fileMember (File.Members declared) File.cost := by
  rintro file next rest parser members found
  unfold fileMember at found
  split at found
  · next text =>
    split_ifs at found with isImport isPackage isOption isMessage isEnum isService isExtend
    all_goals obtain rfl := Option.some.inj found
    · refine ensures_import.bind ?_
      rintro entry left words
      refine Ensures.pure ⟨{ members with }, ?_⟩
      simp [File.cost_eq] at words ⊢
      omega
    · refine ensures_package.bind ?_
      rintro package left ⟨wellFormed, words⟩
      unfold addPackage
      split
      · exact Ensures.report fun sound => by cases sound
      · next none =>
        refine Ensures.pure ⟨{ members with package := by simpa using wellFormed }, ?_⟩
        simp [File.cost_eq, none] at words ⊢
        omega
    · refine ensures_optionStatement.bind ?_
      rintro option left ⟨wellFormed, words⟩
      refine Ensures.pure ⟨?_, ?_⟩
      · exact { members with options := forall_mem_concat members.options wellFormed }
      · simp [File.cost_eq] at words ⊢
        omega
    · refine (ensures_message _ _ _).bind ?_
      rintro message left ⟨wellFormed, words⟩
      refine Ensures.pure ⟨?_, ?_⟩
      · exact { members with messages := forall_getElem?_concat members.messages wellFormed }
      · rw [Message.cost] at words
        simp [File.cost_eq] at words ⊢
        omega
    · refine ensures_enumeration.bind ?_
      rintro enumeration left ⟨wellFormed, words⟩
      refine Ensures.pure ⟨?_, ?_⟩
      · exact { members with enums := forall_mem_concat members.enums wellFormed }
      · simp [File.cost_eq] at words ⊢
        omega
    · refine ensures_service.bind ?_
      rintro service left ⟨wellFormed, words⟩
      refine Ensures.pure ⟨?_, ?_⟩
      · exact { members with services := forall_mem_concat members.services wellFormed }
      · simp [File.cost_eq] at words ⊢
        omega
    · refine (ensures_extension _).bind ?_
      rintro extension left ⟨wellFormed, words⟩
      refine Ensures.pure ⟨?_, ?_⟩
      · exact { members with extensions := forall_mem_concat members.extensions wellFormed }
      · simp [File.cost_eq] at words ⊢
        omega
  · cases found

/-- A file that is read without a fault is well formed. -/
theorem ensures_file :
    Ensures declared input Parser.file fun found _ =>
      found.WellFormed ∧ requiredWords found.tokens + found.droppedLabels ≤ requiredWords input := by
  refine ensures_declaredEdition.bind ?_
  rintro edition rest words
  refine Ensures.inEdition ?_
  refine (ensures_topLevel ensuresMember_file ?_).bind ?_
  · constructor <;> simp [File.empty]
  · rintro file left ⟨members, bodyWords⟩
    refine Ensures.report fun sound => Ensures.pure ?_
    obtain rfl : file.declaredEdition = edition := members.declaredEdition
    refine ⟨⟨members, sound⟩, ?_⟩
    simp [File.cost_eq, File.empty] at words bodyWords
    simp [File.tokens, File.bodyTokens, File.droppedLabels_eq]
    omega

end Parser

end ProtoSchema
