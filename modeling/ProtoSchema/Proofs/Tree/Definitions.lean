/-
This file shows that the definitions of a file are those of the erased file but
for their spans, and with it that the checks of a whole file ask for nothing
that erasing takes away.
-/

import Mathlib.Data.List.Basic
import ProtoSchema.Proofs.Tree.Erasure
import ProtoSchema.Proofs.Validation.Clashes
import ProtoSchema.Validation.File

namespace ProtoSchema

/-- What holds of a message if it holds of the messages in it holds of every message. -/
theorem Message.induction {holds : Message → Prop}
    (step : ∀ message : Message, (∀ inner ∈ message.messages, holds inner) → holds message)
    (message : Message) : holds message := by
  refine @Message.rec holds (fun messages => ∀ inner ∈ messages, holds inner) ?_ ?_ ?_ message
  · intro name fields oneofs messages enums extensions extensionRanges options reserved comments
      span inside
    exact step _ inside
  · exact fun _ member => absurd member List.not_mem_nil
  · intro first rest firstHolds restHold
    exact List.forall_mem_cons.mpr ⟨firstHolds, restHold⟩

namespace Definition

/-- A definition without its place. -/
def erased (definition : Definition) : Definition := { definition with span := .erased }

theorem ofMessages_eq (scope : String) (nested : Bool) (messages : List Message) :
    ofMessages scope nested messages = messages.flatMap (ofMessage scope nested) := by
  induction messages with
  | nil => rfl
  | cons message rest inductionHypothesis =>
    rw [ofMessages, inductionHypothesis, List.flatMap_cons]

/-- The definitions in a message, part by part. -/
theorem ofMessage_eq (scope : String) (nested : Bool) (message : Message) :
    ofMessage scope nested message =
      ⟨qualify scope message.name.text, .message, message.name.span, scope, nested⟩ ::
        (message.messages.flatMap (ofMessage (qualify scope message.name.text) true) ++
          message.enums.flatMap (ofEnum (qualify scope message.name.text) true)) := by
  cases message
  rw [ofMessage, ofMessages_eq]

theorem ofParts_erased (start : Nat) (scope : String) (parts : List Name) :
    ofParts 0 scope (parts.map Name.erased) = (ofParts start scope parts).map erased := by
  induction parts generalizing scope with
  | nil => rfl
  | cons part rest inductionHypothesis =>
    rw [List.map_cons, ofParts, ofParts, List.map_cons, Name.text_erased, inductionHypothesis]
    rfl

theorem ofPackage_erased (package : Package) :
    ofPackage package.erased = (ofPackage package).map erased := by
  have start : package.erased.name.span.start = 0 := by
    obtain ⟨⟨parts⟩, comments, span⟩ := package
    cases parts <;> rfl
  rw [ofPackage, ofPackage, start]
  exact ofParts_erased _ _ _

theorem ofEnum_erased (scope : String) (nested : Bool) (enumeration : Enumeration) :
    ofEnum scope nested enumeration.erased = (ofEnum scope nested enumeration).map erased := by
  simp [ofEnum, Enumeration.erased, EnumValue.erased, Function.comp_def, erased, Name.erased]

theorem ofService_erased (scope : String) (service : Service) :
    ofService scope service.erased = (ofService scope service).map erased := by
  simp [ofService, Service.erased, Method.erased, Function.comp_def, erased, Name.erased]

theorem ofMessage_erased (message : Message) (scope : String) (nested : Bool) :
    ofMessage scope nested message.erased = (ofMessage scope nested message).map erased := by
  induction message using Message.induction generalizing scope nested with
  | step message inductionHypothesis =>
    rw [ofMessage_eq, ofMessage_eq, Message.erased_eq]
    simp only [List.map_cons, List.map_append, List.map_flatMap, List.flatMap_map, ofEnum_erased,
      Name.text_erased]
    have inner : message.messages.flatMap (fun inner =>
        ofMessage (qualify scope message.name.text) true inner.erased) =
        message.messages.flatMap fun inner =>
          (ofMessage (qualify scope message.name.text) true inner).map erased :=
      List.flatMap_congr fun inner member => inductionHypothesis inner member _ _
    rw [inner]
    rfl

end Definition

namespace File

theorem scope_erased (file : File) : file.erased.scope = file.scope := by
  obtain ⟨edition, declared, package, imports, options, messages, enums, services, extensions⟩ := file
  cases package with
  | none => rfl
  | some package => exact List.foldl_map

theorem definitions_erased (file : File) :
    file.erased.definitions = file.definitions.map Definition.erased := by
  rw [definitions, definitions, scope_erased]
  simp only [List.map_append, List.map_flatMap, Definition.ofMessages_eq,
    ← Definition.ofPackage_erased, ← Definition.ofMessage_erased, ← Definition.ofEnum_erased,
    ← Definition.ofService_erased, File.erased, List.flatMap_map]
  cases file.package <;> rfl

theorem faults_erased (file : File) : file.erased.faults = [] ↔ file.faults = [] := by
  have imports : file.erased.importFaults = [] ↔ file.importFaults = [] := by
    rw [importFaults, importFaults, List.append_eq_nil_iff, List.append_eq_nil_iff,
      List.map_eq_nil_iff, List.map_eq_nil_iff, clashes_eq_nil_iff, clashes_eq_nil_iff,
      List.flatMap_eq_nil_iff, List.flatMap_eq_nil_iff]
    simp [File.erased, Import.erased, Function.comp_def]
  have package : file.erased.packageFaults = [] ↔ file.packageFaults = [] := by
    rw [packageFaults, packageFaults, List.flatMap_eq_nil_iff, List.flatMap_eq_nil_iff]
    simp [File.erased, Package.erased, DottedName.erased]
  have definitions : file.erased.definitionFaults = [] ↔ file.definitionFaults = [] := by
    rw [definitionFaults, definitionFaults, List.map_eq_nil_iff, List.map_eq_nil_iff,
      definitions_erased, clashes_map, List.filter_map, List.map_eq_nil_iff]
    exact Iff.rfl
  rw [faults, faults, List.append_eq_nil_iff, List.append_eq_nil_iff, List.append_eq_nil_iff,
    List.append_eq_nil_iff, imports, package, definitions]

end File

end ProtoSchema
