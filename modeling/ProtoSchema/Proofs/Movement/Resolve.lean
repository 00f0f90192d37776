/-
This file shows that what a reference stands for does not depend on where
anything is: a file may be moved before it is resolved or after.
-/

import ProtoSchema.Proofs.Movement.Tree
import ProtoSchema.Proofs.Resolution.Resolve

namespace ProtoSchema

variable {change : Span → Span}

/-! ### What is declared -/

namespace SymbolTable

theorem messagesOf_moved (message : Message) (scope : String) :
    messagesOf scope (message.moved change) = messagesOf scope message := by
  induction message using Message.induction generalizing scope with
  | step message inductionHypothesis =>
    have inner (scope : String) : message.messages.flatMap (fun inner =>
        messagesOf scope (inner.moved change)) = message.messages.flatMap (messagesOf scope) :=
      List.flatMap_congr fun inner member => inductionHypothesis inner member _
    rw [messagesOf_eq, messagesOf_eq, Message.moved_eq, Name.moved]
    simp only [List.flatMap_map, inner]

theorem enumNames_moved (scope : String) (enums : List Enumeration) :
    enumNames scope (enums.map (Enumeration.moved change)) = enumNames scope enums := by
  rw [enumNames, enumNames, List.map_map]
  rfl

theorem enumsOf_moved (message : Message) (scope : String) :
    enumsOf scope (message.moved change) = enumsOf scope message := by
  induction message using Message.induction generalizing scope with
  | step message inductionHypothesis =>
    have inner (scope : String) : message.messages.flatMap (fun inner =>
        enumsOf scope (inner.moved change)) = message.messages.flatMap (enumsOf scope) :=
      List.flatMap_congr fun inner member => inductionHypothesis inner member _
    rw [enumsOf_eq, enumsOf_eq, Message.moved_eq, Name.moved]
    simp only [List.flatMap_map, inner, enumNames_moved]

theorem ofFile_moved (file : File) : ofFile (file.moved change) = ofFile file := by
  have package : (file.moved change).packageName = file.packageName := by
    rw [File.packageName, File.packageName, File.moved]
    cases file.package with
    | none => rfl
    | some package => exact package.name.text_moved
  rw [ofFile, ofFile, package]
  simp only [messagesIn_eq, enumsIn_eq, File.moved, List.flatMap_map, messagesOf_moved,
    enumsOf_moved, enumNames_moved]

/-! ### What is resolved -/

variable (table : SymbolTable) (scopes : List String)

theorem resolveReference_moved (reference : TypeReference) :
    table.resolveReference scopes (reference.moved change) =
      (table.resolveReference scopes reference).moved change := by
  have same : table.classify scopes (reference.name.moved change) =
      table.classify scopes reference.name := by
    have qualified : (reference.name.moved change).isQualified = reference.name.isQualified := by
      simp [TypeName.isQualified, TypeName.moved, DottedName.moved]
    rw [classify, classify, qualified, TypeName.moved, DottedName.text_moved]
  rw [resolveReference, resolveReference, apply_ite (TypeReference.moved change)]
  simp only [TypeReference.moved, same]

theorem resolveField_moved (field : Field) :
    table.resolveField scopes (field.moved change) =
      (table.resolveField scopes field).moved change := by
  have type : (field.type.moved change).mapReference (table.resolveReference scopes) =
      (field.type.mapReference (table.resolveReference scopes)).moved change := by
    induction field.type with
    | scalar => rfl
    | named reference =>
      exact congrArg (fun reference => FieldType.single (.named reference))
        (table.resolveReference_moved scopes reference)
    | map key keySpan value span inductionHypothesis =>
      rw [FieldType.moved, FieldType.mapReference, inductionHypothesis, FieldType.mapReference,
        FieldType.moved]
  rw [resolveField, resolveField, Field.moved, Field.moved]
  simp only [type]

theorem resolveOneof_moved (oneof : Oneof) :
    table.resolveOneof scopes (oneof.moved change) =
      (table.resolveOneof scopes oneof).moved change := by
  simp [resolveOneof, Oneof.moved, Function.comp_def, resolveField_moved]

theorem resolveExtension_moved (extension : Extension) :
    table.resolveExtension scopes (extension.moved change) =
      (table.resolveExtension scopes extension).moved change := by
  simp [resolveExtension, Extension.moved, Function.comp_def, resolveField_moved]

theorem resolveMessage_moved (message : Message) :
    table.resolveMessage scopes (message.moved change) =
      (table.resolveMessage scopes message).moved change := by
  induction message using Message.induction generalizing scopes with
  | step message inductionHypothesis =>
    have scope : enter scopes (message.moved change) = enter scopes message := by
      rw [Message.moved_eq]
      rfl
    have inner : message.messages.map (fun inner =>
        table.resolveMessage (enter scopes message) (inner.moved change)) =
        message.messages.map fun inner =>
          (table.resolveMessage (enter scopes message) inner).moved change :=
      List.map_congr_left fun inner member => inductionHypothesis inner member _
    rw [resolveMessage_eq, resolveMessage_eq, scope, Message.moved_eq, Message.moved_eq]
    simp [Function.comp_def, resolveField_moved, resolveOneof_moved, resolveExtension_moved, inner]

end SymbolTable

/-- Moving and resolving may change places. -/
theorem File.resolve_moved (file : File) :
    (file.moved change).resolve = file.resolve.moved change := by
  rw [resolve, resolve, SymbolTable.ofFile_moved]
  simp only [moved, SymbolTable.resolveMessages_eq, List.map_map, Function.comp_def,
    SymbolTable.resolveMessage_moved, SymbolTable.resolveExtension_moved]

end ProtoSchema
