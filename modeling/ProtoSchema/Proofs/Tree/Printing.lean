/-
This file shows that erasing a tree does not change how it is printed: spans and
comments, and the places of labels, leave no trace in the canonical form.
-/

import Mathlib.Data.List.Basic
import ProtoSchema.Proofs.Tree.Definitions
import ProtoSchema.Tree.Printer

namespace ProtoSchema

/-! ### Options -/

/-- Nothing that is printed depends on places, here of a key and then of the rest of a tree. -/
@[simp]
theorem OptionKey.text_erased (key : OptionKey) (opening closing : String) :
    key.erased.text opening closing = key.text opening closing := by
  cases key <;> simp [text, erased]

mutual

/-- The recursion goes through lists and messages. -/
theorem OptionValue.text_erased : ∀ value : OptionValue, value.erased.text = value.text
  | .identifier name => rfl
  | .int literal => rfl
  | .float value span => rfl
  | .string bytes span => rfl
  | .bool value span => rfl
  | .array values span => by
    rw [OptionValue.erased, OptionValue.text, OptionValue.text, OptionValue.texts_erased values]
  | .aggregate entries span => by
    rw [OptionValue.erased, OptionValue.text, OptionValue.text, OptionEntry.texts_erased entries]
    cases entries <;> rfl

theorem OptionValue.texts_erased : ∀ values : List OptionValue,
    OptionValue.texts (OptionValue.erasedList values) = OptionValue.texts values
  | [] => rfl
  | value :: rest => by
    rw [OptionValue.erasedList, OptionValue.texts, OptionValue.texts,
      OptionValue.text_erased value, OptionValue.texts_erased rest]

theorem OptionEntry.texts_erased : ∀ entries : List OptionEntry,
    OptionEntry.texts (OptionEntry.erasedList entries) = OptionEntry.texts entries
  | [] => rfl
  | ⟨key, value, span⟩ :: rest => by
    rw [OptionEntry.erasedList, OptionEntry.erased, OptionEntry.texts, OptionEntry.texts,
      OptionKey.text_erased, OptionValue.text_erased value, OptionEntry.texts_erased rest]

end

@[simp]
theorem OptionSetting.text_erased (setting : OptionSetting) :
    setting.erased.text = setting.text := by
  simp [text, erased, Function.comp_def, OptionValue.text_erased]

@[simp]
theorem OptionSetting.listText_erased (settings : List OptionSetting) :
    listText (settings.map OptionSetting.erased) = listText settings := by
  simp [listText, Function.comp_def]

@[simp]
theorem OptionStatement.line_erased (depth : Nat) (option : OptionStatement) :
    option.erased.line depth = option.line depth := by
  simp [line, erased]

/-! ### Declarations -/

@[simp]
theorem IntLiteral.text_erased (literal : IntLiteral) : literal.erased.text = literal.text := rfl

@[simp]
theorem FieldType.text_erased (type : FieldType) : type.erased.text = type.text := by
  induction type with
  | scalar => rfl
  | named reference => exact reference.name.text_erased
  | map key keySpan value span inductionHypothesis => rw [erased, text, text, inductionHypothesis]

@[simp]
theorem Field.line_erased (depth : Nat) (field : Field) :
    field.erased.line depth = field.line depth := by
  simp [line, erased, IntLiteral.erased]

/-- A range is printed by its bounds. -/
@[simp]
theorem Range.text_erased (range : Range) : range.erased.text = range.text := by
  obtain ⟨first, last⟩ := range
  cases last <;> rfl

@[simp]
theorem Reserved.line_erased (depth : Nat) (reserved : Reserved) :
    reserved.erased.line depth = reserved.line depth := by
  obtain ⟨items, comments, span⟩ := reserved
  cases items <;>
    simp [line, erased, ReservedItems.erased, ReservedItems.text, Function.comp_def]

@[simp]
theorem ExtensionRanges.line_erased (depth : Nat) (extensions : ExtensionRanges) :
    extensions.erased.line depth = extensions.line depth := by
  simp [line, erased, Function.comp_def]

@[simp]
theorem Oneof.lines_erased (depth : Nat) (oneof : Oneof) :
    oneof.erased.lines depth = oneof.lines depth := by
  simp [lines, erased, Function.comp_def]

@[simp]
theorem Extension.lines_erased (depth : Nat) (extension : Extension) :
    extension.erased.lines depth = extension.lines depth := by
  simp [lines, erased, Function.comp_def]

@[simp]
theorem Enumeration.lines_erased (depth : Nat) (enumeration : Enumeration) :
    enumeration.erased.lines depth = enumeration.lines depth := by
  have value (value : EnumValue) : value.erased.line (depth + 1) = value.line (depth + 1) := by
    simp [EnumValue.line, EnumValue.erased]
  simp [lines, erased, Function.comp_def, value]

/-- Whether a method has a body is told by its options. -/
@[simp]
theorem Method.lines_erased (depth : Nat) (method : Method) :
    method.erased.lines depth = method.lines depth := by
  have type (streams : Bool) (name : TypeName) :
      methodTypeText streams name.erased = methodTypeText streams name := by
    rw [methodTypeText, methodTypeText, TypeName.text_erased]
  have header : method.erased.header = method.header := by
    simp only [Method.header, erased, Name.text_erased, type]
  have options : method.erased.options.map (OptionStatement.line (depth + 1)) =
      method.options.map (OptionStatement.line (depth + 1)) := by
    simp [erased, Function.comp_def]
  have none : method.erased.options.isEmpty = method.options.isEmpty := List.isEmpty_map
  rw [lines, lines, header, options, none]

@[simp]
theorem Service.lines_erased (depth : Nat) (service : Service) :
    service.erased.lines depth = service.lines depth := by
  simp [lines, erased, Function.comp_def, List.flatMap_map]

/-! ### Messages and files -/

/-- The function on lists is there for the recursion alone. -/
theorem Message.linesOf_eq (depth : Nat) (messages : List Message) :
    Message.linesOf depth messages = messages.flatMap (Message.lines depth) := by
  induction messages with
  | nil => rfl
  | cons message rest inductionHypothesis => rw [linesOf, inductionHypothesis, List.flatMap_cons]

/-- The lines of a message, grouped as its tokens are. -/
theorem Message.lines_eq (depth : Nat) (message : Message) :
    message.lines depth = block depth ("message " ++ message.name.text)
      (message.options.map (OptionStatement.line (depth + 1)) ++
        (message.reserved.map (Reserved.line (depth + 1)) ++
          (message.extensionRanges.map (ExtensionRanges.line (depth + 1)) ++
            (message.fields.map (Field.line (depth + 1)) ++
              (message.oneofs.flatMap (Oneof.lines (depth + 1)) ++
                (message.messages.flatMap (Message.lines (depth + 1)) ++
                  (message.enums.flatMap (Enumeration.lines (depth + 1)) ++
                    message.extensions.flatMap (Extension.lines (depth + 1))))))))) := by
  cases message
  simp only [lines, linesOf_eq, List.append_assoc]

/-- A message is printed alike wherever it stood, comments left aside. -/
theorem Message.lines_erased (message : Message) (depth : Nat) :
    message.erased.lines depth = message.lines depth := by
  induction message using Message.induction generalizing depth with
  | step message inductionHypothesis =>
    have inner : message.messages.flatMap (fun inner => inner.erased.lines (depth + 1)) =
        message.messages.flatMap (Message.lines (depth + 1)) :=
      List.flatMap_congr fun inner member => inductionHypothesis inner member _
    rw [lines_eq, lines_eq, erased_eq]
    simp [Function.comp_def, List.flatMap_map, inner]

/-- Erased trees are printed as the trees are. -/
theorem File.render_erased (file : File) : file.erased.render = file.render := by
  have importLine (entry : Import) : entry.erased.line = entry.line := rfl
  have parts : file.erased.parts = file.parts := by
    simp only [File.parts, File.erased, List.map_map, Function.comp_def, importLine,
      OptionStatement.line_erased, Message.lines_erased, Enumeration.lines_erased,
      Service.lines_erased, Extension.lines_erased]
    cases file.package <;> simp [Package.erased]
  rw [render, render, lines, lines, parts]

end ProtoSchema
