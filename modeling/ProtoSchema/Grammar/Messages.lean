/-
This file parses messages, their oneofs, and extension blocks. Messages nest up
to a limit. A block or message declared inside a message knows the path to it.
-/

import ProtoSchema.Grammar.Enums
import ProtoSchema.Grammar.Fields
import ProtoSchema.Validation.Extension
import ProtoSchema.Validation.Message

namespace ProtoSchema

namespace Parser

/-! ### Oneofs -/

/-- The members of a oneof. -/
def oneofMember (index : Nat) : Member Oneof := fun oneof next =>
  if next = .word "option" then some do
    return { oneof with options := oneof.options ++ [← optionStatement] }
  else if startsField next then some do
    return { oneof with fields := oneof.fields ++ (← field (.oneof index)).toList }
  else none

/-- A oneof, with its index among those of its message. -/
def oneof (index : Nat) : Parser Oneof := do
  let comments ← leadingComments
  let start ← word "oneof"
  let name ← name
  let trailing ← openBrace
  let (read, stop) ← body (oneofMember index) "a oneof field, option or '\x7d'"
    ⟨name, [], [], { comments with trailing }, start⟩
  let result := { read with span := start.through stop }
  report result.faults
  return result

/-! ### Extension blocks -/

/-- The members of an extension block. -/
def extensionMember : Member Extension := fun extension next =>
  if next = .word "option" then some do
    return { extension with options := extension.options ++ [← optionStatement] }
  else if startsField next then some do
    return { extension with fields := extension.fields ++ (← field .extension).toList }
  else none

/-- An extension block, declared in the message at a path or at the top of the file. -/
def extension (parent : Option MessagePath) : Parser Extension := do
  let comments ← leadingComments
  let start ← word "extend"
  let extendee ← typeName
  let trailing ← openBrace
  let (read, stop) ← body extensionMember "a message field, option or '\x7d'"
    ⟨extendee, [], [], parent, extendee.namesOptions, { comments with trailing }, start⟩
  let result := { read with span := start.through stop }
  report (result.faults (← edition))
  return result

/-! ### Messages -/

/-- The members of the message at a path, given the parser of nested messages. -/
def messageMember (nested : MessagePath → Parser Message) (path : MessagePath) :
    Member Message := fun message next =>
  match next with
  | .word text =>
    if text = "message" then some do
      let inner ← nested (path ++ [message.messages.length])
      return { message with messages := message.messages ++ [inner] }
    else if text = "enum" then some do
      return { message with enums := message.enums ++ [← enumeration] }
    else if text = "oneof" then some do
      return { message with oneofs := message.oneofs ++ [← oneof message.oneofs.length] }
    else if text = "reserved" then some do
      return { message with reserved := message.reserved ++ [← reserved .field] }
    else if text = "extensions" then some do
      return { message with extensionRanges := message.extensionRanges ++ [← extensionRanges] }
    else if text = "option" then some do
      return { message with options := message.options ++ [← optionStatement] }
    else if text = "extend" then some do
      return { message with extensions := message.extensions ++ [← extension (some path)] }
    else some do
      return { message with fields := message.fields ++ (← field .message).toList }
  | .symbol .dot => some do
    return { message with fields := message.fields ++ (← field .message).toList }
  | _ => none

/-- What follows the first word of a message. -/
def messageRest (nested : MessagePath → Parser Message) (path : MessagePath)
    (comments : Comments) (start : Span) : Parser Message := do
  let name ← name
  let trailing ← openBrace
  let (read, stop) ← body (messageMember nested path)
    "a message field, oneof, reserved range, enum, message, option or '\x7d'"
    ⟨name, [], [], [], [], [], [], [], [], { comments with trailing }, start⟩
  let result := { read with span := start.through stop }
  report result.faults
  return result

/-- The message at a path, in which others may nest to a depth less one. -/
def message : Nat → MessagePath → Parser Message
  | 0, _ => do
    stop (.nestedTooDeeply .message) (← word "message")
  | depth + 1, path => do
    let comments ← leadingComments
    let start ← word "message"
    messageRest (message depth) path comments start

end Parser

end ProtoSchema
