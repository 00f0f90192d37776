/-
This file parses enums. Whether an enum allows aliases is decided by the last
statement that says so, wherever it stands among the values.
-/

import ProtoSchema.Grammar.Reservations
import ProtoSchema.Validation.Enumeration

namespace ProtoSchema

namespace OptionSetting

/-- Whether the option is set to the truth value true. -/
def isTrue (setting : OptionSetting) : Bool :=
  match setting.value with
  | .bool true _ => true
  | _ => false

end OptionSetting

namespace Enumeration

/-- The enum with one more option statement. -/
def addOption (enumeration : Enumeration) (option : OptionStatement) : Enumeration :=
  { enumeration with
    options := enumeration.options ++ [option]
    allowsAliases :=
      if option.setting.isNamed "allow_alias" then option.setting.isTrue
      else enumeration.allowsAliases }

end Enumeration

namespace Parser

/-- The faults of an enum number that fits no word. -/
def enumNumberFaults (literal : IntLiteral) : List SemanticFault :=
  if literal.number?.isSome then [] else [⟨.enumNumberOutOfRange, literal.span⟩]

/-- A value of an enum, whose number may have a sign. -/
def enumValue : Parser EnumValue := do
  let comments ← leadingComments
  let name ← name
  let _ ← mark .equals
  let number ← signedInt "an integer"
  report (enumNumberFaults number)
  let options ← optionalSettings
  let (stop, trailing) ← terminator
  return ⟨name, number, options, { comments with trailing }, name.span.through stop⟩

/-- The members of an enum. -/
def enumMember : Member Enumeration := fun enumeration next =>
  match next with
  | .word text =>
    if text = "option" then some do return enumeration.addOption (← optionStatement)
    else if text = "reserved" then some do
      return { enumeration with reserved := enumeration.reserved ++ [← reserved .enumValue] }
    else some do return { enumeration with values := enumeration.values ++ [← enumValue] }
  | _ => none

/-- An enum, which is checked when its body is closed. -/
def enumeration : Parser Enumeration := do
  let comments ← leadingComments
  let start ← word "enum"
  let name ← name
  let trailing ← openBrace
  let (read, stop) ← body enumMember "an identifier, 'reserved', 'option' or '\x7d'"
    ⟨name, [], [], [], false, { comments with trailing }, start⟩
  let result := { read with span := start.through stop }
  report result.faults
  return result

end Parser

end ProtoSchema
