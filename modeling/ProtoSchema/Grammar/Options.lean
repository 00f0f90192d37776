/-
This file parses options. The name of an option is a sequence of keys; its
value is a scalar or a message in text format, between braces or angle brackets,
in whose entries further messages and lists may nest up to a limit.
-/

import ProtoSchema.Grammar.Phrases

namespace ProtoSchema

namespace Parser

/-! ### Scalars -/

/-- A number with an optional sign. A sign does not change the value that is no number. -/
def number : Parser OptionValue := do
  let start ← here
  let negative ← accept (.symbol .minus)
  if !negative then
    let _ ← accept (.symbol .plus)
  match ← look with
  | some (.word "inf") => return .float (.number negative .infinity) (start.through (← advance))
  | some (.word "nan") => return .float .nan (start.through (← advance))
  | some (.int value) => return .int ⟨negative, value, start.through (← advance)⟩
  | some (.float value) => return .float (.number negative value) (start.through (← advance))
  | _ => unexpected "a number"

/-- A value other than a message or a list. The words for infinity and for no number may follow a
sign. -/
def scalarValue (expected : String) : Parser OptionValue := do
  match ← look with
  | some (.word text) =>
    if text = "true" then return .bool true (← advance)
    else if text = "false" then return .bool false (← advance)
    else if text = "inf" ∨ text = "nan" then number
    else return .identifier (← name)
  | some (.symbol .minus) | some (.symbol .plus) | some (.int _) | some (.float _) => number
  | some (.string _) =>
    let (value, span) ← bytes
    return .string value span
  | _ => unexpected expected

/-! ### Messages in text format -/

/-- The bracket that closes the message about to start. -/
def closingBracket : Parser Symbol := do
  match ← look with
  | some (.symbol .leftBrace) => return .rightBrace
  | some (.symbol .leftAngle) => return .rightAngle
  | _ => unexpected "'\x7b' or '<'"

/-- A value in an entry or a list, given the parser of nested messages. -/
def entryValue (message : Parser OptionValue) : Parser OptionValue := do
  match ← look with
  | some (.symbol .leftBrace) | some (.symbol .leftAngle) => message
  | _ => scalarValue "a value"

/-- A list in brackets, given the parser of nested messages. -/
def array (message : Parser OptionValue) : Parser OptionValue := do
  let start ← mark .leftBracket
  if (← look) = some (.symbol .rightBracket) then
    return .array [] (start.through (← advance))
  else
    let values ← commaList (entryValue message) (· = .symbol .rightBracket) "',' or ']'"
    return .array values (start.through (← mark .rightBracket))

/-- The name of an extension between brackets, the first of which is the next token. -/
def bracketedKey (closing : Symbol) : Parser OptionKey := do
  let start ← advance
  let name ← typeName
  return .extension name (start.through (← mark closing))

/-- The key of an entry in a message that ends with the given bracket. -/
def entryKey (closing : Symbol) : Parser OptionKey := do
  match ← look with
  | some (.word _) => return .plain (← name)
  | some (.symbol .leftBracket) => bracketedKey .rightBracket
  | _ => unexpected ("a field name or '" ++ closing.text ++ "'")

/-- What follows the key of an entry: before a message or a list the colon may be left out. -/
def entryRest (message : Parser OptionValue) : Parser OptionValue := do
  match ← look with
  | some (.symbol .colon) =>
    let _ ← advance
    if (← look) = some (.symbol .leftBracket) then array message else entryValue message
  | some (.symbol .leftBrace) | some (.symbol .leftAngle) => message
  | some (.symbol .leftBracket) => array message
  | _ => unexpected "':', '\x7b' or '<'"

/-- The comma or semicolon that may follow an entry. -/
def separator : Parser Unit := do
  match ← look with
  | some (.symbol .comma) | some (.symbol .semicolon) =>
    let _ ← advance
  | _ => return ()

/-- An entry of a message that ends with the given bracket. -/
def entry (message : Parser OptionValue) (closing : Symbol) : Parser OptionEntry := do
  let key ← entryKey closing
  let value ← entryRest message
  separator
  return ⟨key, value, key.span.through value.span⟩

/-- The entries of a message up to the bracket that closes it, whose place is answered. -/
def entries (message : Parser OptionValue) (closing : Symbol) :
    Parser (List OptionEntry × Span) :=
  repeating (fun found => do
    if (← look) = some (.symbol closing) then return .inr (found, ← advance)
    else return .inl (found ++ [← entry message closing])) []

/-- A message in text format, in which others may nest to a depth. -/
def aggregate : Nat → Parser OptionValue
  | 0 => do
    let _ ← closingBracket
    stop (.nestedTooDeeply .optionValue) (← here)
  | depth + 1 => do
    let closing ← closingBracket
    let start ← advance
    let (found, stop) ← entries (aggregate depth) closing
    return .aggregate found (start.through stop)

/-! ### Settings -/

/-- A part of an option's name. The name of an extension stands in parentheses. -/
def optionKey : Parser OptionKey := do
  match ← look with
  | some (.symbol .leftParen) => bracketedKey .rightParen
  | some (.word _) => return .plain (← name)
  | _ => unexpected "an identifier or '('"

/-- The name of an option and the equals sign after it. -/
def optionName : Parser (List OptionKey) := do
  let first ← optionKey
  repeating (fun keys => do
    match ← look with
    | some (.symbol .dot) =>
      let _ ← advance
      return .inl (keys ++ [← optionKey])
    | some (.symbol .equals) =>
      let _ ← advance
      return .inr keys
    | _ => unexpected "'.' or '='") [first]

/-- An option's name and value. -/
def setting : Parser OptionSetting := do
  let name ← optionName
  if (← look) = some (.symbol .leftBrace) then
    return ⟨name, ← aggregate Nesting.optionValue.limit⟩
  else return ⟨name, ← scalarValue "a constant"⟩

/-- Settings in brackets. -/
def settingList : Parser (List OptionSetting) := do
  let _ ← mark .leftBracket
  let settings ← commaList setting (· = .symbol .rightBracket) "',' or ']'"
  let _ ← mark .rightBracket
  return settings

/-- The settings before the semicolon of a declaration, if any. -/
def optionalSettings : Parser (List OptionSetting) := do
  match ← look with
  | some (.symbol .leftBracket) => settingList
  | some (.symbol .semicolon) => return []
  | _ => unexpected "';' or '['"

/-- An option that is a statement of its own. -/
def optionStatement : Parser OptionStatement := do
  let comments ← leadingComments
  let start ← word "option"
  let setting ← setting
  let (stop, trailing) ← terminator
  return ⟨setting, { comments with trailing }, start.through stop⟩

end Parser

end ProtoSchema
