/-
This file parses reserved numbers and names, and the ranges that are left to
extensions. The bounds of a range in a message have no sign.
-/

import ProtoSchema.Grammar.Options
import ProtoSchema.Validation.ReservedNumbers

namespace ProtoSchema

namespace Parser

/-! ### Ranges -/

/-- A bound of a range, which has a sign only in an enum. -/
def rangeBound : RangeKind → Parser IntLiteral
  | .field => positiveInt
  | .enumValue => signedInt "an integer"

/-- Whether a token may follow a range. -/
def endsRange : Token → Bool
  | .symbol .comma | .symbol .semicolon | .symbol .leftBracket => true
  | _ => false

/-- Whether a token may follow the last range. -/
def endsRanges : Token → Bool
  | .symbol .semicolon | .symbol .leftBracket => true
  | _ => false

/-- What follows the word that joins the bounds of a range. -/
def rangeEnd (kind : RangeKind) : Parser RangeEnd := do
  match ← look with
  | some (.word "max") => return .max (← advance)
  | some (.symbol .minus) | some (.int _) => return .int (← rangeBound kind)
  | _ => unexpected "an integer or 'max'"

/-- A single number, or a range with an end. -/
def range (kind : RangeKind) : Parser Range := do
  let first ← rangeBound kind
  match ← look with
  | some (.word "to") =>
    let _ ← advance
    return ⟨first, ← rangeEnd kind⟩
  | some token => if endsRange token then return ⟨first, .absent⟩ else unexpected "'to', ',' or ';'"
  | none => unexpected "'to', ',' or ';'"

/-- Ranges with commas between them. -/
def ranges (kind : RangeKind) : Parser (List Range) :=
  commaList (range kind) endsRanges "',' or ';'"

/-! ### Names -/

/-- A name in quotes. -/
def reservedName : Parser Name := do
  let name ← text
  report (if isIdentifier name.text then [] else [⟨.badReservedName, name.span⟩])
  return name

/-- Names in quotes with commas between them. -/
def reservedNames : Parser (List Name) :=
  commaList reservedName (· = .symbol .semicolon) "',' or ';'"

/-! ### Declarations -/

/-- Ranges or names; the next token decides. -/
def reservedItems (kind : RangeKind) : Parser ReservedItems := do
  match ← look with
  | some (.symbol .minus) | some (.int _) => return .ranges (← ranges kind)
  | some (.string _) => return .names (← reservedNames)
  | _ => unexpected "a positive integer or string"

/-- A statement that reserves ranges or names. -/
def reserved (kind : RangeKind) : Parser Reserved := do
  let comments ← leadingComments
  let start ← word "reserved"
  let items ← reservedItems kind
  let (stop, trailing) ← terminator
  return ⟨items, { comments with trailing }, start.through stop⟩

/-- A statement that leaves ranges to extensions. -/
def extensionRanges : Parser ExtensionRanges := do
  let comments ← leadingComments
  let start ← word "extensions"
  let ranges ← ranges .field
  let options ← optionalSettings
  let (stop, trailing) ← terminator
  return ⟨ranges, options, { comments with trailing }, start.through stop⟩

end Parser

end ProtoSchema
