/-
This file defines options: their names, their values, and the statements that
set them. A value is a scalar, or a message in text format, whose entries may
hold lists.
-/

import ProtoSchema.Number.Double
import ProtoSchema.Token.Basic
import ProtoSchema.Tree.IntLiteral
import ProtoSchema.Tree.Name

namespace ProtoSchema

/-- A part of an option's name, or the key of an entry: an identifier, or the name of an extension
in brackets, with the span of the brackets. -/
inductive OptionKey where
  | plain (name : Name)
  | extension (name : TypeName) (span : Span)
deriving DecidableEq, Repr

/-- The place of a key, with the parentheses or brackets if it has them. -/
def OptionKey.span : OptionKey → Span
  | plain name => name.span
  | extension _ span => span

mutual

/-- What an option can be set to. -/
inductive OptionValue where
  | identifier (name : Name)
  | int (literal : IntLiteral)
  | float (value : Double) (span : Span)
  | string (bytes : Bytes) (span : Span)
  | bool (value : Bool) (span : Span)
  | array (values : List OptionValue) (span : Span)
  | aggregate (entries : List OptionEntry) (span : Span)

/-- An entry of a message in text format. -/
structure OptionEntry where
  key : OptionKey
  value : OptionValue
  span : Span

end

deriving instance BEq, Repr for OptionValue, OptionEntry

/-- The place of a value. -/
def OptionValue.span : OptionValue → Span
  | .identifier name => name.span
  | .int literal => literal.span
  | .float _ span | .string _ span | .bool _ span | .array _ span | .aggregate _ span => span

/-- An option's name and value. -/
structure OptionSetting where
  name : List OptionKey
  value : OptionValue
deriving BEq, Repr

namespace OptionSetting

/-- Whether the name is one given identifier. -/
def isNamed (setting : OptionSetting) (word : String) : Bool :=
  match setting.name with
  | [.plain name] => name.text = word
  | _ => false

/-- From the start of the name's first part to the end of its last. -/
def nameSpan (setting : OptionSetting) : Span :=
  ⟨(setting.name.head?.map (·.span.start)).getD 0, (setting.name.getLast?.map (·.span.stop)).getD 0⟩

end OptionSetting

/-- An option set by a statement of its own. -/
structure OptionStatement where
  setting : OptionSetting
  comments : Comments
  span : Span
deriving BEq, Repr

end ProtoSchema
