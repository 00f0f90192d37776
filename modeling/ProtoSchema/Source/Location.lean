/-
This file turns byte offsets into positions that a reader of the source can
find: a line and a column, both counted from one, where a column counts the
bytes since the start of its line. An offset past the end of the source lies on
the last line. The places of a source are located in this way. Offsets of any
size, which a caller may ask for, are located in words of 64 bits.
-/

import ProtoSchema.Source.Span

namespace ProtoSchema

/-- A line and a column, both starting at one. -/
structure Location where
  line : Nat
  column : Nat
deriving DecidableEq, Repr, Inhabited

/-- A location as diagnostics show it. -/
def Location.text (location : Location) : String :=
  toString location.line ++ ":" ++ toString location.column

/-- The offsets at which the lines of a source start, the first line apart, in increasing order. -/
structure LineIndex where
  starts : List Nat
deriving DecidableEq, Repr, Inhabited

namespace LineIndex

/-- The offsets directly after each line break of the characters, the first of which stands at
`offset`. -/
def startsFrom (offset : Nat) : List Char → List Nat
  | [] => []
  | first :: rest =>
    let next := offset + first.utf8Size
    if first = '\n' then next :: startsFrom next rest else startsFrom next rest

/-- The index of a source text. -/
def ofSource (source : List Char) : LineIndex := ⟨startsFrom 0 source⟩

/-- The location of a byte offset. -/
def locate (index : LineIndex) (offset : Nat) : Location :=
  let before := index.starts.takeWhile (· ≤ offset)
  ⟨before.length + 1, offset - before.getLastD 0 + 1⟩

/-- The location of a word taken for an offset. The line and the column are words too, so counting
starts over behind the greatest. -/
def locateWord (index : LineIndex) (offset : UInt64) : Location :=
  let before := index.starts.takeWhile (· ≤ offset.toNat)
  let line := UInt64.ofNat before.length
  let column := offset - UInt64.ofNat (before.getLastD 0)
  ⟨(line + 1).toNat, (column + 1).toNat⟩

end LineIndex

end ProtoSchema
