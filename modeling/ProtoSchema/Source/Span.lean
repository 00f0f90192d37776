/-
This file defines spans: half-open ranges of byte offsets into the UTF-8
encoding of a source text. Every token, every declaration and every diagnostic
carries one.
-/

namespace ProtoSchema

/-- A range of byte offsets, from `start` up to but not including `stop`. -/
structure Span where
  start : Nat
  stop : Nat
deriving DecidableEq, Repr, Inhabited

namespace Span

/-- The empty span at an offset. -/
def point (offset : Nat) : Span := ⟨offset, offset⟩

/-- From the start of one span to the end of another. -/
def through (first last : Span) : Span := ⟨first.start, last.stop⟩

@[simp] theorem start_through (first last : Span) : (first.through last).start = first.start := rfl

@[simp] theorem stop_through (first last : Span) : (first.through last).stop = last.stop := rfl

@[simp] theorem through_self (span : Span) : span.through span = span := rfl

end Span

/-! ### Lengths in bytes -/

/-- The number of bytes that the UTF-8 encoding of the characters takes. -/
def byteLength : List Char → Nat
  | [] => 0
  | first :: rest => first.utf8Size + byteLength rest

@[simp] theorem byteLength_nil : byteLength [] = 0 := rfl

@[simp] theorem byteLength_cons (first : Char) (rest : List Char) :
    byteLength (first :: rest) = first.utf8Size + byteLength rest := rfl

@[simp] theorem byteLength_append (left right : List Char) :
    byteLength (left ++ right) = byteLength left + byteLength right := by
  induction left with
  | nil => simp
  | cons first rest inductionHypothesis => simp [inductionHypothesis, Nat.add_assoc]

theorem byteLength_take_add_drop (count : Nat) (characters : List Char) :
    byteLength (characters.take count) + byteLength (characters.drop count) =
      byteLength characters := by
  rw [← byteLength_append, List.take_append_drop]

/-- A character takes a byte or more. -/
theorem length_le_byteLength (characters : List Char) :
    characters.length ≤ byteLength characters := by
  induction characters with
  | nil => exact Nat.le_refl _
  | cons first rest inductionHypothesis =>
    have positive := Char.utf8Size_pos first
    rw [List.length_cons, byteLength_cons]
    omega

end ProtoSchema
