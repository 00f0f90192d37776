/-
This file shows that a text is cut into the same pieces wherever it stands in a
source: with the text, the pieces and the faults in them stand so many bytes later.
-/

import Mathlib.Tactic.SplitIfs
import ProtoSchema.Token.Scan

namespace ProtoSchema

/-- The span so many bytes later. -/
def Span.later (count : Nat) (span : Span) : Span := ⟨span.start + count, span.stop + count⟩

/-- A fault in a text that stands behind others. -/
def LexicalFault.later (count : Nat) (fault : LexicalFault) : LexicalFault :=
  { fault with span := fault.span.later count }

variable {count : Nat}

/-! ### Numbers and literals -/

theorem Numeral.faults_later (numeral : Numeral) (offset : Nat) (after : List Char) :
    numeral.faults (offset + count) after =
      (numeral.faults offset after).map (LexicalFault.later count) := by
  obtain ⟨length, value, endsBeforeIdentifier⟩ := numeral
  unfold faults
  cases value
  all_goals
    dsimp only
    split_ifs
    all_goals simp [LexicalFault.later, Span.later, Nat.add_right_comm]

namespace StringBody

/-- The body of a literal in a text that stands behind others. -/
def later (count : Nat) (body : StringBody) : StringBody :=
  { body with faults := body.faults.map (LexicalFault.later count) }

theorem prepend_later (size : Nat) (bytes : Bytes) (body : StringBody) :
    (body.prepend size bytes).later count = (body.later count).prepend size bytes := rfl

theorem reject_later (cause : LexicalCause) (span : Span) (size : Nat) (body : StringBody) :
    (body.reject cause span size).later count =
      (body.later count).reject cause (span.later count) size := by
  obtain ⟨bytes, length, faults⟩ := body
  cases faults with
  | nil => rfl
  | cons next others =>
    have same :
        continues (span.later count).stop (next.later count) = continues span.stop next := by
      simp [continues, Span.later, LexicalFault.later]
    simp only [reject, later, List.map_cons, same]
    split <;> rfl

/-- What is read of a literal does not depend on where it stands, apart from its faults. -/
theorem read_later (opening offset : Nat) (quote : Char) (text : List Char) :
    read (opening + count) quote (offset + count) text =
      (read opening quote offset text).later count := by
  fun_induction read opening quote offset text with
  | case1 offset =>
    rw [read]
    rfl
  | case2 offset rest =>
    rw [read, if_pos rfl]
    rfl
  | case3 offset rest notQuote =>
    rw [read, if_neg notQuote, if_pos rfl]
    rfl
  | case4 offset rest notQuote notBreak inductionHypothesis =>
    rw [read, if_neg notQuote, if_neg notBreak, if_pos rfl, reject_later, ← inductionHypothesis,
      Nat.add_right_comm]
    rfl
  | case5 offset rest noEscape notQuote notBreak notNul inductionHypothesis =>
    rw [read, if_neg notQuote, if_neg notBreak, if_neg notNul, if_pos rfl, noEscape, reject_later,
      ← inductionHypothesis, Nat.add_right_comm]
    rfl
  | case6 offset rest escape isEscape size body bytes isValue notQuote notBreak notNul
      inductionHypothesis =>
    rw [read, if_neg notQuote, if_neg notBreak, if_neg notNul, if_pos rfl, isEscape, prepend_later,
      ← inductionHypothesis]
    simp only [isValue, size, Nat.add_right_comm]
  | case7 offset rest escape isEscape size body noValue notQuote notBreak notNul
      inductionHypothesis =>
    rw [read, if_neg notQuote, if_neg notBreak, if_neg notNul, if_pos rfl, isEscape, reject_later,
      ← inductionHypothesis]
    simp only [noValue, size, Span.later, Nat.add_right_comm]
  | case8 offset first rest notQuote notBreak notNul notEscape inductionHypothesis =>
    rw [read, if_neg notQuote, if_neg notBreak, if_neg notNul, if_neg notEscape, prepend_later,
      ← inductionHypothesis, Nat.add_right_comm]

end StringBody

/-! ### Pieces -/

namespace Front

/-- A front of a text that stands behind others; what it is and how long does not change. -/
def later (count : Nat) : Front → Front
  | element found length faults => element found length (faults.map (LexicalFault.later count))
  | blank => blank
  | unknown => unknown

theorem length_later (front : Front) : (front.later count).length = front.length := by
  cases front <;> rfl

theorem read_later (offset : Nat) (first : Char) (rest : List Char) :
    read (offset + count) first rest = (read offset first rest).later count := by
  have isNumber : number (offset + count) (first :: rest) =
      (number offset (first :: rest)).later count := by
    simp only [number, later, Numeral.faults_later]
  have isString : string (offset + count) first rest = (string offset first rest).later count := by
    simp only [string, Nat.add_right_comm offset count, StringBody.read_later]
    rfl
  have isComment (text : List Char) : blockComment (offset + count) text =
      (blockComment offset text).later count := by
    simp only [blockComment, later, Nat.add_right_comm offset count]
    split <;> rfl
  have isSymbol : symbol first = (symbol first).later count := by
    unfold symbol
    split <;> rfl
  unfold read
  split_ifs
  · rfl
  · rfl
  · rfl
  · exact isNumber
  · exact isString
  · rfl
  · exact isComment _
  · exact isSymbol

end Front

/-- A piece of a text that stands behind others. -/
def Piece.later (count : Nat) (piece : Piece) : Piece :=
  { piece with span := piece.span.later count }

namespace Scanned

/-- What was scanned of a text that stands behind others. -/
def later (count : Nat) : Scanned → Scanned
  | piece found faults =>
    piece { found with span := found.span.later count } (faults.map (LexicalFault.later count))
  | unknown span => unknown (span.later count)

/-- What is scanned at the front of a text, at its place. -/
def ofFront (span : Span) : Front → List Scanned
  | .blank => []
  | .unknown => [unknown span]
  | .element found _ faults => [piece ⟨found, span⟩ faults]

theorem ofFront_later (span : Span) (front : Front) :
    ofFront (span.later count) (front.later count) = (ofFront span front).map (later count) := by
  cases front <;> rfl

/-- What stands at the front of a text is scanned, and then what stands behind it. -/
theorem all_cons {offset : Nat} {first : Char} {rest : List Char} {front : Front}
    (isFront : Front.read offset first rest = front) :
    all offset (first :: rest) =
      ofFront ⟨offset, offset + byteLength (first :: rest.take (front.length - 1))⟩ front ++
        all (offset + byteLength (first :: rest.take (front.length - 1)))
          (rest.drop (front.length - 1)) := by
  rw [all]
  simp only [isFront]
  cases front <;> rfl

/-- An element that is read as the first characters of a text is scanned, and then the others. -/
theorem all_element {offset : Nat} {first : Char} {text rest : List Char} {found : Element}
    {faults : List LexicalFault}
    (front : Front.read offset first (text ++ rest) = .element found (text.length + 1) faults) :
    all offset (first :: (text ++ rest)) =
      piece ⟨found, ⟨offset, offset + byteLength (first :: text)⟩⟩ faults ::
        all (offset + byteLength (first :: text)) rest := by
  rw [all_cons front, Front.length, Nat.add_sub_cancel, List.take_left, List.drop_left]
  rfl

/-- A text that stands so many bytes later is cut into the same pieces so many bytes later. -/
theorem all_later (offset : Nat) (text : List Char) :
    all (offset + count) text = (all offset text).map (later count) := by
  match text with
  | [] => rw [all, all, List.map_nil]
  | first :: rest =>
    rw [all_cons (Front.read_later offset first rest), all_cons rfl, Front.length_later,
      Nat.add_right_comm, List.map_append, ← ofFront_later, all_later]
    rfl
termination_by text.length
decreasing_by
  rw [List.length_drop, List.length_cons]
  omega

end Scanned

end ProtoSchema
