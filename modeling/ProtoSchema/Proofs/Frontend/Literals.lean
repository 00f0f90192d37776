/-
This file says what becomes of a literal at the front of a source. Whatever bytes
the literal was written for and whatever text follows it, it is cut off as one
string token with these bytes and without a fault, and behind it the text is cut
as it is by itself, only so many bytes later.
-/

import ProtoSchema.Proofs.Scanning.Literal
import ProtoSchema.Proofs.Scanning.Shift

namespace ProtoSchema

/-! ### Sources so many bytes later -/

/-- The pieces of a source, or its faults, behind a piece that has none and ends at the count. -/
def Scan.behind (front : Piece) (count : Nat) : Scan → Scan
  | pieces found => pieces (front :: found.map (Piece.later count))
  | faulty first others =>
    faulty (first.later count) (others.map (LexicalFault.later count))

namespace Scanned

variable {count : Nat}

theorem faults_map_later (scanned : List Scanned) :
    faults (scanned.map (later count)) = (faults scanned).map (LexicalFault.later count) := by
  induction scanned with
  | nil => rfl
  | cons first rest inductionHypothesis =>
    cases first with
    | piece found own =>
      rw [List.map_cons, later, faults, faults, inductionHypothesis, List.map_append]
    | unknown span =>
      rw [List.map_cons, later, faults, faults, inductionHypothesis]
      cases faults rest with
      | nil => rfl
      | cons next more =>
        have merges : ((next.later count).cause = .unknownCharacters ∧
            (next.later count).span.start = (span.later count).stop) ↔
              (next.cause = .unknownCharacters ∧ next.span.start = span.stop) :=
          and_congr_right fun _ => Nat.add_right_cancel_iff
        simp only [List.map_cons, merges]
        split_ifs <;> rfl

theorem pieces_map_later (scanned : List Scanned) :
    (scanned.map (later count)).filterMap piece? =
      (scanned.filterMap piece?).map (Piece.later count) := by
  induction scanned with
  | nil => rfl
  | cons first rest inductionHypothesis =>
    cases first with
    | piece found own => exact congrArg (Piece.later count found :: ·) inductionHypothesis
    | unknown span => exact inductionHypothesis

end Scanned

/-! ### Literals -/

/-- Bytes that are written as a literal are read back from the front of any source: as one token
with these bytes, which takes up the literal and has no fault. What follows is scanned as it is by
itself, pieces and faults alike, behind the literal. -/
theorem scan_literal (bytes : Bytes) (rest : List Char) :
    Scanned.all 0 ((Escape.literal bytes).toList ++ rest) =
        .piece ⟨.token (.string bytes), ⟨0, byteLength (Escape.literal bytes).toList⟩⟩ [] ::
          (Scanned.all 0 rest).map (Scanned.later (byteLength (Escape.literal bytes).toList)) ∧
      scan ((Escape.literal bytes).toList ++ rest) =
        (scan rest).behind
          ⟨.token (.string bytes), ⟨0, byteLength (Escape.literal bytes).toList⟩⟩
          (byteLength (Escape.literal bytes).toList) := by
  have all := Scanned.all_literal bytes 0 rest
  rw [Scanned.all_later, Nat.zero_add] at all
  refine ⟨all, ?_⟩
  rw [scan, scan, all, Scanned.faults, List.nil_append, Scanned.faults_map_later]
  cases Scanned.faults (Scanned.all 0 rest) with
  | nil => exact congrArg (Scan.pieces <| _ :: ·) (Scanned.pieces_map_later _)
  | cons first others => rfl

/-- An octal escape is not continued by a digit behind it, nor by one among the bytes. -/
example : scan ((Escape.literal [0, 49]).toList ++ ['1']) =
    .pieces [⟨.token (.string [0, 49]), ⟨0, 7⟩⟩, ⟨.token (.int 1), ⟨7, 8⟩⟩] := by
  decide +kernel

end ProtoSchema
