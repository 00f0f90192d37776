/-
This file shows that a line break parts what stands before it from what stands
behind it. A text that is cut into pieces without a fault is cut into the same
tokens in front of a line break, and what follows is cut as it is by itself. Only
what is no token can differ: a comment on the last line takes up the line break.
-/

import ProtoSchema.Proofs.Scanning.Decided
import ProtoSchema.Proofs.Scanning.Fronts

namespace ProtoSchema

namespace Scanned

theorem all_newline (offset : Nat) (rest : List Char) :
    all offset ('\n' :: rest) =
      piece ⟨.trivia .newline, ⟨offset, offset + 1⟩⟩ [] :: all (offset + 1) rest :=
  all_cons (rfl : Front.read offset '\n' rest = .element (.trivia .newline) 1 [])

theorem all_blank {offset : Nat} {first : Char} (blank : isBlank first = true) (rest : List Char) :
    all offset (first :: rest) = all (offset + first.utf8Size) rest :=
  all_cons (if_pos blank : Front.read offset first rest = .blank)

theorem read_slashes (offset : Nat) (text : List Char) :
    Front.read offset '/' ('/' :: text) = Front.lineComment text := rfl

/-- A comment on the last line is all that is left of a text. -/
theorem all_lineComment {line : List Char} (noBreak : '\n' ∉ line) (offset : Nat) :
    all offset ('/' :: '/' :: line) =
      [piece ⟨.trivia (.lineComment (String.ofList (unifyNewlines line))),
        ⟨offset, offset + byteLength ('/' :: '/' :: line)⟩⟩ []] := by
  have front : Front.read offset '/' (('/' :: line) ++ []) =
      .element (.trivia (.lineComment (String.ofList (unifyNewlines line))))
        (('/' :: line).length + 1) [] := by
    rw [List.append_nil, read_slashes offset, Front.lineComment_last noBreak]
    rfl
  have whole := all_element front
  rwa [List.append_nil, all] at whole

/-- A comment takes up the line break behind it. -/
theorem all_lineComment_line {line : List Char} (noBreak : '\n' ∉ line) (offset : Nat)
    (rear : List Char) :
    all offset ('/' :: '/' :: (line ++ '\n' :: rear)) =
      piece ⟨.trivia (.lineComment (String.ofList (unifyNewlines (line ++ ['\n'])))),
          ⟨offset, offset + byteLength ('/' :: '/' :: line) + 1⟩⟩ [] ::
        all (offset + byteLength ('/' :: '/' :: line) + 1) rear := by
  have size : offset + byteLength ('/' :: '/' :: (line ++ ['\n'])) =
      offset + byteLength ('/' :: '/' :: line) + 1 := by
    rw [← List.cons_append, ← List.cons_append, byteLength_append]
    rfl
  have front : Front.read offset '/' (('/' :: (line ++ ['\n'])) ++ rear) =
      .element (.trivia (.lineComment (String.ofList (unifyNewlines (line ++ ['\n'])))))
        (('/' :: (line ++ ['\n'])).length + 1) [] := by
    rw [List.cons_append, List.append_assoc, List.singleton_append, read_slashes offset,
      Front.lineComment_line noBreak, List.length_cons, List.length_append, List.length_singleton]
  have whole := all_element front
  rwa [size, List.cons_append, List.append_assoc, List.singleton_append] at whole

/-- The tokens of a text are the same in front of a line break. -/
theorem exists_line {offset : Nat} {text : List Char} {pieces : List Piece}
    (scanned : all offset text = pieces.map (piece · [])) :
    ∃ found : List Piece, Piece.placedTokens found = Piece.placedTokens pieces ∧
      ∀ rear, all offset (text ++ '\n' :: rear) =
        found.map (piece · []) ++ all (offset + byteLength text + 1) rear := by
  match text with
  | [] =>
    rw [all] at scanned
    obtain rfl := List.map_eq_nil_iff.mp scanned.symm
    exact ⟨[⟨.trivia .newline, ⟨offset, offset + 1⟩⟩], rfl, all_newline offset⟩
  | first :: rest =>
    rcases cons_eq_map_piece scanned with
      ⟨blank, -, isLater⟩ | ⟨element, length, later, front, rfl, isLater⟩
    · obtain ⟨found, tokens, same⟩ := exists_line isLater
      refine ⟨found, tokens, fun rear => ?_⟩
      rw [List.cons_append, all_blank blank, same, byteLength_cons, Nat.add_assoc offset]
    · rcases Front.read_edge edge_newline offset first rest with
        ⟨within, ends⟩ | ⟨faulty | ⟨rfl, line, rfl, noBreak⟩, -⟩
      · rw [front] at within ends
        obtain ⟨found, tokens, same⟩ := exists_line isLater
        have inside : length - 1 ≤ rest.length := Nat.sub_le_of_le_add within
        have total : offset + byteLength (first :: rest.take (length - 1)) +
            byteLength (rest.drop (length - 1)) = offset + byteLength (first :: rest) := by
          rw [Nat.add_assoc, ← byteLength_append, List.cons_append, List.take_append_drop]
        refine ⟨⟨element, ⟨offset, offset + byteLength (first :: rest.take (length - 1))⟩⟩ :: found,
          ?_, fun rear => ?_⟩
        · rw [Piece.placedTokens_cons, Piece.placedTokens_cons, tokens]
        · rw [List.cons_append, all_cons (ends rear), Front.length,
            List.take_append_of_le_length inside, List.drop_append_of_le_length inside, same, total]
          rfl
      · rw [front] at faulty
        exact absurd rfl faulty
      · rw [all_lineComment noBreak] at scanned
        obtain ⟨isComment, none⟩ := List.cons.inj scanned
        obtain rfl := List.map_eq_nil_iff.mp none.symm
        obtain ⟨isComment, -⟩ := Scanned.piece.inj isComment
        rw [← isComment]
        refine ⟨[⟨.trivia (.lineComment _), _⟩], ?_, all_lineComment_line noBreak offset⟩
        rfl
termination_by text.length
decreasing_by all_goals simp only [List.length_cons, List.length_drop]; omega

end Scanned

theorem Piece.placedTokens_append (first second : List Piece) :
    placedTokens (first ++ second) = placedTokens first ++ placedTokens second :=
  List.filterMap_append

theorem Piece.placedTokens_later (count : Nat) (pieces : List Piece) :
    placedTokens (pieces.map (later count)) =
      (placedTokens pieces).map fun placed => (placed.1, placed.2.later count) := by
  induction pieces with
  | nil => rfl
  | cons piece rest inductionHypothesis =>
    rw [List.map_cons, placedTokens_cons, placedTokens_cons, inductionHypothesis, List.map_append]
    refine congrArg (· ++ _) ?_
    cases found : piece.element.token? <;> simp [later, found]

/-- Two sources with a line break between them have the tokens of the first and then, behind it,
those of the second. -/
theorem scan_joined {first second : List Char} {firstPieces secondPieces : List Piece}
    (firstScanned : scan first = .pieces firstPieces)
    (secondScanned : scan second = .pieces secondPieces) :
    ∃ pieces, scan (first ++ '\n' :: second) = .pieces pieces ∧
      Piece.placedTokens pieces = Piece.placedTokens firstPieces ++
        (Piece.placedTokens secondPieces).map fun placed =>
          (placed.1, placed.2.later (byteLength first + 1)) := by
  obtain ⟨found, tokens, same⟩ := Scanned.exists_line (scan_eq_pieces_iff.mp firstScanned)
  have behind : Scanned.all (0 + (byteLength first + 1)) second =
      (Scanned.all 0 second).map (Scanned.later (byteLength first + 1)) :=
    Scanned.all_later 0 second
  rw [scan_eq_pieces_iff.mp secondScanned, ← Nat.add_assoc] at behind
  refine ⟨found ++ secondPieces.map (Piece.later (byteLength first + 1)), ?_, ?_⟩
  · rw [scan_eq_pieces_iff, same, behind, List.map_append, List.map_map, List.map_map]
    rfl
  · rw [Piece.placedTokens_append, Piece.placedTokens_later, tokens]

end ProtoSchema
