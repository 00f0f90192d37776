/-
This file follows a semicolon that is inserted into a source, directly behind a
brace that is read as a token, to the tokens that the grammar is given. What is
read before it stays where it is, what is read behind it stands a byte later, and
the comments around it stay with the tokens that they stood with.
-/

import Mathlib.Data.List.Basic
import ProtoSchema.Proofs.Insertion.Rules
import ProtoSchema.Proofs.Scanning.Brace
import ProtoSchema.Proofs.Scanning.Order
import ProtoSchema.Proofs.Scanning.Spelling

namespace ProtoSchema

/-! ### Room for a byte -/

/-- What starts at an offset or behind it, or ends behind it, stands a byte later. -/
def Move.gap (offset : Nat) : Move where
  start place := if place < offset then place else place + 1
  stop place := if place ≤ offset then place else place + 1
  strict less := by split_ifs <;> omega

theorem Span.moved_gap_before {span : Span} {offset : Nat} (some : span.start < span.stop)
    (before : span.stop ≤ offset) : span.moved (.gap offset) = span := by
  have starts : span.start < offset := Nat.lt_of_lt_of_le some before
  simp [Span.moved, Move.gap, starts, before]

theorem Span.moved_gap_behind {span : Span} {offset : Nat} (some : span.start < span.stop)
    (behind : offset ≤ span.start) : span.moved (.gap offset) = span.later 1 := by
  have starts : ¬ span.start < offset := Nat.not_lt.mpr behind
  have stops : ¬ span.stop ≤ offset := Nat.not_le.mpr (Nat.lt_of_le_of_lt behind some)
  simp [Span.moved, Span.later, Move.gap, starts, stops]

/-- A piece of a source with its place moved on. -/
def Piece.moved (move : Move) (piece : Piece) : Piece :=
  { piece with span := piece.span.moved move }

/-! ### Pieces -/

/-- A semicolon directly behind a brace is one piece more. -/
theorem scan_inserted {source : List Char} {front back : List Piece} {span : Span}
    (scanned : scan source = .pieces (front ++ .symbol .rightBrace span :: back)) :
    ∃ left right, source = left ++ '}' :: right ∧ span = ⟨byteLength left, byteLength left + 1⟩ ∧
      scan (left ++ '}' :: ';' :: right) = .pieces (front ++ .symbol .rightBrace span ::
        .symbol .semicolon ⟨span.stop, span.stop + 1⟩ ::
          back.map (Piece.moved (.gap span.stop))) := by
  have increasing := increasing_of_scan scanned
  rw [List.map_append, List.map_cons] at increasing
  obtain ⟨before, some, behind⟩ := increasing.around
  have whole := scan_eq_pieces_iff.mp scanned
  have member : .symbol .rightBrace span ∈ (Scanned.all 0 source).filterMap Scanned.piece? := by
    rw [whole, List.filterMap_map, List.mem_filterMap]
    exact ⟨_, List.mem_append_right _ List.mem_cons_self, rfl⟩
  obtain ⟨left, right, rfl, rfl, found, shielded⟩ := Scanned.exists_of_brace member
  rw [Nat.zero_add] at *
  have brace (rear : List Char) := Scanned.all_symbol .rightBrace (by decide) (by decide)
    (byteLength left) rear
  have semicolon (rear : List Char) := Scanned.all_symbol .semicolon (by decide) (by decide)
    (byteLength left + 1) rear
  simp only [Symbol.character] at brace semicolon
  have absent {others : List Piece} {mark : Symbol} {span : Span}
      (apart : span ∉ others.map Piece.span) :
      Scanned.piece (.symbol mark span) [] ∉ others.map (Scanned.piece · []) := by
    intro present
    obtain ⟨other, isOther, same⟩ := List.mem_map.mp present
    obtain rfl := (Scanned.piece.inj same).1
    exact apart (List.mem_map_of_mem isOther)
  -- No other piece has the span of the brace, so the pieces are parted in one way only.
  have parts : found ++
        Scanned.piece (.symbol .rightBrace ⟨byteLength left, byteLength left + 1⟩) [] ::
          Scanned.all (byteLength left + 1) right =
      front.map (Scanned.piece · []) ++
        Scanned.piece (.symbol .rightBrace ⟨byteLength left, byteLength left + 1⟩) [] ::
          back.map (Scanned.piece · []) := by
    rw [← brace, ← shielded, whole, List.map_append, List.map_cons]
  have notBefore := @absent front .rightBrace _ fun isOther =>
    absurd (before _ isOther).2 (Nat.not_le_of_gt some)
  have notBehind := @absent back .rightBrace _ fun isOther =>
    absurd (behind _ isOther).2 (Nat.not_le_of_gt some)
  obtain ⟨rfl, -, sameBack⟩ :=
    (List.append_cons_inj_of_notMem notBefore notBehind).mp parts.symm
  have moved : (back.map (Scanned.piece · [])).map (Scanned.later 1) =
      (back.map (Piece.moved (.gap (byteLength left + 1)))).map (Scanned.piece · []) := by
    rw [List.map_map, List.map_map]
    refine List.map_congr_left fun piece isPiece => ?_
    obtain ⟨some, later⟩ := behind piece.span (List.mem_map_of_mem isPiece)
    simp [Scanned.later, Piece.moved, Span.moved_gap_behind some later]
  refine ⟨left, right, rfl, rfl, scan_eq_pieces_iff.mpr ?_⟩
  rw [shielded, brace, semicolon, Scanned.all_later, ← sameBack, moved, List.map_append,
    List.map_cons, List.map_cons]

/-! ### Tokens -/

namespace TokenStream

/-- Whether the first token follows a closing brace is what is known before it. -/
theorem followsBrace_of_build {comments : Tracker} {follows : Bool} {pieces : List Piece}
    {lexeme : Lexeme} {rest : List Lexeme}
    (starts : (build comments follows pieces).lexemes = lexeme :: rest) :
    lexeme.followsBrace = follows := by
  fun_induction build comments follows pieces with
  | case1 => cases starts
  | case2 comments follows trivia span pieces inductionHypothesis =>
    exact inductionHypothesis starts
  | case3 comments follows token span pieces inductionHypothesis =>
    obtain ⟨rfl, -⟩ := List.cons.inj starts
    rfl

/-- Where a token stands among the pieces. What is behind it is prepared as after any such token. -/
theorem exists_of_build {comments : Tracker} {follows : Bool} {pieces : List Piece}
    {taken rest : List Lexeme} {lexeme : Lexeme}
    (split : (build comments follows pieces).lexemes = taken ++ lexeme :: rest) :
    ∃ front back, pieces = front ++ ⟨.token lexeme.token, lexeme.span⟩ :: back ∧
      rest = (build .afterToken (lexeme.token = .symbol .rightBrace) back).lexemes ∧
      ∀ other, build comments follows (front ++ ⟨.token lexeme.token, lexeme.span⟩ :: other) =
        let stream := build .afterToken (lexeme.token = .symbol .rightBrace) other
        ⟨taken ++ lexeme :: stream.lexemes, stream.atEnd⟩ := by
  fun_induction build comments follows pieces generalizing taken with
  | case1 => cases taken <;> cases split
  | case2 comments follows trivia span pieces inductionHypothesis =>
    obtain ⟨front, back, rfl, isRest, same⟩ := inductionHypothesis split
    exact ⟨⟨.trivia trivia, span⟩ :: front, back, rfl, isRest, same⟩
  | case3 comments follows token span pieces inductionHypothesis =>
    cases taken with
    | nil =>
      obtain ⟨rfl, rfl⟩ := List.cons.inj split
      exact ⟨[], pieces, rfl, rfl, fun other => rfl⟩
    | cons first taken =>
      obtain ⟨rfl, later⟩ := List.cons.inj split
      obtain ⟨front, back, rfl, isRest, same⟩ := inductionHypothesis later
      refine ⟨⟨.token token, span⟩ :: front, back, rfl, isRest, fun other => ?_⟩
      rw [List.cons_append, build, same]
      rfl

/-- Pieces at other places make a stream of tokens at other places, with the same comments. A first
token that is no semicolon need not follow the same token. -/
theorem carried_build (move : Move) {comments : Tracker} {first second : Bool} {pieces : List Piece}
    (alike : (build comments first pieces).lexemes.head?.map (·.token) = some (.symbol .semicolon) →
      second = first) :
    List.Forall₂ (Lexeme.Carried move) (build comments first pieces).lexemes
        (build comments second (pieces.map (Piece.moved move))).lexemes ∧
      (build comments second (pieces.map (Piece.moved move))).atEnd =
        (build comments first pieces).atEnd := by
  fun_induction build comments first pieces generalizing second with
  | case1 => exact ⟨.nil, rfl⟩
  | case2 comments first trivia span pieces inductionHypothesis => exact inductionHypothesis alike
  | case3 comments first token span pieces inductionHypothesis =>
    obtain ⟨carried, sameEnd⟩ := inductionHypothesis fun _ => rfl
    refine ⟨.cons ⟨rfl, rfl, rfl, fun isSemicolon => alike ?_⟩ carried, sameEnd⟩
    exact congrArg some isSemicolon

end TokenStream

end ProtoSchema
