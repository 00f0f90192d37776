/-
This file shows that the pieces of a source stand in it one after another: each
takes some bytes, none overlaps the next, and all lie within the source. The same
goes for the tokens among them, which is all that the grammar is given.
-/

import ProtoSchema.Token.Lexeme
import ProtoSchema.Token.Scan

namespace ProtoSchema

/-- The spans take some bytes each, follow one another without overlap, and end before a limit. -/
structure Increasing (limit : Nat) (spans : List Span) : Prop where
  each : ∀ span ∈ spans, span.start < span.stop ∧ span.stop ≤ limit
  ordered : spans.Pairwise fun first second => first.stop ≤ second.start

namespace Increasing

variable {limit : Nat} {span : Span} {spans others : List Span}

theorem nil : Increasing limit [] :=
  ⟨fun _ member => absurd member List.not_mem_nil, .nil⟩

theorem sublist (increasing : Increasing limit spans) (fewer : others.Sublist spans) :
    Increasing limit others :=
  ⟨fun span member => increasing.each span (fewer.subset member), increasing.ordered.sublist fewer⟩

theorem cons (some : span.start < span.stop) (inside : span.stop ≤ limit)
    (before : ∀ other ∈ spans, span.stop ≤ other.start) (increasing : Increasing limit spans) :
    Increasing limit (span :: spans) :=
  ⟨List.forall_mem_cons.mpr ⟨⟨some, inside⟩, increasing.each⟩, .cons before increasing.ordered⟩

/-- What stands around a span. -/
theorem around {before behind : List Span}
    (increasing : Increasing limit (before ++ span :: behind)) :
    (∀ other ∈ before, other.start < other.stop ∧ other.stop ≤ span.start) ∧
      span.start < span.stop ∧
        ∀ other ∈ behind, other.start < other.stop ∧ span.stop ≤ other.start := by
  obtain ⟨each, ordered⟩ := increasing
  obtain ⟨-, others, across⟩ := List.pairwise_append.mp ordered
  refine ⟨fun other member => ⟨(each other (List.mem_append_left _ member)).1, ?_⟩, ?_,
    fun other member => ⟨?_, List.rel_of_pairwise_cons others member⟩⟩
  · exact across other member span List.mem_cons_self
  · exact (each span (List.mem_append_right _ List.mem_cons_self)).1
  · exact (each other (List.mem_append_right _ (List.mem_cons_of_mem _ member))).1

end Increasing

/-! ### Pieces -/

/-- The pieces that are scanned from a text stand in it one after another, each where the one before
it ends or after it. -/
theorem Scanned.increasing_all (offset : Nat) (source : List Char) :
    let spans := ((Scanned.all offset source).filterMap Scanned.piece?).map Piece.span
    Increasing (offset + byteLength source) spans ∧ ∀ span ∈ spans, offset ≤ span.start := by
  dsimp only
  fun_induction Scanned.all offset source with
  | case1 => exact ⟨.nil, fun _ member => absurd member List.not_mem_nil⟩
  | case2 offset first rest front extra stop others _ inductionHypothesis
  | case3 offset first rest front extra stop others _ inductionHypothesis =>
    have total : stop + byteLength (rest.drop extra) = offset + byteLength (first :: rest) := by
      have parts := byteLength_take_add_drop extra rest
      simp only [stop, byteLength_cons]
      omega
    rw [total] at inductionHypothesis
    refine ⟨inductionHypothesis.1, fun span member => ?_⟩
    exact Nat.le_trans (Nat.le_add_right _ _) (inductionHypothesis.2 span member)
  | case4 offset first rest front extra stop others element length faults _ inductionHypothesis =>
    have parts := byteLength_take_add_drop extra rest
    have positive := Char.utf8Size_pos first
    have stopEq : stop = offset + (first.utf8Size + byteLength (rest.take extra)) := by
      simp only [stop, byteLength_cons]
    have total : stop + byteLength (rest.drop extra) = offset + byteLength (first :: rest) := by
      rw [stopEq, byteLength_cons]
      omega
    rw [total] at inductionHypothesis
    obtain ⟨increasing, after⟩ := inductionHypothesis
    have ahead : offset < stop := by omega
    have inside : stop ≤ offset + byteLength (first :: rest) := by omega
    refine ⟨increasing.cons ahead inside after, List.forall_mem_cons.mpr ⟨Nat.le_refl _, ?_⟩⟩
    exact fun span member => Nat.le_trans (Nat.le_of_lt ahead) (after span member)

/-- The pieces of a source stand in it one after another. -/
theorem increasing_of_scan {source : List Char} {pieces : List Piece}
    (scanned : scan source = .pieces pieces) :
    Increasing (byteLength source) (pieces.map Piece.span) := by
  have increasing := (Scanned.increasing_all 0 source).1
  rw [Nat.zero_add] at increasing
  unfold scan at scanned
  dsimp only at scanned
  split at scanned
  · obtain rfl := Scan.pieces.inj scanned
    exact increasing
  · cases scanned

/-! ### Tokens -/

namespace TokenStream

/-- The grammar is given the tokens of the pieces where they stand. -/
theorem sublist_build (comments : Tracker) (followsBrace : Bool) (pieces : List Piece) :
    ((build comments followsBrace pieces).lexemes.map Lexeme.span).Sublist
      (pieces.map Piece.span) := by
  fun_induction build comments followsBrace pieces with
  | case1 => exact .slnil
  | case2 comments followsBrace trivia span rest inductionHypothesis =>
    exact inductionHypothesis.cons span
  | case3 comments followsBrace token span rest inductionHypothesis =>
    exact inductionHypothesis.cons_cons span

theorem increasing_ofPieces {limit : Nat} {pieces : List Piece}
    (increasing : Increasing limit (pieces.map Piece.span)) :
    Increasing limit ((ofPieces pieces).lexemes.map Lexeme.span) :=
  increasing.sublist (sublist_build .atStart false pieces)

end TokenStream

end ProtoSchema
