/-
This file compares a source with its tokens alone, each put at a place that says
no more than which token it is. What comes of the tokens there is moved to what
comes of the source, only at twice the size: between two tokens that touch there
would be no room otherwise for the places that no token starts at.
-/

import Mathlib.Data.Set.Function
import ProtoSchema.Proofs.Movement.Files
import ProtoSchema.Proofs.Tracking.Files

namespace ProtoSchema

/-! ### Moves -/

/-- Twice the size. -/
def Move.doubled : Move where
  start offset := 2 * offset + 1
  stop offset := 2 * offset + 1
  strict less := by omega

/-- The tokens alone, at places that number them. -/
def Lexeme.numbered (lexemes : List Lexeme) : List Lexeme :=
  lexemes.mapIdx fun index lexeme =>
    ⟨lexeme.token, ⟨index, index + 1⟩, .empty, lexeme.followsBrace⟩

variable {length : Nat} {lexemes : List Lexeme}

theorem Lexeme.increasing_numbered (lexemes : List Lexeme) :
    Increasing lexemes.length ((numbered lexemes).map Lexeme.span) := by
  have places : (numbered lexemes).map Lexeme.span =
      (List.range lexemes.length).map fun index => ⟨index, index + 1⟩ := by
    refine List.ext_getElem (by simp [numbered]) fun index inside _ => ?_
    simp [numbered]
  rw [places]
  constructor
  · refine List.forall_mem_map.mpr fun index member => ?_
    exact ⟨Nat.lt_succ_self index, List.mem_range.mp member⟩
  · exact List.pairwise_map.mpr (List.pairwise_lt_range.imp id)

/-- Tokens stand where all tokens before them have ended. -/
theorem Increasing.stop_le_start (increasing : Increasing length (lexemes.map Lexeme.span))
    {first second : Nat} {lexeme other : Lexeme} (less : first < second)
    (found : lexemes[first]? = some lexeme) (otherFound : lexemes[second]? = some other) :
    lexeme.span.stop ≤ other.span.start := by
  obtain ⟨firstInside, rfl⟩ := List.getElem?_eq_some_iff.mp found
  obtain ⟨secondInside, rfl⟩ := List.getElem?_eq_some_iff.mp otherFound
  have ordered := List.pairwise_iff_getElem.mp increasing.ordered first second
    (by rwa [List.length_map]) (by rwa [List.length_map]) less
  rwa [List.getElem_map, List.getElem_map] at ordered

theorem Increasing.inside (increasing : Increasing length (lexemes.map Lexeme.span))
    {index : Nat} {lexeme : Lexeme} (found : lexemes[index]? = some lexeme) :
    lexeme.span.start < lexeme.span.stop ∧ lexeme.span.stop ≤ length :=
  increasing.each lexeme.span (List.mem_map_of_mem (List.mem_of_getElem? found))

/-- From the number of a token to where it stands in the source, at twice the size. The number after
the last but one is the end of the source. -/
def Move.layout (increasing : Increasing length (lexemes.map Lexeme.span)) : Move where
  start index :=
    match lexemes[index]? with
    | some lexeme => 2 * lexeme.span.start + 1
    | none => 2 * length + (index - lexemes.length)
  stop index :=
    match lexemes[index - 1]? with
    | some lexeme => 2 * lexeme.span.stop + 1
    | none => 2 * length + 1
  strict {first second} less := by
    split
    · next lexeme found =>
      have inside := increasing.inside found
      split
      · next other otherFound =>
        have before := increasing.stop_le_start less found otherFound
        omega
      · omega
    · next none =>
      have past := List.getElem?_eq_none_iff.mp none
      rw [List.getElem?_eq_none_iff.mpr (by omega)]
      dsimp only
      omega

namespace Move

variable (increasing : Increasing length (lexemes.map Lexeme.span))

/-- The end of the source is at the number after the last but one. -/
theorem layout_end :
    (layout increasing).start (lexemes.length + 1) = 2 * length + 1 ∧
      (layout increasing).stop (lexemes.length + 1) = 2 * length + 1 := by
  simp [layout]

/-- Numbered tokens are laid out as in the source. -/
theorem layout_numbered :
    (Lexeme.numbered lexemes).map (Lexeme.moved (layout increasing)) =
      lexemes.map (Lexeme.moved doubled) := by
  refine List.ext_getElem (by simp [Lexeme.numbered]) fun index inside _ => ?_
  have found : index < lexemes.length := by simpa [Lexeme.numbered] using inside
  simp [Lexeme.numbered, Lexeme.moved, Span.moved, layout, doubled, found]

/-- Tokens before another one end before it in the source. -/
theorem layout_stop_lt {first second : Nat} (some : 0 < first) (less : first < second)
    (inside : second ≤ lexemes.length) :
    (layout increasing).stop first < (layout increasing).stop second := by
  obtain ⟨lexeme, found⟩ : ∃ lexeme, lexemes[first - 1]? = Option.some lexeme :=
    ⟨_, List.getElem?_eq_getElem (by omega)⟩
  obtain ⟨other, otherFound⟩ : ∃ other, lexemes[second - 1]? = Option.some other :=
    ⟨_, List.getElem?_eq_getElem (by omega)⟩
  have before := increasing.stop_le_start (by omega) found otherFound
  have otherInside := increasing.inside otherFound
  simp only [layout, found, otherFound]
  omega

/-- The layout tells spans of tokens apart. -/
theorem layout_injective :
    Set.InjOn (Span.moved (layout increasing)) {span | span.Before lexemes.length} := by
  rintro ⟨start, stop⟩ ⟨some, inside⟩ ⟨otherStart, otherStop⟩ ⟨otherSome, otherInside⟩ same
  obtain ⟨sameStart, sameStop⟩ := Span.mk.inj same
  obtain rfl := start_injective sameStart
  dsimp only at some inside otherSome otherInside sameStop
  rcases Nat.lt_trichotomy stop otherStop with less | rfl | greater
  · have less := layout_stop_lt increasing (by omega) less otherInside
    omega
  · rfl
  · have greater := layout_stop_lt increasing (by omega) greater inside
    omega

end Move

/-! ### Parsing -/

/-- What comes of the tokens of a source at the places that number them. -/
def numberedOutcome (lexemes : List Lexeme) : Outcome File :=
  Parser.file ⟨none, lexemes.length + 1, .empty⟩ (Lexeme.numbered lexemes)

theorem numberedOutcome_congr {others : List Lexeme}
    (same : Lexeme.numbered lexemes = Lexeme.numbered others) :
    numberedOutcome lexemes = numberedOutcome others := by
  have lengths : lexemes.length = others.length := by
    simpa [Lexeme.numbered] using congrArg List.length same
  rw [numberedOutcome, numberedOutcome, same, lengths]

/-- What comes of a source is what comes of its tokens alone, laid out as they are in the source. -/
theorem moved_file (increasing : Increasing length (lexemes.map Lexeme.span))
    (atEnd : Surroundings) :
    (Parser.file ⟨none, length, atEnd⟩ lexemes).moved .doubled (File.moved Move.doubled) =
      (numberedOutcome lexemes).moved (.layout increasing) (File.moved (Move.layout increasing)) := by
  obtain ⟨doubled, -⟩ := Parser.moves_file .doubled ⟨none, length, atEnd⟩ lexemes rfl
  obtain ⟨startEnd, stopEnd⟩ := Move.layout_end increasing
  obtain ⟨laidOut, -⟩ := Parser.moves_file (.layout increasing)
    ⟨none, lexemes.length + 1, .empty⟩ (Lexeme.numbered lexemes) (stopEnd.trans startEnd.symm)
  rw [numberedOutcome, ← doubled, ← laidOut, Move.layout_numbered, Setting.moved, Setting.moved,
    startEnd]
  rfl

/-- The broken rules that are found among numbered tokens point at tokens. -/
theorem passed_numberedOutcome (lexemes : List Lexeme) :
    PassedFaults lexemes.length (numberedOutcome lexemes).broken := by
  have tracks : (numberedOutcome lexemes).Tracks _ _ _ _ _ :=
    Parser.tracks_file (Lexeme.increasing_numbered lexemes)
      ⟨none, lexemes.length + 1, .empty⟩ (Nat.le_succ _)
  exact tracks.broken_passed

end ProtoSchema
