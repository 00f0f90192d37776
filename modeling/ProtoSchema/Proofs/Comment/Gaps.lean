/-
This file says which comments of a source make up the texts that are sorted in a
gap between two tokens. Each comment in the gap goes into one text and no text
has another part, so that the texts, those that trail first and the one that leads
last, are made up of the comments of the gap in their order. The argument follows
the tracker: a comment may only trail while there is no comment before it, and a
run that is extended is made up of line comments alone.
-/

import Mathlib.Data.List.Forall2
import Mathlib.Tactic.SplitIfs
import ProtoSchema.Proofs.Scanning.Order

namespace ProtoSchema

/-! ### Texts of comments -/

namespace Piece

/-- A line comment that stands at a place. -/
def lineComment (text : String) (span : Span) : Piece := ⟨.trivia (.lineComment text), span⟩

/-- A block comment that stands at a place. -/
def blockComment (text : String) (span : Span) : Piece := ⟨.trivia (.blockComment text), span⟩

/-- Whether a piece is a comment of either kind. -/
def isComment (piece : Piece) : Bool :=
  match piece.element with
  | .trivia (.lineComment _) | .trivia (.blockComment _) => true
  | _ => false

end Piece

/-- Line comments, one or more, with their texts one after another. -/
inductive LineRun : List Piece → String → Prop where
  | single (text : String) (span : Span) : LineRun [.lineComment text span] text
  | extend {comments : List Piece} {text : String} (run : LineRun comments text) (more : String)
      (span : Span) : LineRun (comments ++ [.lineComment more span]) (text ++ more)

/-- The text of a block is that of a block comment, or those of a run of line comments. -/
def MakesUp (comments : List Piece) (text : String) : Prop :=
  (∃ span, comments = [.blockComment text span]) ∨ LineRun comments text

/-- Where there is no text there are no comments. -/
def MakesUpAny (comments : List Piece) : Option String → Prop
  | none => comments = []
  | some text => MakesUp comments text

/-! ### Gaps -/

/-- The comments between two tokens, by the texts that they are part of. -/
structure Gap where
  trailing : List Piece
  detached : List (List Piece)
  leading : List Piece

namespace Gap

/-- The comments that belong to the declaration behind the gap. -/
def ahead (gap : Gap) : List Piece := gap.detached.flatten ++ gap.leading

/-- All comments in the gap. -/
def comments (gap : Gap) : List Piece := gap.trailing ++ gap.ahead

/-- The comments make up what was sorted. -/
structure Explains (gap : Gap) (around : Surroundings) : Prop where
  trailing : MakesUpAny gap.trailing around.trailing
  detached : List.Forall₂ MakesUp gap.detached around.detached
  leading : MakesUpAny gap.leading around.leading

/-- A gap without comments. -/
def empty : Gap := ⟨[], [], []⟩

end Gap

/-- The comments seen so far make up what the tracker has sorted. -/
structure Tracker.Reads (tracker : Tracker) (gap : Gap) : Prop where
  explains : gap.Explains tracker.surroundings
  fresh : tracker.awaitsTrailing = true → gap.comments = []
  run : tracker.inLineComments = true →
    ∀ text, tracker.leading = some text → LineRun gap.leading text

namespace Tracker

variable {tracker : Tracker} {gap : Gap}

theorem reads_empty (empty : tracker.surroundings = ⟨none, [], none⟩)
    (noRun : tracker.inLineComments = false) : tracker.Reads .empty where
  explains := by
    rw [empty]
    exact ⟨rfl, .nil, rfl⟩
  fresh := fun _ => rfl
  run := fun inRun => absurd (inRun.symm.trans noRun) Bool.noConfusion

namespace Reads

/-- The block that would have led is detached, with the same comments in the same order. -/
theorem flush (reads : tracker.Reads gap) :
    ∃ next, tracker.flush.Reads next ∧ next.comments = gap.comments ∧ next.leading = [] := by
  obtain ⟨⟨trailing, detached, leading⟩, fresh, -⟩ := reads
  cases found : tracker.leading with
  | none =>
    rw [surroundings, found] at leading
    have noLeading : gap.leading = [] := leading
    refine ⟨gap, ⟨⟨trailing, ?_, noLeading⟩, fresh, fun inRun => nomatch inRun⟩, rfl, noLeading⟩
    rw [surroundings, Tracker.flush, found, Option.toList_none, List.append_nil]
    exact detached
  | some text =>
    rw [surroundings, found] at leading
    have same : (⟨gap.trailing, gap.detached ++ [gap.leading], []⟩ : Gap).comments =
        gap.comments := by
      simp [Gap.comments, Gap.ahead]
    refine ⟨⟨gap.trailing, gap.detached ++ [gap.leading], []⟩,
      ⟨⟨trailing, ?_, rfl⟩, fun awaits => same.trans (fresh awaits), fun inRun => nomatch inRun⟩,
      same, rfl⟩
    rw [surroundings, Tracker.flush, found, Option.toList_some]
    exact List.rel_append detached (.cons leading .nil)

/-- The first comment after a token trails. -/
theorem trail (reads : tracker.Reads gap) (awaits : tracker.awaitsTrailing = true) {text : String}
    {piece : Piece} (makes : MakesUp [piece] text) :
    ∃ next, (tracker.trail text).Reads next ∧ next.comments = gap.comments ++ [piece] := by
  have nothing := reads.fresh awaits
  have ahead : gap.ahead = [] := (List.append_eq_nil_iff.mp nothing).2
  refine ⟨{ gap with trailing := [piece] }, ⟨⟨makes, reads.explains.detached,
    reads.explains.leading⟩, fun awaits => (nomatch awaits), reads.run⟩, ?_⟩
  have same : ({ gap with trailing := [piece] } : Gap).ahead = gap.ahead := rfl
  rw [nothing, Gap.comments, same, ahead]
  rfl

/-- A block comment is a block of its own. -/
theorem blockComment (reads : tracker.Reads gap) (text : String) (span : Span) :
    ∃ next, (tracker.blockComment text).Reads next ∧
      next.comments = gap.comments ++ [.blockComment text span] := by
  have makes : MakesUp [.blockComment text span] text := .inl ⟨span, rfl⟩
  cases awaits : tracker.awaitsTrailing with
  | true =>
    obtain ⟨next, trailed, same⟩ := reads.trail awaits makes
    rw [Tracker.blockComment, if_pos awaits]
    exact ⟨next, ⟨trailed.explains, trailed.fresh, trailed.run⟩, same⟩
  | false =>
    obtain ⟨flushed, flushedReads, same, noLeading⟩ := reads.flush
    rw [Tracker.blockComment, awaits, if_neg Bool.false_ne_true]
    refine ⟨{ flushed with leading := [.blockComment text span] },
      ⟨⟨flushedReads.explains.trailing, flushedReads.explains.detached, makes⟩,
        fun stillAwaits => ?_, fun inRun => (nomatch inRun)⟩, ?_⟩
    · exact absurd (awaits.symm.trans stillAwaits) Bool.noConfusion
    · rw [← same]
      simp [Gap.comments, Gap.ahead, noLeading]

/-- A line comment starts a run if no block leads, or extends the run that does. -/
theorem extend (reads : tracker.Reads gap) (awaits : tracker.awaitsTrailing = false)
    (goesOn : tracker.leading = none ∨ tracker.inLineComments = true) (text : String)
    (span : Span) :
    ∃ next, { tracker with
        leading := some (tracker.leading.getD "" ++ text), inLineComments := true }.Reads next ∧
      next.comments = gap.comments ++ [.lineComment text span] := by
  have run : LineRun (gap.leading ++ [.lineComment text span])
      (tracker.leading.getD "" ++ text) := by
    cases found : tracker.leading with
    | none =>
      have leading := reads.explains.leading
      rw [surroundings, found] at leading
      have noLeading : gap.leading = [] := leading
      rw [noLeading, Option.getD_none, String.empty_append]
      exact .single text span
    | some first =>
      have inRun := goesOn.resolve_left (by rw [found]; exact Option.some_ne_none first)
      exact .extend (reads.run inRun first found) text span
  refine ⟨{ gap with leading := gap.leading ++ [.lineComment text span] },
    ⟨⟨reads.explains.trailing, reads.explains.detached, .inr run⟩, fun stillAwaits => ?_,
      fun _ other same => ?_⟩, ?_⟩
  · exact absurd (awaits.symm.trans stillAwaits) Bool.noConfusion
  · rw [← Option.some.inj same]
    exact run
  · simp [Gap.comments, Gap.ahead]

theorem lineComment (reads : tracker.Reads gap) (text : String) (span : Span) :
    ∃ next, (tracker.lineComment text).Reads next ∧
      next.comments = gap.comments ++ [.lineComment text span] := by
  cases awaits : tracker.awaitsTrailing with
  | true =>
    obtain ⟨next, trailed, same⟩ := reads.trail awaits (.inr (.single text span))
    rw [Tracker.lineComment, if_pos awaits]
    exact ⟨next, ⟨trailed.explains, trailed.fresh, trailed.run⟩, same⟩
  | false =>
    rw [Tracker.lineComment, awaits, if_neg Bool.false_ne_true, extendRun]
    cases flushes : tracker.leading.isSome && !tracker.inLineComments with
    | true =>
      obtain ⟨flushed, flushedReads, sameFlushed, -⟩ := reads.flush
      obtain ⟨next, extended, same⟩ := flushedReads.extend awaits (.inl rfl) text span
      rw [if_pos rfl]
      exact ⟨next, ⟨extended.explains, extended.fresh, extended.run⟩, by rw [same, sameFlushed]⟩
    | false =>
      have goesOn : tracker.leading = none ∨ tracker.inLineComments = true := by
        cases found : tracker.leading with
        | none => exact .inl rfl
        | some first =>
          rw [found] at flushes
          exact .inr (by simpa using flushes)
      obtain ⟨next, extended, same⟩ := reads.extend awaits goesOn text span
      rw [if_neg Bool.false_ne_true]
      exact ⟨next, ⟨extended.explains, extended.fresh, extended.run⟩, same⟩

theorem newline (reads : tracker.Reads gap) :
    ∃ next, tracker.newline.Reads next ∧ next.comments = gap.comments := by
  rw [Tracker.newline]
  split_ifs
  · exact ⟨gap, ⟨reads.explains, fun awaits => (nomatch awaits), reads.run⟩, rfl⟩
  · obtain ⟨next, flushed, same, -⟩ := reads.flush
    exact ⟨next, ⟨flushed.explains, flushed.fresh, flushed.run⟩, same⟩
  · exact ⟨gap, ⟨reads.explains, reads.fresh, reads.run⟩, rfl⟩

/-- Every comment goes into one of the texts, behind the comments before it. -/
theorem step (reads : tracker.Reads gap) (trivia : Trivia) (span : Span) :
    ∃ next, (tracker.step trivia).Reads next ∧
      next.comments = gap.comments ++ [⟨.trivia trivia, span⟩].filter Piece.isComment := by
  cases trivia with
  | lineComment text => exact reads.lineComment text span
  | blockComment text => exact reads.blockComment text span
  | newline =>
    obtain ⟨next, read, same⟩ := reads.newline
    exact ⟨next, read, same.trans (List.append_nil _).symm⟩

end Reads

end Tracker

/-! ### Streams -/

/-- The comments among the pieces of a source in the gaps before some tokens and after the last of
them: each gap explains what was sorted there, and stands between the tokens around it. -/
inductive Glossed (pieces : List Piece) (atEnd : Surroundings) : List Lexeme → List Gap → Prop where
  | last {gap : Gap} (explains : gap.Explains atEnd) : Glossed pieces atEnd [] [gap]
  | before {gap : Gap} {gaps : List Gap} {lexeme : Lexeme} {rest : List Lexeme}
      (explains : gap.Explains lexeme.before)
      (token : ⟨.token lexeme.token, lexeme.span⟩ ∈ pieces)
      (ahead : ∀ comment ∈ gap.comments, comment.span.stop ≤ lexeme.span.start)
      (behind : ∀ comment ∈ gaps.flatMap Gap.comments, lexeme.span.stop ≤ comment.span.start)
      (glossed : Glossed pieces atEnd rest gaps) :
      Glossed pieces atEnd (lexeme :: rest) (gap :: gaps)

/-- The comments of a source stand in the gaps of its tokens, each in one, in their order. -/
theorem Glossed.build {pieces : List Piece} {tracker : Tracker} {gap : Gap}
    (follows : Bool) {left : List Piece} (reads : tracker.Reads gap) (among : left ⊆ pieces)
    (inOrder : (gap.comments ++ left).Pairwise fun first second =>
      first.span.stop ≤ second.span.start) :
    ∃ gaps, Glossed pieces (TokenStream.build tracker follows left).atEnd
        (TokenStream.build tracker follows left).lexemes gaps ∧
      gaps.flatMap Gap.comments = gap.comments ++ left.filter Piece.isComment := by
  fun_induction TokenStream.build tracker follows left generalizing gap with
  | case1 tracker follows => exact ⟨[gap], .last reads.explains, by simp⟩
  | case2 tracker follows trivia span left inductionHypothesis =>
    obtain ⟨next, nextReads, same⟩ := reads.step trivia span
    have fewer : (next.comments ++ left).Sublist
        (gap.comments ++ ⟨.trivia trivia, span⟩ :: left) := by
      rw [same, List.append_assoc]
      exact (List.filter_sublist.append_right left).append_left gap.comments
    obtain ⟨gaps, glossed, whole⟩ := inductionHypothesis nextReads
      (fun piece member => among (List.mem_cons_of_mem _ member)) (inOrder.sublist fewer)
    refine ⟨gaps, glossed, ?_⟩
    rw [whole, same, List.append_assoc, ← List.filter_append, List.singleton_append]
  | case3 tracker follows token span left inductionHypothesis =>
    obtain ⟨-, behind, across⟩ := List.pairwise_append.mp inOrder
    obtain ⟨gaps, glossed, whole⟩ := inductionHypothesis
      (Tracker.reads_empty rfl rfl : Tracker.afterToken.Reads .empty)
      (fun piece member => among (List.mem_cons_of_mem _ member)) (List.pairwise_cons.mp behind).2
    refine ⟨gap :: gaps, .before reads.explains (among List.mem_cons_self)
      (fun comment member => across comment member _ List.mem_cons_self)
      (fun comment member => ?_) glossed, ?_⟩
    · rw [whole] at member
      exact (List.pairwise_cons.mp behind).1 comment (List.mem_filter.mp member).1
    · rw [List.flatMap_cons, whole]
      rfl

/-- The comments of a source, in the gaps of the tokens that the grammar is given. -/
theorem exists_glossed {source : List Char} {pieces : List Piece}
    (scanned : scan source = .pieces pieces) :
    ∃ gaps, Glossed pieces (TokenStream.ofPieces pieces).atEnd
        (TokenStream.ofPieces pieces).lexemes gaps ∧
      gaps.flatMap Gap.comments = pieces.filter Piece.isComment := by
  have inOrder := List.pairwise_map.mp (increasing_of_scan scanned).ordered
  exact Glossed.build false (Tracker.reads_empty rfl rfl : Tracker.atStart.Reads .empty)
    (List.Subset.refl _) inOrder

end ProtoSchema
