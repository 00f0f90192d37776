/-
This file says how the comments behind a token are sorted, by the trivia alone.
The first of them trails if it stands on the line of the token. The others form
blocks, each a block comment or as many line comments as follow one another, and
the last block leads unless a blank line stands behind it. So no comment is lost,
told twice or moved. The proof follows the tracker event by event: what it holds
is what the events so far say.
-/

import Mathlib.Data.List.Basic
import ProtoSchema.Comment.Tracker

namespace ProtoSchema

namespace Trivia

/-- The text of a comment; a line break has none. -/
def text? : Trivia → Option String
  | lineComment text | blockComment text => some text
  | newline => none

/-- Whether a comment ends with its line. -/
def isLineComment : Trivia → Bool
  | lineComment _ => true
  | blockComment _ | newline => false

/-- What comes next stands at the start of a line; a line comment holds the line break that ends
it. -/
def endsLine : Trivia → Bool
  | lineComment _ | newline => true
  | blockComment _ => false

/-- The texts of the blocks among some trivia, in order. A run of line comments is one block, and it
goes on for as long as line comments follow. -/
inductive Blocks : List Trivia → List String → Prop where
  | nil : Blocks [] []
  | newline {events : List Trivia} {blocks : List String} (others : Blocks events blocks) :
      Blocks (.newline :: events) blocks
  | blockComment {events : List Trivia} {blocks : List String} (text : String)
      (others : Blocks events blocks) : Blocks (.blockComment text :: events) (text :: blocks)
  | run {events : List Trivia} {blocks : List String} (lines : List String) (some : lines ≠ [])
      (ends : ∀ next ∈ events.head?, next.isLineComment = false) (others : Blocks events blocks) :
      Blocks (lines.map .lineComment ++ events) (String.join lines :: blocks)

/-- Somewhere a line break stands at the start of a line, directly behind what ended one. -/
def HasBlankLine (events : List Trivia) : Prop :=
  ∃ last, last.endsLine = true ∧ [last, .newline] <:+: events

/-- There is a comment, and behind the last one there is no blank line. -/
def EndsNear (events : List Trivia) : Prop :=
  ∃ before comment after, events = before ++ comment :: after ∧ comment.text?.isSome = true ∧
    (∀ event ∈ after, event = .newline) ∧ ¬ HasBlankLine (comment :: after)

end Trivia

/-- The comments among the trivia behind a token are sorted by what they belong to. The first event
is the comment that trails or the line break that keeps any from trailing, so it is in no block. -/
structure Surroundings.Sorts (around : Surroundings) (events : List Trivia) : Prop where
  /-- Each comment is told once, in order. -/
  complete : String.join (around.trailing.toList ++ (around.detached ++ around.leading.toList)) =
    String.join (events.filterMap Trivia.text?)
  /-- The first comment trails if no line break stands before it. -/
  trailing : around.trailing = (events.takeWhile (· ≠ .newline)).findSome? Trivia.text?
  /-- The others form blocks. -/
  blocks : Trivia.Blocks events.tail (around.detached ++ around.leading.toList)
  /-- The last block leads if there is one and no blank line stands behind it. -/
  leading : around.leading.isSome = true ↔ Trivia.EndsNear events.tail

namespace Trivia

variable {events : List Trivia} {blocks : List String}

/-! ### Blocks -/

namespace Blocks

/-- The blocks of one part of the trivia stand before those of the next, unless a run goes on from
one into the other. -/
theorem append {others : List Trivia} {more : List String} (found : Blocks events blocks)
    (next : Blocks others more)
    (apart : (∀ last ∈ events.getLast?, last.isLineComment = false) ∨
      ∀ first ∈ others.head?, first.isLineComment = false) :
    Blocks (events ++ others) (blocks ++ more) := by
  induction found with
  | nil => exact next
  | @newline events blocks _ inductionHypothesis =>
    refine .newline (inductionHypothesis (apart.imp_left fun silent last isLast => ?_))
    exact silent last (List.mem_getLast?_cons isLast)
  | @blockComment events blocks text _ inductionHypothesis =>
    refine .blockComment text (inductionHypothesis (apart.imp_left fun silent last isLast => ?_))
    exact silent last (List.mem_getLast?_cons isLast)
  | @run events blocks lines some ends _ inductionHypothesis =>
    rw [List.append_assoc]
    cases events with
    | nil =>
      -- The run goes up to the end, so that the other part starts with no line comment.
      have last : lines.map lineComment ≠ [] := mt List.map_eq_nil_iff.mp some
      refine .run lines some (apart.resolve_left fun silent => ?_) (inductionHypothesis (.inl ?_))
      · have inRun := silent _ (by rw [List.append_nil]; exact List.getLast?_eq_some_getLast last)
        rw [List.getLast_map] at inRun
        cases inRun
      · exact fun _ none => nomatch none
    | cons first rest =>
      refine .run lines some ends (inductionHypothesis (apart.imp_left fun silent last isLast => ?_))
      refine silent last ?_
      rw [List.getLast?_append, isLast]
      rfl

theorem of_lines (lines : List String) (some : lines ≠ []) :
    Blocks (lines.map .lineComment) [String.join lines] := by
  have alone : Blocks (lines.map .lineComment ++ []) [String.join lines] :=
    .run lines some (fun _ none => nomatch none) .nil
  rwa [List.append_nil] at alone

/-- Blocks are made up of the comments, each once and in order. -/
theorem join_eq (found : Blocks events blocks) :
    String.join blocks = String.join (events.filterMap text?) := by
  induction found with
  | nil => rfl
  | newline _ inductionHypothesis => exact inductionHypothesis
  | blockComment text _ inductionHypothesis =>
    rw [String.join_cons, inductionHypothesis]
    exact String.join_cons.symm
  | @run events blocks lines _ _ _ inductionHypothesis =>
    have texts : (lines.map lineComment).filterMap text? = lines := by
      rw [List.filterMap_map]
      exact List.filterMap_some
    rw [String.join_cons, inductionHypothesis, List.filterMap_append, texts, String.join_append]

end Blocks

/-! ### Blank lines -/

/-- A line break makes a blank line if the event before it ended a line. -/
theorem hasBlankLine_newline :
    HasBlankLine (events ++ [.newline]) ↔
      HasBlankLine events ∨ ∃ last, events.getLast? = some last ∧ last.endsLine = true := by
  have ends (last : Trivia) : [last, .newline] <:+ events ++ [.newline] ↔
      events.getLast? = some last := by
    rw [← List.singleton_suffix_iff_getLast?_eq_some]
    show [last] ++ [.newline] <:+ events ++ [.newline] ↔ [last] <:+ events
    exact List.suffix_append_self_iff
  simp only [HasBlankLine, List.infix_concat_iff, ends, and_or_left, exists_or]
  rw [or_comm]
  simp only [and_comm]

theorem not_endsNear_nil : ¬ EndsNear [] := by
  rintro ⟨before, comment, after, same, -⟩
  exact absurd same (by simp)

/-- A comment stands near if nothing follows it. -/
theorem endsNear_comment {comment : Trivia} (isComment : comment.text?.isSome = true) :
    EndsNear (events ++ [comment]) := by
  refine ⟨events, comment, [], rfl, isComment, List.forall_mem_nil _, ?_⟩
  rintro ⟨last, -, isInfix⟩
  exact absurd isInfix.length_le (by simp)

/-- A line break leaves the last comment near unless it makes a blank line. -/
theorem endsNear_newline :
    EndsNear (events ++ [.newline]) ↔
      EndsNear events ∧ ∀ last ∈ events.getLast?, last.endsLine = false := by
  constructor
  · rintro ⟨before, comment, after, same, isComment, silent, near⟩
    rcases List.eq_nil_or_concat after with rfl | ⟨others, final, rfl⟩
    · obtain ⟨-, isLast⟩ := List.append_inj' same rfl
      rw [← (List.cons.inj isLast).1] at isComment
      cases isComment
    · rw [List.concat_eq_append] at same silent near
      rw [← List.cons_append, ← List.append_assoc] at same
      obtain ⟨rfl, isLast⟩ := List.append_inj' same rfl
      rw [← List.cons_append, ← isLast, hasBlankLine_newline, not_or] at near
      refine ⟨⟨before, comment, others, rfl, isComment, ?_, near.1⟩, fun last isLast => ?_⟩
      · exact fun event member => silent event (List.mem_append_left _ member)
      · rw [List.getLast?_append_cons] at isLast
        exact Bool.eq_false_iff.mpr fun ends => near.2 ⟨last, isLast, ends⟩
  · rintro ⟨⟨before, comment, after, rfl, isComment, silent, near⟩, goesOn⟩
    refine ⟨before, comment, after ++ [.newline], ?_, isComment, ?_, ?_⟩
    · rw [List.append_assoc, List.cons_append]
    · exact List.forall_mem_append.mpr ⟨silent, List.forall_mem_singleton.mpr rfl⟩
    · rw [← List.cons_append, hasBlankLine_newline]
      rintro (blank | ⟨last, isLast, ends⟩)
      · exact near blank
      · rw [List.getLast?_append_cons] at goesOn
        exact Bool.false_ne_true ((goesOn last isLast).symm.trans ends)

end Trivia

/-! ### The tracker -/

namespace Tracker

open Trivia (Blocks EndsNear)

variable {tracker : Tracker} {events : List Trivia}

/-- What the tracker holds is what the events so far say; the first of them is in no block. -/
structure Recounts (tracker : Tracker) (events : List Trivia) : Prop where
  some : events ≠ []
  settled : tracker.awaitsTrailing = false
  trailing : tracker.trailing = events.head?.bind Trivia.text?
  lineStart : ∀ last ∈ events.getLast?, tracker.atLineStart = last.endsLine
  blocks : Blocks events.tail (tracker.detached ++ tracker.leading.toList)
  /-- The last block is a run that may go on. -/
  run : tracker.inLineComments = true → ∃ before lines, lines ≠ [] ∧
    events.tail = before ++ lines.map .lineComment ∧
    (∀ last ∈ before.getLast?, last.isLineComment = false) ∧
    Blocks before tracker.detached ∧ tracker.leading = Option.some (String.join lines)
  noRun : tracker.inLineComments = false →
    ∀ last ∈ events.tail.getLast?, last.isLineComment = false
  leading : tracker.leading.isSome = true ↔ EndsNear events.tail

namespace Recounts

theorem first (event : Trivia) : (afterToken.step event).Recounts [event] where
  some := List.cons_ne_nil _ _
  settled := by cases event <;> rfl
  trailing := by cases event <;> rfl
  lineStart := by
    rintro _ ⟨⟩
    cases event <;> rfl
  blocks := by cases event <;> exact .nil
  run := by cases event <;> exact fun inRun => nomatch inRun
  noRun := fun _ _ none => nomatch none
  leading := by
    cases event <;> exact iff_of_false Bool.false_ne_true Trivia.not_endsNear_nil

theorem mem_getLast? {last : Trivia} (isLast : last ∈ events.tail.getLast?) :
    last ∈ events.getLast? := by
  cases events with
  | nil => cases isLast
  | cons first later => exact List.mem_getLast?_cons isLast

/-- While a run may go on, the next event stands at the start of a line. -/
theorem atLineStart_of_run (recounts : tracker.Recounts events)
    (inRun : tracker.inLineComments = true) : tracker.atLineStart = true := by
  obtain ⟨before, lines, some, same, -⟩ := recounts.run inRun
  have runs : lines.map Trivia.lineComment ≠ [] := mt List.map_eq_nil_iff.mp some
  have isLast : .lineComment (lines.getLast some) ∈ events.tail.getLast? := by
    rw [same, List.getLast?_append, List.getLast?_eq_some_getLast runs, List.getLast_map]
    rfl
  exact recounts.lineStart _ (mem_getLast? isLast)

/-- What has to be shown of the tracker after one more event. -/
theorem later (recounts : tracker.Recounts events) {next : Tracker} {event : Trivia}
    (settled : next.awaitsTrailing = false) (trailing : next.trailing = tracker.trailing)
    (lineStart : next.atLineStart = event.endsLine)
    (blocks : Blocks (events.tail ++ [event]) (next.detached ++ next.leading.toList))
    (run : next.inLineComments = true → ∃ before lines, lines ≠ [] ∧
      events.tail ++ [event] = before ++ lines.map .lineComment ∧
      (∀ last ∈ before.getLast?, last.isLineComment = false) ∧
      Blocks before next.detached ∧ next.leading = Option.some (String.join lines))
    (noRun : next.inLineComments = false → event.isLineComment = false)
    (leading : next.leading.isSome = true ↔ EndsNear (events.tail ++ [event])) :
    next.Recounts (events ++ [event]) := by
  have tail : (events ++ [event]).tail = events.tail ++ [event] :=
    List.tail_append_of_ne_nil recounts.some
  refine ⟨List.append_ne_nil_of_left_ne_nil recounts.some _, settled, ?_, ?_, ?_, ?_, ?_, ?_⟩
  · rw [trailing, recounts.trailing, List.head?_append_of_ne_nil _ recounts.some]
  · rintro last isLast
    rw [List.getLast?_concat] at isLast
    rw [lineStart, Option.some.inj isLast]
  · rwa [tail]
  · rwa [tail]
  · rintro ends last isLast
    rw [tail, List.getLast?_concat] at isLast
    rw [← Option.some.inj isLast]
    exact noRun ends
  · rwa [tail]

theorem newline (recounts : tracker.Recounts events) :
    tracker.newline.Recounts (events ++ [.newline]) := by
  have blocks := recounts.blocks.append (.newline .nil)
    (.inr fun first isFirst => Option.some.inj isFirst ▸ rfl)
  have settled := Bool.eq_false_iff.mp recounts.settled
  cases atStart : tracker.atLineStart with
  | true =>
    have detaches : tracker.newline = { tracker.flush with atLineStart := true } := by
      rw [Tracker.newline, if_neg settled, if_pos atStart]
    rw [detaches]
    refine recounts.later recounts.settled rfl rfl blocks (fun inRun => nomatch inRun)
      (fun _ => rfl) (iff_of_false Bool.false_ne_true fun near => ?_)
    obtain ⟨⟨before, comment, after, same, -⟩, goesOn⟩ := Trivia.endsNear_newline.mp near
    obtain ⟨last, isLast⟩ : ∃ last, last ∈ events.tail.getLast? :=
      Option.isSome_iff_exists.mp (by simp [same])
    have ends := recounts.lineStart last (mem_getLast? isLast)
    rw [goesOn last isLast, atStart] at ends
    cases ends
  | false =>
    have keeps : tracker.newline = { tracker with atLineStart := true } := by
      rw [Tracker.newline, if_neg settled, if_neg (Bool.eq_false_iff.mp atStart)]
    have noRun : tracker.inLineComments ≠ true := fun inRun =>
      Bool.false_ne_true (atStart.symm.trans (recounts.atLineStart_of_run inRun))
    rw [List.append_nil] at blocks
    rw [keeps]
    refine recounts.later recounts.settled rfl rfl blocks (fun inRun => absurd inRun noRun)
      (fun _ => rfl) ?_
    have goesOn : ∀ last ∈ events.tail.getLast?, last.endsLine = false := fun last isLast =>
      (recounts.lineStart last (mem_getLast? isLast)).symm.trans atStart
    rw [Trivia.endsNear_newline, and_iff_left goesOn]
    exact recounts.leading

theorem blockComment (recounts : tracker.Recounts events) (text : String) :
    (tracker.blockComment text).Recounts (events ++ [.blockComment text]) := by
  have starts : tracker.blockComment text =
      { tracker.flush with leading := Option.some text, atLineStart := false } := by
    rw [Tracker.blockComment, if_neg (Bool.eq_false_iff.mp recounts.settled)]
  rw [starts]
  refine recounts.later recounts.settled rfl rfl ?_ (fun inRun => nomatch inRun) (fun _ => rfl)
    (iff_of_true rfl (Trivia.endsNear_comment rfl))
  exact recounts.blocks.append (.blockComment text .nil)
    (.inr fun first isFirst => Option.some.inj isFirst ▸ rfl)

theorem lineComment (recounts : tracker.Recounts events) (text : String) :
    (tracker.lineComment text).Recounts (events ++ [.lineComment text]) := by
  have runs : tracker.lineComment text = { tracker.extendRun text with atLineStart := true } := by
    rw [Tracker.lineComment, if_neg (Bool.eq_false_iff.mp recounts.settled)]
  have near : EndsNear (events.tail ++ [.lineComment text]) := Trivia.endsNear_comment rfl
  rw [runs]
  cases inRun : tracker.inLineComments with
  | true =>
    obtain ⟨before, lines, some, same, apart, found, leads⟩ := recounts.run inRun
    have goesOn : tracker.extendRun text = { tracker with
        leading := Option.some (String.join (lines ++ [text])), inLineComments := true } := by
      rw [extendRun, if_neg (by simp [inRun]), leads]
      simp
    have run : events.tail ++ [.lineComment text] =
        before ++ (lines ++ [text]).map Trivia.lineComment := by
      rw [same, List.map_append, List.append_assoc]
      rfl
    have some : lines ++ [text] ≠ [] := List.append_ne_nil_of_right_ne_nil _ (List.cons_ne_nil _ _)
    rw [goesOn]
    refine recounts.later recounts.settled rfl rfl ?_
      (fun _ => ⟨before, _, some, run, apart, found, rfl⟩) (fun stops => nomatch stops)
      (iff_of_true rfl near)
    rw [run]
    exact found.append (.of_lines _ some) (.inl apart)
  | false =>
    have starts : tracker.extendRun text = { tracker.flush with
        leading := Option.some text, inLineComments := true } := by
      rw [extendRun, inRun]
      cases leads : tracker.leading <;> simp [flush, leads]
    have apart := recounts.noRun inRun
    have single : String.join [text] = text := by
      rw [String.join_cons, String.join_nil, String.append_empty]
    have line := Blocks.of_lines [text] (List.cons_ne_nil _ _)
    rw [single] at line
    rw [starts]
    exact recounts.later recounts.settled rfl rfl (recounts.blocks.append line (.inl apart))
      (fun _ => ⟨events.tail, [text], List.cons_ne_nil _ _, rfl, apart, recounts.blocks,
        congrArg Option.some single.symm⟩)
      (fun stops => nomatch stops) (iff_of_true rfl near)

theorem step (recounts : tracker.Recounts events) (event : Trivia) :
    (tracker.step event).Recounts (events ++ [event]) := by
  cases event with
  | lineComment text => exact recounts.lineComment text
  | blockComment text => exact recounts.blockComment text
  | newline => exact recounts.newline

theorem foldl (recounts : tracker.Recounts events) (later : List Trivia) :
    (later.foldl Tracker.step tracker).Recounts (events ++ later) := by
  induction later generalizing tracker events with
  | nil => rwa [List.append_nil]
  | cons event later inductionHypothesis =>
    rw [List.append_cons]
    exact inductionHypothesis (recounts.step event)

end Recounts

end Tracker

/-- However the trivia behind a token are mixed, its comments are sorted so. -/
theorem comments_sorted (events : List Trivia) :
    (Tracker.afterToken.sort events).Sorts events := by
  cases events with
  | nil => exact ⟨rfl, rfl, .nil, iff_of_false Bool.false_ne_true Trivia.not_endsNear_nil⟩
  | cons first later =>
    have recounts := (Tracker.Recounts.first first).foldl later
    have trailing : (Tracker.afterToken.sort (first :: later)).trailing = first.text? :=
      recounts.trailing
    refine ⟨?_, ?_, recounts.blocks, recounts.leading⟩
    · have blocks := recounts.blocks.join_eq
      rw [String.join_append, trailing, List.filterMap_cons]
      cases found : first.text? with
      | none => exact String.empty_append.trans blocks
      | some text => exact (congrArg (String.join [text] ++ ·) blocks).trans String.join_append.symm
    · rw [trailing]
      cases first <;> rfl

example : Tracker.afterToken.sort
    [.lineComment " a\n", .lineComment " b\n", .lineComment " c\n", .newline, .blockComment " d ",
      .newline] = ⟨some " a\n", [" b\n c\n"], some " d "⟩ := by decide

end ProtoSchema
