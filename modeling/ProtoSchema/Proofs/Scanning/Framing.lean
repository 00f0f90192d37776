/-
This file gives the text of a block comment by the lines it is written in. Each
line but the first loses its frame, which is blanks and at most one asterisk, and a
line break of two characters is one of one character. What is read of a comment
drops the frame as soon as a line starts, before it is known where the line ends;
so the frame of a line is shown to be the same whatever follows the line.
-/

import ProtoSchema.Proofs.Scanning.Decided

namespace ProtoSchema

/-! ### Lines -/

/-- A text is a single line, or a line with a line break and a text behind it. -/
theorem line_cases (text : List Char) :
    '\n' ∉ text ∨ ∃ line rest, text = line ++ '\n' :: rest ∧ '\n' ∉ line := by
  by_cases isBreak : '\n' ∈ text
  · exact .inr (List.eq_append_cons_of_mem isBreak)
  · exact .inl isBreak

theorem not_mem_of_mem_splitOn {text : List Char} :
    ∀ line ∈ text.splitOn '\n', '\n' ∉ line := by
  rcases line_cases text with noBreak | ⟨line, rest, rfl, noBreak⟩
  · rw [List.splitOn_eq_singleton noBreak]
    exact List.forall_mem_singleton.mpr noBreak
  · rw [List.splitOn_append_cons_self_of_not_mem noBreak]
    exact List.forall_mem_cons.mpr ⟨noBreak, not_mem_of_mem_splitOn⟩
termination_by text.length
decreasing_by
  subst_vars
  rw [List.length_append, List.length_cons]
  omega

/-- A line without the carriage return at its end. -/
def withoutReturn (line : List Char) : List Char :=
  if line.getLast? = some '\r' then line.dropLast else line

/-- Lines with a line feed between any two of them, in place of a line break of two characters. -/
def joinLines : List (List Char) → List Char
  | [] => []
  | [last] => last
  | line :: next :: others => withoutReturn line ++ '\n' :: joinLines (next :: others)

theorem unifyNewlines_newline (rest : List Char) :
    unifyNewlines ('\n' :: rest) = '\n' :: unifyNewlines rest := by
  cases rest <;> rfl

theorem unifyNewlines_last {line : List Char} (noBreak : '\n' ∉ line) :
    unifyNewlines line = line := by
  fun_induction unifyNewlines line with
  | case1 => rfl
  | case2 => rfl
  | case3 first second rest isBreak =>
    obtain ⟨-, rfl⟩ := isBreak
    exact absurd (List.mem_cons_of_mem _ List.mem_cons_self) noBreak
  | case4 first second rest _ inductionHypothesis =>
    rw [inductionHypothesis fun member => noBreak (List.mem_cons_of_mem _ member)]

theorem unifyNewlines_line {line : List Char} (noBreak : '\n' ∉ line) (rest : List Char) :
    unifyNewlines (line ++ '\n' :: rest) = withoutReturn line ++ '\n' :: unifyNewlines rest := by
  match line with
  | [] => exact unifyNewlines_newline rest
  | [first] =>
    by_cases isReturn : first = '\r'
    · subst isReturn
      rfl
    · simp [unifyNewlines, unifyNewlines_newline, withoutReturn, isReturn]
  | first :: second :: more =>
    have noBreakBehind : '\n' ∉ second :: more := fun member =>
      noBreak (List.mem_cons_of_mem _ member)
    have isNoBreak : second ≠ '\n' := fun isBreak => noBreakBehind (isBreak ▸ List.mem_cons_self)
    have behind := unifyNewlines_line noBreakBehind rest
    rw [List.cons_append] at behind
    have first_withoutReturn :
        withoutReturn (first :: second :: more) = first :: withoutReturn (second :: more) := by
      unfold withoutReturn
      rw [List.getLast?_cons_cons, List.dropLast_cons_cons]
      split <;> rfl
    rw [List.cons_append, List.cons_append, unifyNewlines, if_neg (fun both => isNoBreak both.2),
      behind, first_withoutReturn, List.cons_append]

theorem unifyNewlines_intercalate (lines : List (List Char))
    (noBreak : ∀ line ∈ lines, '\n' ∉ line) :
    unifyNewlines (['\n'].intercalate lines) = joinLines lines := by
  fun_induction joinLines lines with
  | case1 => rfl
  | case2 last =>
    rw [List.intercalate_singleton]
    exact unifyNewlines_last (noBreak last List.mem_cons_self)
  | case3 line next others inductionHypothesis =>
    obtain ⟨here, behind⟩ := List.forall_mem_cons.mp noBreak
    rw [List.intercalate_cons_cons, List.append_assoc, List.singleton_append,
      unifyNewlines_line here, inductionHypothesis behind]

/-! ### Frames -/

/-- The blanks that a frame may start with. -/
def isIndent (character : Char) : Bool := character = ' ' || character = '\t'

/-- A line without the spaces and tabs at its start and without one asterisk behind them, unless the
asterisk starts a closing delimiter. -/
def withoutFrame (line : List Char) : List Char :=
  match line.dropWhile isIndent with
  | '*' :: '/' :: rest => '*' :: '/' :: rest
  | '*' :: rest => rest
  | rest => rest

namespace CommentBody

theorem frameLength_indent {first : Char} (indent : isIndent first = true) (rest : List Char) :
    frameLength (first :: rest) = frameLength rest + 1 := by
  have longer : (first :: rest).takeWhile isIndent = first :: rest.takeWhile isIndent :=
    List.takeWhile_cons_of_pos indent
  unfold isIndent at longer
  unfold frameLength
  rw [longer]
  dsimp only
  rw [List.length_cons, List.drop_succ_cons]
  split <;> rfl

theorem frameLength_asterisk {rest : List Char} (noClosing : rest.head? ≠ some '/') :
    frameLength ('*' :: rest) = 1 := by
  cases rest with
  | nil => rfl
  | cons second more =>
    have noSlash : second ≠ '/' := fun isSlash => noClosing (congrArg some isSlash)
    simp [frameLength, noSlash]

theorem frameLength_text {first : Char} (noIndent : isIndent first = false)
    (noAsterisk : first ≠ '*') (rest : List Char) : frameLength (first :: rest) = 0 := by
  have none : (first :: rest).takeWhile isIndent = [] :=
    List.takeWhile_cons_of_neg (Bool.eq_false_iff.mp noIndent)
  unfold isIndent at none
  unfold frameLength
  rw [none]
  simp [noAsterisk]

/-- A line starts with a blank of its frame, with the asterisk that ends the frame, with a closing
delimiter or with other text. -/
theorem line_start (line : List Char) :
    line = [] ∨ (∃ first rest, line = first :: rest ∧ isIndent first = true) ∨
      (∃ rest, line = '*' :: rest ∧ rest.head? ≠ some '/') ∨
      (∃ rest, line = '*' :: '/' :: rest) ∨
      ∃ first rest, line = first :: rest ∧ isIndent first = false ∧ first ≠ '*' := by
  match line with
  | [] => exact .inl rfl
  | first :: rest =>
    refine .inr ?_
    cases indent : isIndent first with
    | true => exact .inl ⟨first, rest, rfl, indent⟩
    | false =>
      by_cases isAsterisk : first = '*'
      · subst isAsterisk
        by_cases closing : rest.head? = some '/'
        · obtain ⟨more, rfl⟩ := List.head?_eq_some_iff.mp closing
          exact .inr (.inr (.inl ⟨more, rfl⟩))
        · exact .inr (.inl ⟨rest, rfl, closing⟩)
      · exact .inr (.inr (.inr ⟨first, rest, rfl, indent, isAsterisk⟩))

/-- The frame of a line is what is left out of it. -/
theorem withoutFrame_eq_drop (line : List Char) :
    withoutFrame line = line.drop (frameLength line) := by
  rcases line_start line with rfl | ⟨first, rest, rfl, indent⟩ | ⟨rest, rfl, noClosing⟩ |
    ⟨rest, rfl⟩ | ⟨first, rest, rfl, noIndent, noAsterisk⟩
  · rfl
  · have onward := withoutFrame_eq_drop rest
    rw [frameLength_indent indent, List.drop_succ_cons, ← onward, withoutFrame, withoutFrame,
      List.dropWhile_cons_of_pos indent]
  · rw [frameLength_asterisk noClosing]
    cases rest with
    | nil => rfl
    | cons second more =>
      have noSlash : second ≠ '/' := fun isSlash => noClosing (congrArg some isSlash)
      simp [withoutFrame, isIndent, noSlash]
  · rfl
  · rw [frameLength_text noIndent noAsterisk, withoutFrame,
      List.dropWhile_cons_of_neg (Bool.eq_false_iff.mp noIndent)]
    simp [noAsterisk]
termination_by line.length
decreasing_by
  subst_vars
  exact Nat.lt_succ_self _

/-- A closing delimiter is in no frame, and ends it. -/
theorem frameLength_closing (line behind : List Char) :
    frameLength (line ++ '*' :: '/' :: behind) = frameLength line := by
  rcases line_start line with rfl | ⟨first, rest, rfl, indent⟩ | ⟨rest, rfl, noClosing⟩ |
    ⟨rest, rfl⟩ | ⟨first, rest, rfl, noIndent, noAsterisk⟩
  · rfl
  · rw [List.cons_append, frameLength_indent indent, frameLength_indent indent,
      frameLength_closing rest]
  · rw [List.cons_append, frameLength_asterisk noClosing, frameLength_asterisk]
    cases rest with
    | nil => exact (by decide : some '*' ≠ some '/')
    | cons second more => exact noClosing
  · rfl
  · rw [List.cons_append, frameLength_text noIndent noAsterisk,
      frameLength_text noIndent noAsterisk]
termination_by line.length
decreasing_by
  subst_vars
  exact Nat.lt_succ_self _

end CommentBody

/-! ### Texts -/

/-- The lines of a text, all but the first without their frames. -/
def unframedLines (text : List Char) : List (List Char) :=
  match text.splitOn '\n' with
  | [] => []
  | first :: others => first :: others.map withoutFrame

/-- What counts of the text of a comment: its lines without their frames, with a line feed between
any two of them. -/
def commentText (text : List Char) : List Char := joinLines (unframedLines text)

/-- A text whose lines lose their frames, with the line breaks as they are. -/
def unframed (text : List Char) : List Char := ['\n'].intercalate (unframedLines text)

theorem unframedLines_last {line : List Char} (noBreak : '\n' ∉ line) :
    unframedLines line = [line] := by
  rw [unframedLines, List.splitOn_eq_singleton noBreak]
  rfl

theorem unframedLines_line {line : List Char} (noBreak : '\n' ∉ line) (rest : List Char) :
    unframedLines (line ++ '\n' :: rest) = line :: (rest.splitOn '\n').map withoutFrame := by
  rw [unframedLines, List.splitOn_append_cons_self_of_not_mem noBreak]

theorem otherLines_ne_nil (rest : List Char) : (rest.splitOn '\n').map withoutFrame ≠ [] :=
  mt List.map_eq_nil_iff.mp (List.splitOn_ne_nil _ _)

theorem unframed_cons {first : Char} (noBreak : first ≠ '\n') (rest : List Char) :
    unframed (first :: rest) = first :: unframed rest := by
  have longer {line : List Char} (none : '\n' ∉ line) : '\n' ∉ first :: line :=
    List.not_mem_cons_of_ne_of_not_mem noBreak.symm none
  rcases line_cases rest with none | ⟨line, rest, rfl, none⟩
  · rw [unframed, unframed, unframedLines_last none, unframedLines_last (longer none),
      List.intercalate_singleton, List.intercalate_singleton]
  · have others := otherLines_ne_nil rest
    rw [unframed, unframed, ← List.cons_append, unframedLines_line none,
      unframedLines_line (longer none), List.intercalate_cons_of_ne_nil others,
      List.intercalate_cons_of_ne_nil others]
    rfl

theorem unframed_append {front : List Char} (noBreak : '\n' ∉ front) (rest : List Char) :
    unframed (front ++ rest) = front ++ unframed rest := by
  induction front with
  | nil => rfl
  | cons first others inductionHypothesis =>
    obtain ⟨isNoBreak, noBreak⟩ := not_or.mp (mt List.mem_cons.mpr noBreak)
    rw [List.cons_append, unframed_cons (Ne.symm isNoBreak), inductionHypothesis noBreak,
      List.cons_append]

/-- The frame is dropped where a line starts. -/
theorem unframed_newline (rest : List Char) :
    unframed ('\n' :: rest) = '\n' :: unframed (rest.drop (CommentBody.frameLength rest)) := by
  have sameLines : (rest.splitOn '\n').map withoutFrame =
      unframedLines (rest.drop (CommentBody.frameLength rest)) := by
    rcases line_cases rest with none | ⟨line, behind, rfl, none⟩
    · rw [List.splitOn_eq_singleton none, List.map_singleton, CommentBody.withoutFrame_eq_drop,
        unframedLines_last fun member => none (List.mem_of_mem_drop member)]
    · rw [List.splitOn_append_cons_self_of_not_mem none, List.map_cons,
        CommentBody.withoutFrame_eq_drop, CommentBody.frameLength_edge edge_newline,
        List.drop_append_of_le_length (CommentBody.frameLength_le line),
        unframedLines_line fun member => none (List.mem_of_mem_drop member)]
  have split : unframedLines ('\n' :: rest) = [] :: (rest.splitOn '\n').map withoutFrame :=
    unframedLines_line (List.not_mem_nil : '\n' ∉ []) rest
  rw [unframed, split, List.intercalate_cons_of_ne_nil (otherLines_ne_nil rest), sameLines]
  rfl

/-- The text of a comment is what is left of it without the frames, with one character for each line
break. -/
theorem unifyNewlines_unframed (text : List Char) :
    unifyNewlines (unframed text) = commentText text := by
  refine unifyNewlines_intercalate _ ?_
  have within : ∀ line ∈ text.splitOn '\n', '\n' ∉ line := not_mem_of_mem_splitOn
  unfold unframedLines
  cases split : text.splitOn '\n' with
  | nil => exact fun _ member => absurd member List.not_mem_nil
  | cons first others =>
    rw [split] at within
    obtain ⟨here, behind⟩ := List.forall_mem_cons.mp within
    refine List.forall_mem_cons.mpr ⟨here, fun line member => ?_⟩
    obtain ⟨whole, isOther, rfl⟩ := List.mem_map.mp member
    rw [CommentBody.withoutFrame_eq_drop]
    exact fun isBreak => behind whole isOther (List.mem_of_mem_drop isBreak)

example : commentText " a\r\n \t** b\n*/ c\n * ".toList = " a\n* b\n*/ c\n ".toList := by decide

end ProtoSchema
