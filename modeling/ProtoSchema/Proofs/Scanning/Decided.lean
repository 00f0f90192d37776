/-
This file shows that an edge decides what stands at the front of a text. A word, a
number or a symbol ends before the edge. A literal or a comment either is finished
before the edge, whatever stands behind it, or it is not finished at the end of the
text either and goes on past the edge.
-/

import ProtoSchema.Proofs.Scanning.Edge

namespace ProtoSchema

variable {mark : Char} {front back : List Char}

/-! ### Literals and comments -/

/-- What is read of a text is finished within it, and then the same is read if an edge and anything
else follow the text; or it is not finished, and then it takes up any edge that follows. -/
def Decided {Body : Type} (length : Body → Nat) (Unfinished : Body → Prop)
    (read : List Char → Body) (mark : Char) (front : List Char) : Prop :=
  (length (read front) ≤ front.length ∧ ∀ rear, read (front ++ mark :: rear) = read front) ∨
    (Unfinished (read front) ∧ ∀ rear, front.length < length (read (front ++ mark :: rear)))

/-- It is decided how a text is read if the first characters are read alike and it is decided how
the text behind them is read. -/
theorem Decided.step {Body : Type} {length : Body → Nat} {Unfinished : Body → Prop}
    {whole rest : List Char → Body} (change : Body → Body) (count : Nat)
    (longer : ∀ body, length (change body) = count + length body)
    (keeps : ∀ body, Unfinished body → Unfinished (change body)) (inside : count ≤ front.length)
    (here : whole front = change (rest (front.drop count)))
    (step : ∀ rear,
      whole (front ++ mark :: rear) = change (rest ((front ++ mark :: rear).drop count)))
    (decided : Decided length Unfinished rest mark (front.drop count)) :
    Decided length Unfinished whole mark front := by
  have behind (rear : List Char) :
      whole (front ++ mark :: rear) = change (rest (front.drop count ++ mark :: rear)) := by
    rw [step, List.drop_append_of_le_length inside]
  have total : count + (front.drop count).length = front.length := by
    rw [List.length_drop]
    omega
  rcases decided with ⟨within, same⟩ | ⟨unfinished, beyond⟩
  · refine .inl ⟨?_, fun rear => ?_⟩
    · rw [here, longer, ← total]
      exact Nat.add_le_add_left within count
    · rw [behind, same, here]
  · refine .inr ⟨?_, fun rear => ?_⟩
    · rw [here]
      exact keeps _ unfinished
    · rw [behind, longer, ← total]
      exact Nat.add_lt_add_left (beyond rear) count

namespace StringBody

theorem length_read_pos (opening offset : Nat) (quote first : Char) (rest : List Char) :
    0 < (read opening quote offset (first :: rest)).length := by
  rw [read]
  split_ifs
  · exact Nat.one_pos
  · exact Nat.one_pos
  · exact Nat.lt_add_right _ Nat.one_pos
  · split
    · exact Nat.lt_add_right _ Nat.one_pos
    · dsimp only
      split <;> exact Nat.lt_add_right _ (Nat.succ_pos _)
  · exact Nat.lt_add_right _ Nat.one_pos

theorem faults_reject_ne_nil (cause : LexicalCause) (span : Span) (count : Nat)
    (body : StringBody) : (body.reject cause span count).faults ≠ [] := by
  unfold reject
  dsimp only
  split
  · exact List.cons_ne_nil _ _
  · split <;> exact List.cons_ne_nil _ _

/-- A literal ends before an edge, or it is at fault. -/
theorem read_edge (edge : Edge mark) (opening offset : Nat) (quote : Char) (front : List Char) :
    Decided length (·.faults ≠ []) (read opening quote offset) mark front := by
  fun_induction read opening quote offset front with
  | case1 offset =>
    refine .inr ⟨?_, fun rear => length_read_pos opening offset quote mark rear⟩
    rw [read]
    exact List.cons_ne_nil _ _
  | case2 offset rest =>
    have whole (rear : List Char) : read opening quote offset (quote :: rear) = closing 1 := by
      rw [read, if_pos rfl]
    exact .inl ⟨whole rest ▸ Nat.succ_pos _, fun rear => (whole _).trans (whole rest).symm⟩
  | case3 offset rest notQuote =>
    have whole (rear : List Char) : read opening quote offset ('\n' :: rear) =
        ⟨[], 1, [⟨.unterminatedString, ⟨opening, offset⟩⟩]⟩ := by
      rw [read, if_neg notQuote, if_pos rfl]
    exact .inl ⟨whole rest ▸ Nat.succ_pos _, fun rear => (whole _).trans (whole rest).symm⟩
  | case4 offset rest notQuote notBreak inductionHypothesis =>
    have whole (rear : List Char) : read opening quote offset ('\x00' :: rear) =
        (read opening quote (offset + 1) rear).reject .badStringCharacters
          ⟨offset, offset + 1⟩ 1 := by
      rw [read, if_neg notQuote, if_neg notBreak, if_pos rfl]
    exact .step (reject .badStringCharacters ⟨offset, offset + 1⟩ 1) 1 (fun _ => rfl)
      (fun _ _ => faults_reject_ne_nil _ _ _ _) (Nat.succ_pos _) (whole rest) (fun rear => whole _)
      inductionHypothesis
  | case5 offset rest noEscape notQuote notBreak notNul inductionHypothesis =>
    have whole (rear : List Char) (none : Escape.read? rear = none) :
        read opening quote offset ('\\' :: rear) =
          (read opening quote (offset + 1) rear).reject .badStringEscape ⟨offset, offset + 1⟩ 1 := by
      rw [read, if_neg notQuote, if_neg notBreak, if_neg notNul, if_pos rfl, none]
    exact .step (reject .badStringEscape ⟨offset, offset + 1⟩ 1) 1 (fun _ => rfl)
      (fun _ _ => faults_reject_ne_nil _ _ _ _) (Nat.succ_pos _) (whole rest noEscape) (fun rear =>
        whole _ ((Escape.read?_edge edge).trans noEscape)) inductionHypothesis
  | case6 offset rest escape isEscape count body bytes isValue notQuote notBreak notNul
      inductionHypothesis =>
    have whole (rear : List Char) (some : Escape.read? rear = some escape) :
        read opening quote offset ('\\' :: rear) =
          (read opening quote (offset + count) (rear.drop escape.length)).prepend count bytes := by
      rw [read, if_neg notQuote, if_neg notBreak, if_neg notNul, if_pos rfl, some]
      simp only [isValue, count]
    exact .step (prepend count bytes) count (fun _ => rfl) (fun _ => id)
      (Nat.succ_le_succ (Escape.length_read?_le isEscape)) (whole rest isEscape)
      (fun rear => whole _ ((Escape.read?_edge edge).trans isEscape)) inductionHypothesis
  | case7 offset rest escape isEscape count body noValue notQuote notBreak notNul
      inductionHypothesis =>
    have whole (rear : List Char) (some : Escape.read? rear = some escape) :
        read opening quote offset ('\\' :: rear) =
          (read opening quote (offset + count) (rear.drop escape.length)).reject .badStringEscape
            ⟨offset, offset + count⟩ count := by
      rw [read, if_neg notQuote, if_neg notBreak, if_neg notNul, if_pos rfl, some]
      simp only [noValue, count]
    exact .step (reject .badStringEscape ⟨offset, offset + count⟩ count) count (fun _ => rfl)
      (fun _ _ => faults_reject_ne_nil _ _ _ _) (Nat.succ_le_succ (Escape.length_read?_le isEscape))
      (whole rest isEscape) (fun rear => whole _ ((Escape.read?_edge edge).trans isEscape))
      inductionHypothesis
  | case8 offset first rest notQuote notBreak notNul notEscape inductionHypothesis =>
    have whole (rear : List Char) : read opening quote offset (first :: rear) =
        (read opening quote (offset + first.utf8Size) rear).prepend 1
          (String.utf8EncodeChar first) := by
      rw [read, if_neg notQuote, if_neg notBreak, if_neg notNul, if_neg notEscape]
    exact .step (prepend 1 (String.utf8EncodeChar first)) 1 (fun _ => rfl) (fun _ => id)
      (Nat.succ_pos _) (whole rest) (fun rear => whole _) inductionHypothesis

end StringBody

namespace CommentBody

/-- The frame of a line ends at an edge. -/
theorem frameLength_edge (edge : Edge mark) :
    frameLength (front ++ mark :: back) = frameLength front := by
  have space : mark ≠ ' ' ∧ mark ≠ '\t' := by
    constructor <;> rintro rfl <;> exact absurd edge.blank (by decide)
  have noStar : mark ≠ '*' := edge.ne (by decide)
  have noSlash : mark ≠ '/' := edge.ne (by decide)
  unfold frameLength
  rw [takeWhile_edge (by simp [space])]
  dsimp only
  rw [drop_takeWhile_edge]
  generalize front.drop _ = line
  match line with
  | [] => simp [noStar]
  | [first] =>
    by_cases isAsterisk : first = '*'
    · subst isAsterisk
      simp [noSlash]
    · simp [isAsterisk]
  | first :: second :: rest =>
    by_cases isAsterisk : first = '*'
    · subst isAsterisk
      by_cases isSlash : second = '/'
      · subst isSlash
        rfl
      · simp [isSlash]
    · simp [isAsterisk]

theorem frameLength_le (line : List Char) : frameLength line ≤ line.length := by
  have blanks := (@List.takeWhile_prefix _ line fun character =>
    character = ' ' || character = '\t').length_le
  unfold frameLength
  dsimp only
  split
  · exact blanks
  · next same =>
    have more := congrArg List.length same
    rw [List.length_drop, List.length_cons] at more
    omega
  · exact blanks

theorem length_read_pos (depth : UInt32) (first : Char) (rest : List Char) :
    0 < (read depth (first :: rest)).length := by
  unfold read
  split
  · next same => cases same
  · dsimp only
    split <;> exact Nat.lt_add_right _ (by omega)
  · exact Nat.lt_add_right _ (by omega)
  · exact Nat.lt_add_right _ (by omega)
  · exact Nat.lt_add_right _ Nat.one_pos

/-- A comment ends before an edge, or it is not closed. -/
theorem read_edge (edge : Edge mark) (depth : UInt32) (front : List Char) :
    Decided length (·.closed = false) (read depth) mark front := by
  have noStar : mark ≠ '*' := edge.ne (by decide)
  have noSlash : mark ≠ '/' := edge.ne (by decide)
  fun_induction read depth front with
  | case1 depth =>
    refine .inr ⟨?_, fun rear => length_read_pos depth mark rear⟩
    rw [read]
  | case2 depth rest blanks last =>
    have whole (rear : List Char) (same : rear.takeWhile isBlank = blanks) :
        read depth ('*' :: '/' :: rear) = ⟨[], 2 + blanks.length, true⟩ := by
      rw [read, same, if_pos last]
    have here := whole rest rfl
    refine .inl ⟨?_, fun rear => (whole _ (takeWhile_edge edge.blank)).trans here.symm⟩
    have fits : blanks.length ≤ rest.length := (List.takeWhile_prefix _).length_le
    rw [here, List.length_cons, List.length_cons]
    dsimp only
    omega
  | case3 depth rest blanks more inductionHypothesis =>
    have whole (rear : List Char) (same : rear.takeWhile isBlank = blanks) :
        read depth ('*' :: '/' :: rear) =
          (read (depth - 1) (rear.drop blanks.length)).prepend (blanks.length + 2)
            ('*' :: '/' :: blanks) := by
      rw [read, same, if_neg more, Nat.add_comm 2]
    exact .step (prepend (blanks.length + 2) ('*' :: '/' :: blanks)) (blanks.length + 2)
      (fun _ => rfl) (fun _ => id) (Nat.add_le_add_right (List.takeWhile_prefix _).length_le 2)
      (whole rest rfl) (fun rear => whole _ (takeWhile_edge edge.blank)) inductionHypothesis
  | case4 depth rest inductionHypothesis =>
    have whole (rear : List Char) : read depth ('/' :: '*' :: rear) =
        (read (depth + 1) rear).prepend 2 ['/', '*'] := by
      rw [read]
    exact .step (prepend 2 ['/', '*']) 2 (fun _ => rfl) (fun _ => id) (Nat.le_add_left 2 _)
      (whole rest) (fun rear => whole _) inductionHypothesis
  | case5 depth rest frame inductionHypothesis =>
    have whole (rear : List Char) (same : frameLength rear = frame) :
        read depth ('\n' :: rear) = (read depth (rear.drop frame)).prepend (frame + 1) ['\n'] := by
      rw [read, same, Nat.add_comm 1]
    exact .step (prepend (frame + 1) ['\n']) (frame + 1) (fun _ => rfl) (fun _ => id)
      (Nat.succ_le_succ (frameLength_le rest)) (whole rest rfl)
      (fun rear => whole _ (frameLength_edge edge)) inductionHypothesis
  | case6 depth first rest notClosing notOpening notBreak inductionHypothesis =>
    refine .step (prepend 1 [first]) 1 (fun _ => rfl) (fun _ => id) (Nat.succ_pos _) ?_
      (fun rear => ?_) inductionHypothesis
    · rw [read]
      · rfl
      · exact notClosing
      · exact notOpening
      · exact notBreak
    · rw [List.cons_append, read]
      · rfl
      · intro following isAsterisk same
        obtain ⟨more, split⟩ := exists_cons_of_edge noSlash same
        exact notClosing more isAsterisk split
      · intro following isSlash same
        obtain ⟨more, split⟩ := exists_cons_of_edge noStar same
        exact notOpening more isSlash split
      · exact notBreak

end CommentBody

/-! ### Fronts -/

namespace Front

/-- The faults that are found in the front of a text. -/
def faults : Front → List LexicalFault
  | blank | unknown => []
  | element _ _ faults => faults

theorem length_string (offset : Nat) (quote : Char) (rest : List Char) :
    (string offset quote rest).length =
      1 + (StringBody.read offset quote (offset + 1) rest).length := rfl

theorem length_blockComment (offset : Nat) (rest : List Char) :
    (blockComment offset rest).length = 2 + (CommentBody.read 1 rest).length := rfl

theorem takeWhile_line {line : List Char} (noBreak : '\n' ∉ line) (rear : List Char) :
    (line ++ rear).takeWhile (· ≠ '\n') = line ++ rear.takeWhile (· ≠ '\n') :=
  List.takeWhile_append_of_pos fun _ member =>
    decide_eq_true fun same => noBreak (same ▸ member)

/-- A line comment ends with its line break. -/
theorem lineComment_line {line : List Char} (noBreak : '\n' ∉ line) (rear : List Char) :
    lineComment (line ++ '\n' :: rear) =
      element (.trivia (.lineComment (String.ofList (unifyNewlines (line ++ ['\n'])))))
        (line.length + 3) [] := by
  have taken : (line ++ '\n' :: rear).take (line.length + 1) = line ++ ['\n'] := by
    rw [List.take_length_add_append, List.take_succ_cons, List.take_zero]
  unfold lineComment
  rw [takeWhile_line noBreak, List.takeWhile_cons_of_neg (by simp), List.append_nil]
  dsimp only
  rw [taken, List.length_append, List.length_singleton, Nat.add_comm 2]

/-- A line comment on the last line ends with the source. -/
theorem lineComment_last {line : List Char} (noBreak : '\n' ∉ line) :
    lineComment line =
      element (.trivia (.lineComment (String.ofList (unifyNewlines line)))) (line.length + 2) [] := by
  have whole := takeWhile_line noBreak []
  rw [List.takeWhile_nil, List.append_nil] at whole
  unfold lineComment
  rw [whole]
  dsimp only
  rw [List.take_of_length_le (Nat.le_succ _), Nat.add_comm 2]

/-- A line comment without a line break goes on past any edge. -/
theorem lt_length_lineComment {line : List Char} (noBreak : '\n' ∉ line) (mark : Char)
    (rear : List Char) : line.length + 2 < (lineComment (line ++ mark :: rear)).length := by
  have total : (lineComment (line ++ mark :: rear)).length =
      2 + min (((line ++ mark :: rear).takeWhile (· ≠ '\n')).length + 1)
        (line ++ mark :: rear).length := by
    rw [← List.length_take]
    rfl
  rw [total, takeWhile_line noBreak, List.length_append, List.length_append, List.length_cons]
  omega

/-- What stands at the front of a text ends before an edge; or it is at fault, or a line comment
without a line break, and goes on past the edge. -/
theorem read_edge (edge : Edge mark) (offset : Nat) (first : Char) (front : List Char) :
    ((read offset first front).length ≤ front.length + 1 ∧
        ∀ rear, read offset first (front ++ mark :: rear) = read offset first front) ∨
      (((read offset first front).faults ≠ [] ∨
          first = '/' ∧ ∃ line, front = '/' :: line ∧ '\n' ∉ line) ∧
        ∀ rear, front.length + 1 < (read offset first (front ++ mark :: rear)).length) := by
  have digit (rear : List Char) : (front ++ mark :: rear).head?.any Char.isDigit =
      front.head?.any Char.isDigit := head?_edge edge.digit
  have next {character : Char} (noEdge : mark ≠ character) (rear : List Char) :
      (front ++ mark :: rear).head? = some character ↔ front.head? = some character := by
    cases front with
    | nil => simp [noEdge]
    | cons second more => rfl
  have slash := next (edge.ne (by decide) : mark ≠ '/')
  have asterisk := next (edge.ne (by decide) : mark ≠ '*')
  simp only [read, digit, slash, asterisk]
  split
  · exact .inl ⟨Nat.succ_pos _, fun _ => rfl⟩
  split
  · exact .inl ⟨Nat.succ_pos _, fun _ => rfl⟩
  split
  · refine .inl ⟨(List.takeWhile_prefix isIdentifierPart).length_le, fun rear => ?_⟩
    rw [← List.cons_append, word, takeWhile_edge edge.part]
    rfl
  split
  · have fits := Numeral.length_read_le (first :: front)
    refine .inl ⟨fits, fun rear => ?_⟩
    rw [← List.cons_append, number, Numeral.read_edge edge, List.drop_append_of_le_length fits,
      Numeral.faults, Numeral.trailingIdentifier_edge edge]
    rfl
  split
  · rcases StringBody.read_edge edge offset (offset + 1) first front with
      ⟨within, same⟩ | ⟨faulty, beyond⟩
    · refine .inl ⟨?_, fun rear => ?_⟩
      · rw [length_string]
        omega
      · rw [string, same]
        rfl
    · refine .inr ⟨.inl faulty, fun rear => ?_⟩
      have beyond := beyond rear
      rw [length_string]
      omega
  split
  · next opens =>
    obtain ⟨isSlash, isNext⟩ := opens
    obtain ⟨text, rfl⟩ := List.head?_eq_some_iff.mp isNext
    simp only [List.cons_append, List.drop_one, List.tail_cons, List.length_cons]
    by_cases hasBreak : '\n' ∈ text
    · obtain ⟨line, others, rfl, noBreak⟩ := List.eq_append_cons_of_mem hasBreak
      simp only [List.append_assoc, List.cons_append, lineComment_line noBreak, length]
      refine .inl ⟨?_, fun _ => trivial⟩
      rw [List.length_append, List.length_cons]
      omega
    · exact .inr ⟨.inr ⟨isSlash, text, rfl, hasBreak⟩, lt_length_lineComment hasBreak mark⟩
  split
  · next opens =>
    obtain ⟨text, rfl⟩ := List.head?_eq_some_iff.mp opens.2
    simp only [List.cons_append, List.drop_one, List.tail_cons, List.length_cons]
    rcases CommentBody.read_edge edge 1 text with ⟨within, same⟩ | ⟨unclosed, beyond⟩
    · refine .inl ⟨?_, fun rear => ?_⟩
      · rw [length_blockComment]
        omega
      · rw [blockComment, same]
        rfl
    · refine .inr ⟨.inl ?_, fun rear => ?_⟩
      · rw [blockComment, unclosed]
        exact List.cons_ne_nil _ _
      · have beyond := beyond rear
        rw [length_blockComment]
        omega
  · refine .inl ⟨?_, fun rear => rfl⟩
    unfold symbol
    split <;> exact Nat.succ_pos _

end Front

end ProtoSchema
