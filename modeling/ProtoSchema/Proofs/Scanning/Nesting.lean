/-
This file shows where a nested comment ends. The delimiters of a text are found
from left to right, each taken whole, and counted from the one comment that is open
at first. The comment ends at the closing delimiter that brings the count to zero
for the first time, with the blanks behind it; if there is none, the comment takes
up all that is left of the source and is the one fault found in it.

The count is kept in 32 bits. It is zero there behind a closing delimiter if no
comment is open, or if a multiple of `2 ^ 32` are. So many delimiters take up eight
gibibytes, and in a shorter text the two counts agree as long as it matters.

What is read of a comment passes over the frame of a line and over the blanks
behind a delimiter without a look at each character. So the induction is on what is
passed over at once: it holds no half of a delimiter, and the count does not come to
zero within it.
-/

import Mathlib.Algebra.Group.Int.Defs
import Mathlib.Algebra.Group.Nat.Defs
import Mathlib.Data.List.Induction
import ProtoSchema.Proofs.Scanning.Framing
import ProtoSchema.Proofs.Scanning.Shift
import ProtoSchema.Proofs.Scanning.Tiling

namespace ProtoSchema

namespace CommentBody

/-- What the text of a comment is made of. -/
inductive Mark where
  | opening
  | closing
  | plain (character : Char)
deriving DecidableEq, Repr

namespace Mark

/-- The characters of a mark. -/
def text : Mark → List Char
  | opening => ['/', '*']
  | closing => ['*', '/']
  | plain character => [character]

/-- By how much the mark changes the number of open comments. -/
def change : Mark → Int
  | opening => 1
  | closing => -1
  | plain _ => 0

end Mark

/-- The marks of a text from left to right, each delimiter taken whole. -/
def marks : List Char → List Mark
  | [] => []
  | '/' :: '*' :: rest => .opening :: marks rest
  | '*' :: '/' :: rest => .closing :: marks rest
  | first :: rest => .plain first :: marks rest

/-- The text that some marks make up. -/
def spelling (marks : List Mark) : List Char := marks.flatMap Mark.text

/-- The number of open comments behind the marks, if so many are open in front of them. -/
def depth (start : Int) (marks : List Mark) : Int :=
  marks.foldl (fun depth mark => depth + mark.change) start

/-- There are open comments in front of the marks, between any two of them and behind them. -/
def StaysOpen (start : Int) (marks : List Mark) : Prop :=
  ∀ earlier, earlier <+: marks → 0 < depth start earlier

/-- The comments that are open in front of a text are all closed for the first time by the delimiter
between `inner` and `behind`. -/
def ClosesBehind (start : Int) (text inner behind : List Char) : Prop :=
  ∃ before after, marks text = before ++ .closing :: after ∧ spelling before = inner ∧
    spelling after = behind ∧ StaysOpen start before ∧ depth start (before ++ [.closing]) = 0

/-- As long as the comment in front of a text stays open, so few comments are open in it that 32 bits
hold their number. -/
def Countable (text : List Char) : Prop :=
  ∀ earlier, earlier <+: marks text → StaysOpen 1 earlier → depth 1 earlier < 2 ^ 32

/-- Behind no closing delimiter among the marks is the number of open comments zero in 32 bits. -/
def NoneShuts (start : Int) (marks : List Mark) : Prop :=
  ∀ earlier, earlier ++ [.closing] <+: marks →
    UInt32.ofInt (depth start (earlier ++ [.closing])) ≠ 0

/-- The delimiter between `inner` and `behind` is the first closing one behind which the number of
open comments is zero in 32 bits. -/
def ShutsBehind (start : Int) (text inner behind : List Char) : Prop :=
  ∃ before after, marks text = before ++ .closing :: after ∧ spelling before = inner ∧
    spelling after = behind ∧ NoneShuts start before ∧
      UInt32.ofInt (depth start (before ++ [.closing])) = 0

/-! ### Marks -/

theorem spelling_append (first second : List Mark) :
    spelling (first ++ second) = spelling first ++ spelling second :=
  List.flatMap_append

theorem spelling_plain (characters : List Char) :
    spelling (characters.map .plain) = characters := by
  induction characters with
  | nil => rfl
  | cons first rest inductionHypothesis => exact congrArg (first :: ·) inductionHypothesis

theorem spelling_marks (text : List Char) : spelling (marks text) = text := by
  fun_induction marks text with
  | case1 => rfl
  | case2 rest inductionHypothesis => exact congrArg ('/' :: '*' :: ·) inductionHypothesis
  | case3 rest inductionHypothesis => exact congrArg ('*' :: '/' :: ·) inductionHypothesis
  | case4 first rest _ _ inductionHypothesis => exact congrArg (first :: ·) inductionHypothesis

example : marks "/*/ **/".toList =
    [.opening, .plain '/', .plain ' ', .plain '*', .closing] := by
  decide

/-- The text in front of the delimiter, the delimiter and the text behind it are the whole text. -/
theorem ShutsBehind.text_eq {start : Int} {text inner behind : List Char}
    (shuts : ShutsBehind start text inner behind) : text = inner ++ '*' :: '/' :: behind := by
  obtain ⟨before, after, split, rfl, rfl, -, -⟩ := shuts
  rw [← spelling_marks text, split, spelling_append]
  rfl

/-- A character that starts no delimiter is a mark by itself. -/
theorem marks_cons {first : Char} {rest : List Char}
    (noOpening : first = '/' → rest.head? ≠ some '*')
    (noClosing : first = '*' → rest.head? ≠ some '/') :
    marks (first :: rest) = .plain first :: marks rest := by
  rw [marks]
  · rintro more rfl rfl
    exact noOpening rfl rfl
  · rintro more rfl rfl
    exact noClosing rfl rfl

theorem marks_plain {characters : List Char}
    (plain : ∀ character ∈ characters, character ≠ '/' ∧ character ≠ '*') (rest : List Char) :
    marks (characters ++ rest) = characters.map .plain ++ marks rest := by
  induction characters with
  | nil => rfl
  | cons first others inductionHypothesis =>
    obtain ⟨⟨noSlash, noAsterisk⟩, others⟩ := List.forall_mem_cons.mp plain
    rw [List.cons_append, marks_cons (absurd · noSlash) (absurd · noAsterisk),
      inductionHypothesis others]
    rfl

/-- No blank is part of a delimiter. -/
theorem marks_blanks (text : List Char) :
    marks text = (text.takeWhile isBlank).map .plain ++
      marks (text.drop (text.takeWhile isBlank).length) := by
  have plain : ∀ character ∈ text.takeWhile isBlank, character ≠ '/' ∧ character ≠ '*' := by
    intro character member
    have blank := List.all_eq_true.mp List.all_takeWhile character member
    constructor <;> rintro rfl <;> exact absurd blank (by decide)
  have split := marks_plain plain (text.drop (text.takeWhile isBlank).length)
  rwa [List.prefix_iff_eq_append.mp (List.takeWhile_prefix isBlank)] at split

/-- The frame of a line has no part of a delimiter in it. -/
theorem marks_frame (line : List Char) :
    marks line = (line.take (frameLength line)).map .plain ++
      marks (line.drop (frameLength line)) := by
  rcases line_start line with rfl | ⟨first, rest, rfl, indent⟩ | ⟨rest, rfl, noClosing⟩ |
    ⟨rest, rfl⟩ | ⟨first, rest, rfl, noIndent, noAsterisk⟩
  · rfl
  · have noDelimiter : first ≠ '/' ∧ first ≠ '*' := by
      constructor <;> rintro rfl <;> exact absurd indent (by decide)
    rw [frameLength_indent indent, marks_cons (absurd · noDelimiter.1) (absurd · noDelimiter.2),
      List.take_succ_cons, List.drop_succ_cons, List.map_cons, List.cons_append,
      ← marks_frame rest]
  · rw [frameLength_asterisk noClosing, marks_cons (absurd · (by decide)) fun _ => noClosing]
    rfl
  · rfl
  · rw [frameLength_text noIndent noAsterisk]
    rfl
termination_by line.length
decreasing_by
  subst_vars
  exact Nat.lt_succ_self _

/-! ### Depths -/

theorem depth_append (start : Int) (first second : List Mark) :
    depth start (first ++ second) = depth (depth start first) second :=
  List.foldl_append

theorem depth_plain (start : Int) (characters : List Char) :
    depth start (characters.map .plain) = start := by
  induction characters with
  | nil => rfl
  | cons first rest inductionHypothesis =>
    exact (congrArg (depth · _) (Int.add_zero start)).trans inductionHypothesis

theorem staysOpen_nil {start : Int} (isOpen : 0 < start) : StaysOpen start [] := by
  intro earlier before
  rw [List.prefix_nil.mp before]
  exact isOpen

theorem StaysOpen.concat {start : Int} {marks : List Mark} {mark : Mark}
    (stays : StaysOpen start marks) (isOpen : 0 < depth start (marks ++ [mark])) :
    StaysOpen start (marks ++ [mark]) := by
  intro earlier before
  rcases List.prefix_concat_iff.mp before with rfl | before
  · exact isOpen
  · exact stays earlier before

/-! ### Counts in 32 bits -/

theorem noneShuts_nil (start : Int) : NoneShuts start [] :=
  fun _ before => absurd (List.prefix_nil.mp before) (by simp)

theorem NoneShuts.cons {start : Int} {mark : Mark} {rest : List Mark}
    (here : mark = .closing → UInt32.ofInt (start + Mark.closing.change) ≠ 0)
    (behind : NoneShuts (start + mark.change) rest) : NoneShuts start (mark :: rest) := by
  intro earlier before
  match earlier with
  | [] =>
    obtain ⟨isClosing, -⟩ := List.cons_prefix_cons.mp before
    exact here isClosing.symm
  | first :: more =>
    obtain ⟨rfl, before⟩ := List.cons_prefix_cons.mp before
    exact behind more ‹_›

theorem NoneShuts.append {start : Int} {first second : List Mark}
    (front : NoneShuts start first) (behind : NoneShuts (depth start first) second) :
    NoneShuts start (first ++ second) := by
  induction first generalizing start with
  | nil => exact behind
  | cons mark rest inductionHypothesis =>
    refine .cons ?_ (inductionHypothesis (fun earlier before => ?_) behind)
    · rintro rfl
      exact front [] (List.cons_prefix_cons.mpr ⟨rfl, List.nil_prefix⟩)
    · exact front (mark :: earlier) (List.cons_prefix_cons.mpr ⟨rfl, before⟩)

theorem noneShuts_plain (start : Int) (characters : List Char) :
    NoneShuts start (characters.map .plain) := by
  induction characters with
  | nil => exact noneShuts_nil start
  | cons first rest inductionHypothesis =>
    refine .cons (fun isClosing => nomatch isClosing) ?_
    rwa [Mark.change, Int.add_zero]

theorem ofInt_closing (count : Int) :
    UInt32.ofInt (count + Mark.closing.change) = UInt32.ofInt count - 1 := by
  rw [Mark.change, UInt32.ofInt_add, UInt32.ofInt_neg_one, UInt32.sub_eq_add_neg]

theorem ofInt_opening (count : Int) :
    UInt32.ofInt (count + Mark.opening.change) = UInt32.ofInt count + 1 := by
  rw [Mark.change, UInt32.ofInt_add, UInt32.ofInt_one]

/-- A count that has a place in 32 bits is zero there only if it is zero. -/
theorem eq_zero_of_ofInt {count : Int} (low : 0 ≤ count) (high : count < 2 ^ 32)
    (zero : UInt32.ofInt count = 0) : count = 0 := by
  have value := congrArg UInt32.toNat zero
  have small : count.toNat < UInt32.size := (Int.toNat_lt low).mpr high
  rw [UInt32.ofInt, Int.emod_eq_of_lt low high, UInt32.toNat_ofNat_of_lt' small] at value
  exact Int.le_antisymm (Int.toNat_eq_zero.mp value) low

/-- As long as the number of open comments has a place in 32 bits, the comment stays open where no
delimiter is seen to shut it. -/
theorem Countable.staysOpen {text : List Char} (countable : Countable text)
    {marked : List Mark} (front : marked <+: marks text) (none : NoneShuts 1 marked) :
    StaysOpen 1 marked := by
  induction marked using List.reverseRecOn with
  | nil => exact staysOpen_nil Int.one_pos
  | append_singleton marked mark inductionHypothesis =>
    have before : marked <+: marks text := (List.prefix_append _ _).trans front
    have stays := inductionHypothesis before fun earlier isPrefix =>
      none earlier (isPrefix.trans (List.prefix_append _ _))
    have isOpen := stays marked List.prefix_rfl
    have few := countable marked before stays
    refine stays.concat ?_
    cases mark with
    | opening =>
      rw [depth_append]
      exact Int.add_pos isOpen Int.one_pos
    | closing =>
      have noZero := none marked List.prefix_rfl
      have behind : depth 1 (marked ++ [.closing]) = depth 1 marked - 1 := depth_append _ _ _
      have nonzero : depth 1 (marked ++ [.closing]) ≠ 0 := fun zero => noZero (by rw [zero]; rfl)
      omega
    | plain character =>
      have same : depth 1 (marked ++ [.plain character]) = depth 1 marked :=
        (depth_append _ _ _).trans (depth_plain _ [character])
      rwa [same]

/-- The delimiter that is seen to shut the comment closes it. -/
theorem ShutsBehind.closesBehind {text inner behind : List Char} (countable : Countable text)
    (shuts : ShutsBehind 1 text inner behind) : ClosesBehind 1 text inner behind := by
  obtain ⟨before, after, split, isInner, isBehind, none, zero⟩ := shuts
  have front : before <+: marks text := split ▸ List.prefix_append _ _
  have stays := countable.staysOpen front none
  have isOpen := stays before List.prefix_rfl
  have few := countable before front stays
  have oneLess : depth 1 (before ++ [.closing]) = depth 1 before - 1 := depth_append _ _ _
  exact ⟨before, after, split, isInner, isBehind, stays,
    eq_zero_of_ofInt (by omega) (by omega) zero⟩

/-- Each comment that is open takes two characters to open. -/
theorem depth_le (start : Int) (marks : List Mark) :
    2 * depth start marks ≤ 2 * start + (spelling marks).length := by
  induction marks generalizing start with
  | nil => exact Int.le_of_eq (Int.add_zero _).symm
  | cons mark rest inductionHypothesis =>
    have onward : 2 * depth start (mark :: rest) ≤
        2 * (start + mark.change) + (spelling rest).length := inductionHypothesis _
    have length : (spelling (mark :: rest)).length = mark.text.length + (spelling rest).length :=
      List.length_append
    have here : 2 * mark.change ≤ mark.text.length := by
      cases mark <;> simp [Mark.change, Mark.text]
    omega

/-- In less than eight gibibytes of text, 32 bits hold the number of open comments. -/
theorem countable_of_length {text : List Char} (short : text.length + 2 < 2 ^ 33) :
    Countable text := by
  rintro earlier ⟨later, split⟩ -
  have length := congrArg List.length (spelling_append earlier later)
  rw [split, spelling_marks, List.length_append] at length
  have bound := depth_le 1 earlier
  omega

/-! ### Comments -/

/-- What is read of a comment ends at the delimiter that is seen to shut it, or it is all of the
text and not closed. -/
def Ends (opened : Int) (text : List Char) : Prop :=
  (∃ inner behind, ShutsBehind opened text inner behind ∧
    read (.ofInt opened) text =
      ⟨unframed inner, inner.length + 2 + (behind.takeWhile isBlank).length, true⟩) ∨
  NoneShuts opened (marks text) ∧
    (read (.ofInt opened) text).length = text.length ∧ (read (.ofInt opened) text).closed = false

/-- If some marks are passed over at once and shut no comment, the comment ends where the rest of it
does. -/
theorem Ends.step {opened : Int} {text rest : List Char} (front : List Mark)
    (kept : List Char) (ends : Ends (depth opened front) rest) (split : marks text = front ++ marks rest)
    (none : NoneShuts opened front)
    (here : read (.ofInt opened) text =
      (read (.ofInt (depth opened front)) rest).prepend (spelling front).length kept)
    (keeps : ∀ inner behind, rest = inner ++ '*' :: '/' :: behind →
      unframed (spelling front ++ inner) = kept ++ unframed inner) :
    Ends opened text := by
  rcases ends with ⟨inner, behind, shuts, isRead⟩ | ⟨remains, length, closed⟩
  · have kept := keeps inner behind shuts.text_eq
    obtain ⟨before, after, splitRest, rfl, rfl, noneRest, zero⟩ := shuts
    refine .inl ⟨spelling (front ++ before), spelling after,
      ⟨front ++ before, after, ?_, rfl, rfl, none.append noneRest, ?_⟩, ?_⟩
    · rw [split, splitRest, List.append_assoc]
    · rwa [List.append_assoc, depth_append]
    · rw [here, isRead, spelling_append, kept]
      simp only [prepend, List.length_append, Nat.add_assoc]
  · refine .inr ⟨?_, ?_, ?_⟩
    · rw [split]
      exact none.append remains
    · rw [here, ← spelling_marks text, split, spelling_append, spelling_marks, List.length_append,
        ← length]
      rfl
    · rw [here]
      exact closed

/-- A delimiter shuts the comment, with the blanks behind it. -/
theorem ends_last {opened : Int} (last : UInt32.ofInt opened - 1 = 0) (rest : List Char) :
    Ends opened ('*' :: '/' :: rest) := by
  have shuts : ShutsBehind opened ('*' :: '/' :: rest) [] rest :=
    ⟨[], marks rest, rfl, rfl, spelling_marks rest, noneShuts_nil _, (ofInt_closing _).trans last⟩
  refine .inl ⟨[], rest, shuts, ?_⟩
  rw [read, if_pos last]
  rfl

/-- A delimiter that closes one of more comments is text, as are the blanks behind it. -/
theorem Ends.closing {opened : Int} {rest : List Char} (more : UInt32.ofInt opened - 1 ≠ 0)
    (ends : Ends (opened + Mark.closing.change) (rest.drop (rest.takeWhile isBlank).length)) :
    Ends opened ('*' :: '/' :: rest) := by
  have noBreak : '\n' ∉ '*' :: '/' :: rest.takeWhile isBlank := by
    intro isBreak
    have inBlanks : '\n' ∈ rest.takeWhile isBlank := by simpa using isBreak
    exact absurd (List.all_eq_true.mp List.all_takeWhile _ inBlanks) (by decide)
  have spelled : spelling (.closing :: (rest.takeWhile isBlank).map .plain) =
      '*' :: '/' :: rest.takeWhile isBlank :=
    congrArg ('*' :: '/' :: ·) (spelling_plain _)
  have count : depth opened (.closing :: (rest.takeWhile isBlank).map .plain) =
      opened + Mark.closing.change := depth_plain _ _
  refine Ends.step (.closing :: (rest.takeWhile isBlank).map .plain)
    ('*' :: '/' :: rest.takeWhile isBlank) (count ▸ ends)
    (congrArg (Mark.closing :: ·) (marks_blanks rest)) (.cons (fun _ => ?_) (noneShuts_plain _ _))
    ?_ ?_
  · rwa [ofInt_closing]
  · rw [count, ofInt_closing, read, if_neg more, spelled, List.length_cons, List.length_cons,
      Nat.add_comm 2]
  · intro inner _ _
    rw [spelled, unframed_append noBreak]

theorem Ends.opening {opened : Int} {rest : List Char}
    (ends : Ends (opened + Mark.opening.change) rest) : Ends opened ('/' :: '*' :: rest) := by
  refine Ends.step [.opening] ['/', '*'] ends rfl
    (.cons (fun isClosing => nomatch isClosing) (noneShuts_nil _)) ?_ ?_
  · have count : depth opened [.opening] = opened + Mark.opening.change := rfl
    rw [count, ofInt_opening, read]
    rfl
  · intro inner _ _
    exact unframed_append (by decide : '\n' ∉ ['/', '*']) inner

/-- The frame of a line is passed over, and is the same in front of the delimiter at the end. -/
theorem Ends.newline {opened : Int} {rest : List Char}
    (ends : Ends opened (rest.drop (frameLength rest))) : Ends opened ('\n' :: rest) := by
  have spelled : spelling (('\n' :: rest.take (frameLength rest)).map .plain) =
      '\n' :: rest.take (frameLength rest) := spelling_plain _
  have framed : (rest.take (frameLength rest)).length = frameLength rest :=
    List.length_take_of_le (frameLength_le rest)
  have count := depth_plain opened ('\n' :: rest.take (frameLength rest))
  refine Ends.step (('\n' :: rest.take (frameLength rest)).map .plain) ['\n'] (count.symm ▸ ends) ?_
    (noneShuts_plain opened _) ?_ ?_
  · rw [marks_cons (absurd · (by decide)) (absurd · (by decide)), marks_frame rest]
    rfl
  · rw [count, read, spelled, List.length_cons, framed, Nat.add_comm 1]
  · intro inner behind split
    have sameFrame : frameLength (rest.take (frameLength rest) ++ inner) = frameLength rest := by
      rw [← frameLength_closing _ behind, List.append_assoc, ← split, List.take_append_drop]
    rw [spelled, List.cons_append, unframed_newline, sameFrame, List.drop_left' framed]
    rfl

theorem Ends.plain {opened : Int} {first : Char} {rest : List Char} (ends : Ends opened rest)
    (noClosing : ∀ following, first = '*' → rest = '/' :: following → False)
    (noOpening : ∀ following, first = '/' → rest = '*' :: following → False)
    (noBreak : first ≠ '\n') : Ends opened (first :: rest) := by
  have head (other : Char) (more : ∀ following, rest = other :: following → False) :
      rest.head? ≠ some other := by
    intro same
    obtain ⟨following, rfl⟩ := List.head?_eq_some_iff.mp same
    exact more following rfl
  have count := depth_plain opened [first]
  refine Ends.step [.plain first] [first] (count.symm ▸ ends) ?_ (noneShuts_plain opened [first]) ?_ ?_
  · exact marks_cons (fun isSlash => head _ fun following => noOpening following isSlash)
      fun isAsterisk => head _ fun following => noClosing following isAsterisk
  · rw [read]
    · exact congrArg (fun opened => (read (.ofInt opened) rest).prepend 1 [first]) count.symm
    · exact noClosing
    · exact noOpening
    · exact noBreak
  · intro inner _ _
    exact unframed_cons noBreak inner

/-- Each text shuts the comment that is open in front of it, or does not. -/
theorem ends_read (opened : Int) (text : List Char) : Ends opened text := by
  generalize isWord : UInt32.ofInt opened = word
  fun_induction read word text generalizing opened with
  | case1 word =>
    refine .inr ⟨noneShuts_nil opened, ?_⟩
    rw [read]
    exact ⟨rfl, rfl⟩
  | case2 word rest blanks last => exact ends_last (isWord ▸ last) rest
  | case3 word rest blanks more inductionHypothesis =>
    exact .closing (isWord ▸ more) (inductionHypothesis _ (by rw [ofInt_closing, isWord]))
  | case4 word rest inductionHypothesis =>
    exact .opening (inductionHypothesis _ (by rw [ofInt_opening, isWord]))
  | case5 word rest frame inductionHypothesis => exact (inductionHypothesis _ isWord).newline
  | case6 word first rest noClosing noOpening noBreak inductionHypothesis =>
    exact (inductionHypothesis _ isWord).plain noClosing noOpening noBreak

/-! ### Sources -/

open Scanned

/-- The scan of a source that starts with a comment goes on behind the delimiter after `inner` and the
blanks behind that, and the text of the comment is what the lines of `inner` hold. -/
def ClosedAt (offset : Nat) (text inner behind : List Char) : Prop :=
  ∃ blanks rest, behind = blanks ++ rest ∧ (∀ character ∈ blanks, character ∈ separators) ∧
    (∀ character ∈ rest.head?, character ∉ separators) ∧
    all offset ('/' :: '*' :: text) =
      piece ⟨.trivia (.blockComment (String.ofList (commentText inner))),
          ⟨offset, offset + byteLength ('/' :: '*' :: (inner ++ '*' :: '/' :: blanks))⟩⟩ [] ::
        all (offset + byteLength ('/' :: '*' :: (inner ++ '*' :: '/' :: blanks))) rest

/-- The comment at the start of a source takes up all of it, and the one fault is at its opening
delimiter. -/
def LeftOpen (offset : Nat) (text : List Char) : Prop :=
  ∃ kept, all offset ('/' :: '*' :: text) =
    [piece ⟨.trivia (.blockComment kept), ⟨offset, offset + byteLength ('/' :: '*' :: text)⟩⟩
      [⟨.unterminatedComment, ⟨offset, offset + 2⟩⟩]]

theorem closedAt_of_read (offset : Nat) {text inner behind : List Char}
    (split : text = inner ++ '*' :: '/' :: behind)
    (isRead : read 1 text =
      ⟨unframed inner, inner.length + 2 + (behind.takeWhile isBlank).length, true⟩) :
    ClosedAt offset text inner behind := by
  refine ⟨behind.takeWhile isBlank, behind.dropWhile isBlank,
    List.takeWhile_append_dropWhile.symm, ?_, ?_, ?_⟩
  · exact fun character member =>
      isBlank_iff.mp (List.all_eq_true.mp List.all_takeWhile character member)
  · intro character isFirst separates
    have noBlank := List.head?_dropWhile_not isBlank behind
    rw [Option.mem_def.mp isFirst] at noBlank
    exact Bool.eq_false_iff.mp noBlank (isBlank_iff.mpr separates)
  · have front : Front.read offset '/' ('*' :: text) = Front.blockComment offset text := rfl
    have isText : '*' :: text = '*' :: (inner ++ '*' :: '/' :: behind.takeWhile isBlank) ++
        behind.dropWhile isBlank := by
      rw [split, List.cons_append, List.append_assoc, List.cons_append, List.cons_append,
        List.takeWhile_append_dropWhile]
    have whole : Front.read offset '/' ('*' :: text) =
        .element (.trivia (.blockComment (String.ofList (commentText inner))))
          (('*' :: (inner ++ '*' :: '/' :: behind.takeWhile isBlank)).length + 1) [] := by
      rw [front, Front.blockComment, isRead, unifyNewlines_unframed]
      refine congrArg (Front.element _ · _) ?_
      simp only [List.length_cons, List.length_append]
      omega
    rw [isText] at whole ⊢
    exact all_element whole

theorem leftOpen_of_read (offset : Nat) {text : List Char}
    (length : (read 1 text).length = text.length) (unclosed : (read 1 text).closed = false) :
    LeftOpen offset text := by
  refine ⟨String.ofList (unifyNewlines (read 1 text).text), ?_⟩
  have front : Front.read offset '/' ('*' :: text) = Front.blockComment offset text := rfl
  have whole : Front.read offset '/' (('*' :: text) ++ []) =
      .element (.trivia (.blockComment (String.ofList (unifyNewlines (read 1 text).text))))
        (('*' :: text).length + 1) [⟨.unterminatedComment, ⟨offset, offset + 2⟩⟩] := by
    rw [List.append_nil, front, Front.blockComment, length, unclosed, Nat.add_comm 2]
    rfl
  have isPiece := all_element whole
  rwa [List.append_nil, all] at isPiece

end CommentBody

end ProtoSchema
