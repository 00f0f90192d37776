/-
This file shows that locations are exact. The lines that start by an offset also
start by every later one, so a later offset lies on a later line or further along
the same line, and no two offsets share a location. Behind the first characters of
a source, the location is told by these characters alone: by the line breaks among
them and by what stands behind the last of these. In terms of the bytes of a source
it tells how many line feeds stand before an offset and how far back the last one
is, and so does a search for the offset among the starts of lines.

Words of 64 bits locate every offset in the same way, but for the greatest in a
source of a single line: its column is one more than the greatest word.
-/

import Mathlib.Algebra.Group.Nat.Defs
import Mathlib.Data.List.DropRight
import ProtoSchema.Source.Location

namespace ProtoSchema

/-- Locations are in the order of reading: by line, then by column. -/
instance : LE Location where
  le first second :=
    first.line < second.line ∨ first.line = second.line ∧ first.column ≤ second.column

instance : LT Location where
  lt first second :=
    first.line < second.line ∨ first.line = second.line ∧ first.column < second.column

namespace LineIndex

variable {earlier later : Nat}

/-- The lines that start by an offset are the first of those that start by a later one. -/
theorem startsBy_prefix (starts : List Nat) (le : earlier ≤ later) :
    starts.takeWhile (· ≤ earlier) <+: starts.takeWhile (· ≤ later) := by
  induction starts with
  | nil => exact List.prefix_refl _
  | cons start rest inductionHypothesis =>
    rw [List.takeWhile_cons]
    split
    · next taken =>
      have takenLater : start ≤ later := Nat.le_trans (of_decide_eq_true taken) le
      rw [List.takeWhile_cons, if_pos (decide_eq_true takenLater)]
      exact List.cons_prefix_cons.mpr ⟨rfl, inductionHypothesis⟩
    · exact List.nil_prefix

/-- The last line that starts by an offset starts at or before it. -/
theorem lastStart_le (starts : List Nat) (offset : Nat) :
    (starts.takeWhile (· ≤ offset)).getLastD 0 ≤ offset := by
  rcases List.eq_nil_or_concat (starts.takeWhile (· ≤ offset)) with none | ⟨front, last, eq⟩
  · rw [none]
    exact Nat.zero_le offset
  · have member : last ∈ starts.takeWhile (· ≤ offset) := by simp [eq]
    rw [eq, List.concat_eq_append, List.getLastD_concat]
    exact of_decide_eq_true (List.mem_takeWhile_imp (p := (· ≤ offset)) member)

theorem locate_lt_locate (index : LineIndex) (lt : earlier < later) :
    index.locate earlier < index.locate later := by
  have starts := startsBy_prefix index.starts (Nat.le_of_lt lt)
  rcases Nat.lt_or_eq_of_le starts.length_le with fewer | same
  · exact .inl (Nat.succ_lt_succ fewer)
  · -- Both offsets lie on one line, so their columns are counted from the same offset.
    refine .inr ⟨congrArg (· + 1) same, Nat.succ_lt_succ ?_⟩
    have before := lastStart_le index.starts earlier
    rw [starts.eq_of_length same] at before ⊢
    exact Nat.sub_lt_sub_right before lt

theorem locate_le_locate (index : LineIndex) (le : earlier ≤ later) :
    index.locate earlier ≤ index.locate later := by
  rcases Nat.lt_or_eq_of_le le with lt | rfl
  · exact (index.locate_lt_locate lt).imp_right fun ⟨line, column⟩ => ⟨line, Nat.le_of_lt column⟩
  · exact .inr ⟨rfl, Nat.le_refl _⟩

/-- No two offsets have one location. -/
theorem locate_injective (index : LineIndex) : Function.Injective index.locate := by
  have apart {first second : Nat} (lt : first < second) :
      index.locate first ≠ index.locate second := by
    intro same
    rcases same ▸ index.locate_lt_locate lt with less | ⟨-, less⟩
    · exact Nat.lt_irrefl _ less
    · exact Nat.lt_irrefl _ less
  intro first second same
  rcases Nat.lt_trichotomy first second with lt | eq | gt
  · exact absurd same (apart lt)
  · exact eq
  · exact absurd same.symm (apart gt)

end LineIndex

/-! ### Places in a text -/

/-- The location directly behind a text that starts a source: its line breaks have ended so many
lines, and the column counts the bytes since the last of them. -/
def Location.behind (before : List Char) : Location :=
  ⟨before.count '\n' + 1, byteLength (before.rtakeWhile (· ≠ '\n')) + 1⟩

theorem rtakeWhile_line (front before : List Char) :
    (front ++ '\n' :: before).rtakeWhile (· ≠ '\n') = before.rtakeWhile (· ≠ '\n') := by
  induction before using List.reverseRecOn with
  | nil => rw [List.rtakeWhile_concat_neg _ _ _ (by simp), List.rtakeWhile_nil]
  | append_singleton before last inductionHypothesis =>
    rw [← List.cons_append, ← List.append_assoc, List.rtakeWhile_concat, List.rtakeWhile_concat,
      inductionHypothesis]

/-- Behind a line break, columns are counted anew. -/
theorem Location.behind_line (front before : List Char) :
    behind (front ++ '\n' :: before) =
      ⟨(behind before).line + (front.count '\n' + 1), (behind before).column⟩ := by
  unfold behind
  rw [rtakeWhile_line, List.count_append, List.count_cons_self]
  refine congrArg (Location.mk · _) ?_
  dsimp only
  omega

namespace LineIndex

theorem startsFrom_append (offset : Nat) (front back : List Char) :
    startsFrom offset (front ++ back) =
      startsFrom offset front ++ startsFrom (offset + byteLength front) back := by
  induction front generalizing offset with
  | nil => rfl
  | cons first rest inductionHypothesis =>
    simp only [List.cons_append, startsFrom, byteLength_cons, inductionHypothesis, Nat.add_assoc]
    split <;> rfl

/-- A line starts behind its line break. -/
theorem mem_startsFrom {offset start : Nat} {text : List Char}
    (member : start ∈ startsFrom offset text) : offset < start ∧ start ≤ offset + byteLength text := by
  induction text generalizing offset with
  | nil => cases member
  | cons first rest inductionHypothesis =>
    have positive := Char.utf8Size_pos first
    rw [byteLength_cons]
    have later (member : start ∈ startsFrom (offset + first.utf8Size) rest) :
        offset < start ∧ start ≤ offset + (first.utf8Size + byteLength rest) := by
      have bounds := inductionHypothesis member
      omega
    rw [startsFrom] at member
    split at member
    · rcases List.mem_cons.mp member with rfl | member
      · omega
      · exact later member
    · exact later member

theorem length_startsFrom (offset : Nat) (text : List Char) :
    (startsFrom offset text).length = text.count '\n' := by
  induction text generalizing offset with
  | nil => rfl
  | cons first rest inductionHypothesis =>
    rw [startsFrom, List.count_cons]
    split
    · next isBreak => rw [List.length_cons, inductionHypothesis, if_pos (by simp [isBreak])]
    · next noBreak => rw [inductionHypothesis, if_neg (by simpa using noBreak)]; rfl

/-- The last line of a text and what stands before it make up the text. -/
theorem lastStart_add (offset : Nat) (text : List Char) :
    (startsFrom offset text).getLastD offset + byteLength (text.rtakeWhile (· ≠ '\n')) =
      offset + byteLength text := by
  induction text using List.reverseRecOn with
  | nil => rfl
  | append_singleton text last inductionHypothesis =>
    have size : byteLength (text ++ [last]) = byteLength text + last.utf8Size := by simp
    rw [startsFrom_append, startsFrom, startsFrom, size]
    by_cases isBreak : last = '\n'
    · rw [if_pos isBreak, List.getLastD_concat, List.rtakeWhile_concat_neg _ _ _ (by simp [isBreak]),
        byteLength_nil, Nat.add_zero, Nat.add_assoc]
    · rw [if_neg isBreak, List.append_nil, List.rtakeWhile_concat_pos _ _ _ (by simp [isBreak]),
        byteLength_append, ← Nat.add_assoc, inductionHypothesis]
      simp [Nat.add_assoc]

/-- A list is taken up to the first number beyond the offset. -/
theorem takeWhile_append {before after : List Nat} {offset : Nat}
    (within : ∀ start ∈ before, start ≤ offset) (beyond : ∀ start ∈ after, offset < start) :
    (before ++ after).takeWhile (· ≤ offset) = before := by
  have none : after.takeWhile (· ≤ offset) = [] := by
    refine List.takeWhile_eq_nil_iff.mpr fun nonempty taken => ?_
    exact Nat.not_le_of_lt (beyond _ (List.get_mem _ ⟨0, nonempty⟩)) (of_decide_eq_true taken)
  rw [List.takeWhile_append_of_pos fun start member => decide_eq_true (within start member), none,
    List.append_nil]

/-- The offset behind the first characters of a source is located by these characters alone. -/
theorem locate_byteLength (before rest : List Char) :
    (ofSource (before ++ rest)).locate (byteLength before) = .behind before := by
  have taken : (startsFrom 0 (before ++ rest)).takeWhile (· ≤ byteLength before) =
      startsFrom 0 before := by
    rw [startsFrom_append]
    refine takeWhile_append (fun start member => ?_) fun start member => ?_
    · exact Nat.zero_add (byteLength before) ▸ (mem_startsFrom member).2
    · exact Nat.zero_add (byteLength before) ▸ (mem_startsFrom member).1

  have column : byteLength before - (startsFrom 0 before).getLastD 0 =
      byteLength (before.rtakeWhile (· ≠ '\n')) := by
    have last := lastStart_add 0 before
    omega
  unfold locate ofSource Location.behind
  dsimp only
  rw [taken, length_startsFrom, column]

end LineIndex

/-! ### Bytes -/

/-- The byte that ends a line. -/
def lineFeed : UInt8 := 10

/-- Among the bytes of a character there is a line feed only if it is a line break. -/
theorem lineFeed_mem_utf8EncodeChar_iff (character : Char) :
    lineFeed ∈ String.utf8EncodeChar character ↔ character = '\n' := by
  have ofByte {value : Nat} (byte : value < 256) (eq : lineFeed = UInt8.ofNat value) :
      value = 10 := by
    have same := congrArg UInt8.toNat eq
    rw [UInt8.toNat_ofNat_of_lt' byte] at same
    exact same.symm
  have highBit {value : Nat} (high : 128 ≤ value) (byte : value < 256) :
      lineFeed ≠ UInt8.ofNat value := by
    intro eq
    have small := ofByte byte eq
    omega
  constructor
  · intro member
    have code : character.val.toNat = 10 := by
      rw [String.utf8EncodeChar] at member
      split_ifs at member
      · exact ofByte (by omega) (List.mem_singleton.mp member)
      -- All bytes of a longer encoding have the highest bit.
      all_goals
        refine absurd member ?_
        simp only [List.mem_cons, List.not_mem_nil, or_false, not_or]
        and_intros <;> exact highBit (by omega) (by omega)
    exact Char.ext (UInt32.toNat_inj.mp code)
  · rintro rfl
    decide

namespace LineIndex

/-- The offsets directly after each line feed of the bytes, the first of which stands at
`offset`. -/
def breaksFrom (offset : Nat) : List UInt8 → List Nat
  | [] => []
  | first :: rest =>
    if first = lineFeed then (offset + 1) :: breaksFrom (offset + 1) rest
    else breaksFrom (offset + 1) rest

theorem breaksFrom_append (offset : Nat) (front back : List UInt8) :
    breaksFrom offset (front ++ back) =
      breaksFrom offset front ++ breaksFrom (offset + front.length) back := by
  induction front generalizing offset with
  | nil => rfl
  | cons first rest inductionHypothesis =>
    simp only [List.cons_append, breaksFrom, List.length_cons, inductionHypothesis,
      Nat.add_assoc, Nat.add_comm 1]
    split <;> rfl

theorem length_breaksFrom (offset : Nat) (bytes : List UInt8) :
    (breaksFrom offset bytes).length = bytes.count lineFeed := by
  induction bytes generalizing offset with
  | nil => rfl
  | cons first rest inductionHypothesis =>
    rw [breaksFrom, List.count_cons]
    split
    · next isFeed => rw [List.length_cons, inductionHypothesis, if_pos (by simp [isFeed])]
    · next noFeed => rw [inductionHypothesis, if_neg (by simpa using noFeed)]; rfl

/-- The starts of lines are found among the bytes of a text. -/
theorem startsFrom_eq_breaksFrom (offset : Nat) (text : List Char) :
    startsFrom offset text = breaksFrom offset (text.flatMap String.utf8EncodeChar) := by
  induction text generalizing offset with
  | nil => rfl
  | cons first rest inductionHypothesis =>
    rw [startsFrom, List.flatMap_cons, breaksFrom_append, String.length_utf8EncodeChar,
      ← inductionHypothesis]
    split
    · next isBreak =>
      rw [isBreak]
      rfl
    · next noBreak =>
      have noFeed : (String.utf8EncodeChar first).count lineFeed = 0 :=
        List.count_eq_zero.mpr (mt (lineFeed_mem_utf8EncodeChar_iff first).mp noBreak)
      rw [← length_breaksFrom offset, List.length_eq_zero_iff] at noFeed
      rw [noFeed, List.nil_append]

theorem mem_breaksFrom {offset start : Nat} {bytes : List UInt8}
    (member : start ∈ breaksFrom offset bytes) : offset < start := by
  induction bytes generalizing offset with
  | nil => cases member
  | cons first rest inductionHypothesis =>
    rw [breaksFrom] at member
    split at member
    · rcases List.mem_cons.mp member with rfl | member
      · exact Nat.lt_succ_self offset
      · exact Nat.lt_of_succ_lt (inductionHypothesis member)
    · exact Nat.lt_of_succ_lt (inductionHypothesis member)

/-- The lines that start by an offset are those that the bytes before it start. -/
theorem takeWhile_breaksFrom (offset count : Nat) (bytes : List UInt8) :
    (breaksFrom offset bytes).takeWhile (· ≤ offset + count) =
      breaksFrom offset (bytes.take count) := by
  induction bytes generalizing offset count with
  | nil => rw [List.take_nil]; rfl
  | cons first rest inductionHypothesis =>
    cases count with
    | zero =>
      refine List.takeWhile_eq_nil_iff.mpr fun nonempty taken => ?_
      have after := mem_breaksFrom (List.get_mem _ ⟨0, nonempty⟩)
      exact Nat.not_le_of_lt after (of_decide_eq_true taken)
    | succ count =>
      have later := inductionHypothesis (offset + 1) count
      rw [Nat.add_right_comm] at later
      rw [List.take_succ_cons, breaksFrom, breaksFrom]
      split
      · rw [List.takeWhile_cons, if_pos (decide_eq_true (by omega))]
        exact congrArg _ later
      · exact later

/-- The line of an offset starts there: with the first byte or directly after a line feed, and no
other line feed stands between that and the offset. -/
structure LineStart (bytes : List UInt8) (offset start : Nat) : Prop where
  before : start ≤ offset
  opens : start = 0 ∨ bytes[start - 1]? = some lineFeed
  unbroken : ∀ place, start ≤ place → place < offset → bytes[place]? ≠ some lineFeed

/-- The last line of some bytes starts at the last of the starts. -/
theorem lineStart_length (bytes : List UInt8) :
    LineStart bytes bytes.length ((breaksFrom 0 bytes).getLastD 0) := by
  induction bytes using List.reverseRecOn with
  | nil =>
    exact ⟨Nat.le_refl 0, .inl rfl, fun place _ inside => absurd inside (Nat.not_lt_zero place)⟩
  | append_singleton bytes last inductionHypothesis =>
    rw [breaksFrom_append, breaksFrom, breaksFrom, Nat.zero_add, List.length_append,
      List.length_singleton]
    by_cases isFeed : last = lineFeed
    · rw [if_pos isFeed, List.getLastD_concat]
      refine ⟨Nat.le_refl _, .inr ?_, fun place start inside => ?_⟩
      · rw [Nat.add_sub_cancel, List.getElem?_concat_length, isFeed]
      · omega
    · rw [if_neg isFeed, List.append_nil]
      obtain ⟨before, opens, unbroken⟩ := inductionHypothesis
      refine ⟨Nat.le_succ_of_le before, ?_, fun place start inside => ?_⟩
      · rcases opens with zero | feed
        · exact .inl zero
        · have inside := (List.getElem?_eq_some_iff.mp feed).1
          exact .inr (by rw [List.getElem?_append_left inside, feed])
      · rcases Nat.lt_or_eq_of_le (Nat.le_of_lt_succ inside) with earlier | rfl
        · rw [List.getElem?_append_left earlier]
          exact unbroken place start earlier
        · rw [List.getElem?_concat_length]
          exact fun same => isFeed (Option.some.inj same)

/-- What stands behind an offset does not change the start of its line. -/
theorem LineStart.of_take {bytes : List UInt8} {offset start : Nat}
    (lineStart : LineStart (bytes.take offset) (bytes.take offset).length start) :
    LineStart bytes offset start := by
  obtain ⟨before, opens, unbroken⟩ := lineStart
  rw [List.length_take] at before unbroken
  refine ⟨Nat.le_trans before (Nat.min_le_left _ _), ?_, fun place behind inside same => ?_⟩
  · rw [List.getElem?_take, Option.ite_none_right_eq_some] at opens
    exact opens.imp_right And.right
  · have stored := (List.getElem?_eq_some_iff.mp same).1
    refine unbroken place behind (Nat.lt_min.mpr ⟨inside, stored⟩) ?_
    rw [List.getElem?_take, if_pos inside, same]

/-! ### Searches -/

/-- What a search for a number in an increasing list reports: the place where it stands, or the one
where it could be inserted. -/
inductive Search where
  | found (place : Nat)
  | absent (place : Nat)

/-- The report is right: the number stands there, or it is greater than all that stand before and
less than all that stand behind. -/
def Search.Reports (numbers : List Nat) (number : Nat) : Search → Prop
  | .found place => numbers[place]? = some number
  | .absent place => place ≤ numbers.length ∧ (∀ lesser ∈ numbers.take place, lesser < number) ∧
      ∀ greater ∈ numbers.drop place, number < greater

/-- The location that is told from a search for an offset among the starts of lines. -/
def located (index : LineIndex) (offset : Nat) : Search → Location
  | .found place => ⟨place + 2, 1⟩
  | .absent 0 => ⟨1, offset + 1⟩
  | .absent (place + 1) => ⟨place + 2, offset - index.starts.getD place 0 + 1⟩

theorem pairwise_breaksFrom (offset : Nat) (bytes : List UInt8) :
    (breaksFrom offset bytes).Pairwise (· < ·) := by
  induction bytes generalizing offset with
  | nil => exact .nil
  | cons first rest inductionHypothesis =>
    rw [breaksFrom]
    split
    · exact .cons (fun _ => mem_breaksFrom) (inductionHypothesis _)
    · exact inductionHypothesis _

/-- The location of an offset is told by the place of the last start that it reaches. -/
theorem locate_of_getElem? {index : LineIndex} {offset place start : Nat}
    (here : index.starts[place]? = some start)
    (within : ∀ other ∈ index.starts.take (place + 1), other ≤ offset)
    (beyond : ∀ other ∈ index.starts.drop (place + 1), offset < other) :
    index.locate offset = ⟨place + 2, offset - start + 1⟩ := by
  have taken := takeWhile_append within beyond
  obtain ⟨inside, rfl⟩ := List.getElem?_eq_some_iff.mp here
  rw [List.take_append_drop, List.take_succ_eq_append_getElem inside] at taken
  rw [locate, taken, List.getLastD_concat, List.length_append,
    List.length_take_of_le (Nat.le_of_lt inside), List.length_singleton]

/-- A right search for an offset tells its location. -/
theorem located_eq_locate {index : LineIndex} {offset : Nat} {search : Search}
    (increasing : index.starts.Pairwise (· < ·))
    (reports : search.Reports index.starts offset) :
    index.located offset search = index.locate offset := by
  cases search with
  | found place =>
    obtain ⟨inside, here⟩ := List.getElem?_eq_some_iff.mp reports
    have split : index.starts =
        index.starts.take place ++ offset :: index.starts.drop (place + 1) := by
      rw [← here, List.getElem_cons_drop, List.take_append_drop]
    rw [split, List.pairwise_append, List.pairwise_cons] at increasing
    obtain ⟨-, ⟨beyond, -⟩, before⟩ := increasing
    rw [locate_of_getElem? reports ?_ beyond, Nat.sub_self]
    · rfl
    · rw [List.take_succ_eq_append_getElem inside, here]
      refine List.forall_mem_append.mpr ⟨fun start member => ?_, fun start member => ?_⟩
      · exact Nat.le_of_lt (before start member offset List.mem_cons_self)
      · exact Nat.le_of_eq (List.mem_singleton.mp member)
  | absent place =>
    obtain ⟨within, lesser, greater⟩ := reports
    cases place with
    | zero =>
      have taken : index.starts.takeWhile (· ≤ offset) = [] :=
        takeWhile_append (List.forall_mem_nil _) greater
      rw [locate, taken]
      rfl
    | succ place =>
      have here := List.getElem?_eq_getElem within
      rw [locate_of_getElem? here (fun start member => Nat.le_of_lt (lesser start member)) greater,
        located, List.getD_eq_getElem?_getD, here, Option.getD_some]

/-- The location of an offset says how many line feeds stand before it and how many bytes ago its
line started, past the end of the source as well. -/
theorem exists_lineStart (source : List Char) (offset : Nat) :
    ∃ start, LineStart (source.flatMap String.utf8EncodeChar) offset start ∧
      (ofSource source).locate offset =
        ⟨1 + ((source.flatMap String.utf8EncodeChar).take offset).count lineFeed,
          1 + (offset - start)⟩ := by
  have starts : (ofSource source).starts = breaksFrom 0 (source.flatMap String.utf8EncodeChar) :=
    startsFrom_eq_breaksFrom 0 source
  have taken := takeWhile_breaksFrom 0 offset (source.flatMap String.utf8EncodeChar)
  rw [Nat.zero_add] at taken
  refine ⟨_, (lineStart_length _).of_take, ?_⟩
  rw [locate, starts, taken, length_breaksFrom, Nat.add_comm 1, Nat.add_comm 1]

/-! ### Words -/

/-- The greatest word in a source of a single line. -/
def Overflows (source : List Char) (offset : UInt64) : Prop :=
  offset = 18446744073709551615 ∧ '\n' ∉ source

theorem column_locate_pos (index : LineIndex) (offset : Nat) : 0 < (index.locate offset).column :=
  Nat.succ_pos _

section Words

-- No text in memory is longer.
variable {source : List Char} (fits : byteLength source < 2 ^ 63)

include fits

/-- Lines have numbers in words, and so have columns, but for the one behind the greatest word. -/
theorem locateWord_eq (offset : UInt64) :
    (ofSource source).locateWord offset =
      ⟨((ofSource source).locate offset.toNat).line,
        ((ofSource source).locate offset.toNat).column % 2 ^ 64⟩ := by
  have lines := (List.takeWhile_prefix (l := (ofSource source).starts)
    (· ≤ offset.toNat)).length_le
  have breaks : (ofSource source).starts.length = source.count '\n' := length_startsFrom 0 source
  have few : source.count '\n' ≤ source.length := List.count_le_length
  have bytes := length_le_byteLength source
  have start := lastStart_le (ofSource source).starts offset.toNat
  have word := offset.toNat_lt
  unfold locateWord locate
  dsimp only
  generalize (ofSource source).starts.takeWhile (· ≤ offset.toNat) = before at lines start ⊢
  have line : (UInt64.ofNat before.length).toNat = before.length :=
    UInt64.toNat_ofNat_of_lt' (by rw [UInt64.size]; omega)
  have begins : (UInt64.ofNat (before.getLastD 0)).toNat = before.getLastD 0 :=
    UInt64.toNat_ofNat_of_lt' (by rw [UInt64.size]; omega)
  have column : (offset - UInt64.ofNat (before.getLastD 0)).toNat =
      offset.toNat - before.getLastD 0 := by
    rw [UInt64.toNat_sub_of_le _ _ (UInt64.le_iff_toNat_le.mpr (begins.symm ▸ start)), begins]
  rw [UInt64.toNat_add, UInt64.toNat_add, line, column, UInt64.toNat_one]
  exact congrArg (Location.mk · _) (Nat.mod_eq_of_lt (by omega))

/-- Behind a line break, every column is a word. -/
theorem column_locate_lt {offset : UInt64} (inWords : ¬ Overflows source offset) :
    ((ofSource source).locate offset.toNat).column < 2 ^ 64 := by
  have word := offset.toNat_lt
  rw [locate]
  dsimp only
  by_cases greatest : offset = 18446744073709551615
  · have isBreak : '\n' ∈ source := by
      by_contra single
      exact inWords ⟨greatest, single⟩
    have isLast : offset.toNat = 18446744073709551615 := congrArg UInt64.toNat greatest
    have bounds {start : Nat} (member : start ∈ startsFrom 0 source) :
        0 < start ∧ start ≤ offset.toNat := by
      obtain ⟨positive, within⟩ := mem_startsFrom member
      exact ⟨positive, by omega⟩
    have taken : (ofSource source).starts.takeWhile (· ≤ offset.toNat) = startsFrom 0 source :=
      List.takeWhile_eq_self_iff.mpr fun start member => decide_eq_true (bounds member).2
    have some : startsFrom 0 source ≠ [] := by
      rw [← List.length_pos_iff, length_startsFrom]
      exact List.count_pos_iff.mpr isBreak
    obtain ⟨front, last, split⟩ := (List.eq_nil_or_concat (startsFrom 0 source)).resolve_left some
    have isStart : last ∈ startsFrom 0 source := by simp [split]
    have positive := (bounds isStart).1
    rw [taken, split, List.concat_eq_append, List.getLastD_concat]
    omega
  · have less : offset.toNat ≠ 18446744073709551615 := fun same =>
      greatest (UInt64.toNat_inj.mp same)
    omega

/-- In words an offset is located as a number is, unless its column is no word. -/
theorem locateWord_eq_locate {offset : UInt64} (inWords : ¬ Overflows source offset) :
    (ofSource source).locateWord offset = (ofSource source).locate offset.toNat := by
  rw [locateWord_eq fits, Nat.mod_eq_of_lt (column_locate_lt fits inWords)]

/-- The places of a source itself are located in words as they are in numbers. -/
theorem locateWord_ofNat {offset : Nat} (inside : offset ≤ byteLength source) :
    (ofSource source).locateWord (.ofNat offset) = (ofSource source).locate offset := by
  have word : (UInt64.ofNat offset).toNat = offset :=
    UInt64.toNat_ofNat_of_lt' (by rw [UInt64.size]; omega)
  have inWords : ¬ Overflows source (.ofNat offset) := by
    rintro ⟨greatest, -⟩
    rw [greatest] at word
    have isGreatest : offset = 18446744073709551615 := word.symm
    omega
  rw [locateWord_eq_locate fits inWords, word]

theorem locateWord_of_overflows {offset : UInt64} (overflows : Overflows source offset) :
    (ofSource source).locateWord offset = ⟨1, 0⟩ := by
  obtain ⟨rfl, single⟩ := overflows
  have none : (ofSource source).starts = [] := by
    rw [← List.length_eq_zero_iff]
    exact (length_startsFrom 0 source).trans (List.count_eq_zero.mpr single)
  rw [locateWord_eq fits, locate, none]
  rfl

theorem locateWord_lt_locateWord {first second : UInt64} (lt : first < second)
    (inWords : ¬ Overflows source second) :
    (ofSource source).locateWord first < (ofSource source).locateWord second := by
  have ordered := UInt64.lt_iff_toNat_lt.mp lt
  have before : ¬ Overflows source first := by
    rintro ⟨rfl, -⟩
    exact absurd second.toNat_lt (Nat.not_lt.mpr ordered)
  rw [locateWord_eq_locate fits before, locateWord_eq_locate fits inWords]
  exact locate_lt_locate _ ordered

/-- No two words share a location, not even the one whose column is no word. -/
theorem locateWord_injective : Function.Injective (ofSource source).locateWord := by
  have apart {first second : UInt64} (overflows : Overflows source first)
      (inWords : ¬ Overflows source second) :
      (ofSource source).locateWord first ≠ (ofSource source).locateWord second := by
    rw [locateWord_of_overflows fits overflows, locateWord_eq_locate fits inWords]
    intro same
    exact absurd (congrArg Location.column same) (column_locate_pos _ _).ne
  intro first second same
  by_cases overflows : Overflows source first
  · by_cases both : Overflows source second
    · exact overflows.1.trans both.1.symm
    · exact absurd same (apart overflows both)
  · by_cases other : Overflows source second
    · exact absurd same.symm (apart other overflows)
    · rw [locateWord_eq_locate fits overflows, locateWord_eq_locate fits other] at same
      exact UInt64.toNat_inj.mp (locate_injective _ same)

end Words

end LineIndex

end ProtoSchema
