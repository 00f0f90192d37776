/-
This file says which number an integer literal spells, by its digits alone: the
place of each digit among the sixteen, and the weight of its position in the base
that the front of the literal tells. A literal that is scanned by itself is one
token with that number, or one fault over all of it if the number is too large.
An integer that is read from a longer text spells its value there, but for digits
that are read as zero because the second of them is not octal.
-/

import Mathlib.Data.List.Induction
import Mathlib.Data.List.TakeWhile
import Mathlib.Data.Nat.Digits.Defs
import ProtoSchema.Proofs.Scanning.Edge
import ProtoSchema.Proofs.Scanning.Suffixes

namespace ProtoSchema

/-- The digits of every base up to sixteen, each at the place that is its value. -/
def digitCharacters : List Char :=
  ['0', '1', '2', '3', '4', '5', '6', '7', '8', '9', 'a', 'b', 'c', 'd', 'e', 'f']

/-- The value of a digit in either case; it is sixteen for what is no digit. -/
def placeValue (digit : Char) : Nat :=
  digitCharacters.idxOf digit.toLower

/-- The number that digits spell in a base, the most significant first. -/
def spelledNumber (base : Nat) (digits : List Char) : Nat :=
  Nat.ofDigits base (digits.reverse.map placeValue)

/-- The integer literals with the numbers they spell: zero, decimal digits that do not start with a
zero, octal digits behind a zero, and hexadecimal digits behind a zero and an `x`. -/
inductive SpellsInteger : List Char → Nat → Prop where
  | zero : SpellsInteger ['0'] 0
  | decimal (first : Char) (more : List Char) (noZero : first ≠ '0')
      (digits : ∀ digit ∈ first :: more, placeValue digit < 10) :
      SpellsInteger (first :: more) (spelledNumber 10 (first :: more))
  | octal (digits : List Char) (some : digits ≠ [])
      (octal : ∀ digit ∈ digits, placeValue digit < 8) :
      SpellsInteger ('0' :: digits) (spelledNumber 8 digits)
  | hexadecimal (mark : Char) (isMark : mark = 'x' ∨ mark = 'X') (digits : List Char)
      (some : digits ≠ []) (hexadecimal : ∀ digit ∈ digits, placeValue digit < 16) :
      SpellsInteger ('0' :: mark :: digits) (spelledNumber 16 digits)

/-! ### Digits -/

/-- A character beyond ASCII is no digit, whether told by its code or by its place. -/
theorem isHexDigit_eq_false_of_le {character : Char} (beyond : 128 ≤ character.toNat) :
    isHexDigit character = false := by
  refine Bool.eq_false_iff.mpr fun hex => ?_
  rcases isAlpha_or_isDigit_of_isHexDigit hex with alpha | digit
  · have := (toNat_of_isAlpha alpha).2
    omega
  · have := (toNat_of_isDigit digit).2
    omega

theorem placeValue_eq_of_le {character : Char} (beyond : 128 ≤ character.toNat) :
    placeValue character = 16 := by
  have same : character.toLower = character := by
    refine dif_neg fun upper => ?_
    exact absurd (beyond.trans (UInt32.le_iff_toNat_le.mp upper.2)) (by decide)
  have ascii : digitCharacters.all (·.toNat < 128) = true := rfl
  rw [placeValue, same]
  refine List.idxOf_eq_length fun member => ?_
  have low := of_decide_eq_true (List.all_eq_true.mp ascii character member)
  exact absurd beyond (Nat.not_le_of_lt low)

/-- The place of a character among the digits tells of what base it is a digit, and its value. -/
structure ToldByPlace (character : Char) : Prop where
  octal : isOctalDigit character = true ↔ placeValue character < 8
  decimal : character.isDigit = true ↔ placeValue character < 10
  hexadecimal : isHexDigit character = true ↔ placeValue character < 16
  value : placeValue character < 16 → digitValue character = placeValue character
  size : placeValue character < 16 → character.utf8Size = 1

theorem toldByPlace_ascii : ∀ code : Fin 128, let character := Char.ofNat code
    (isOctalDigit character = true ↔ placeValue character < 8) ∧
      (character.isDigit = true ↔ placeValue character < 10) ∧
      (isHexDigit character = true ↔ placeValue character < 16) ∧
      (placeValue character < 16 →
        digitValue character = placeValue character ∧ character.utf8Size = 1) := by
  decide +kernel

theorem toldByPlace (character : Char) : ToldByPlace character := by
  by_cases low : character.toNat < 128
  · have table := toldByPlace_ascii ⟨character.toNat, low⟩
    dsimp only at table
    rw [Char.ofNat_toNat] at table
    obtain ⟨octal, decimal, hexadecimal, digit⟩ := table
    exact ⟨octal, decimal, hexadecimal, fun small => (digit small).1, fun small => (digit small).2⟩
  · have noDigit := isHexDigit_eq_false_of_le (Nat.le_of_not_lt low)
    have place := placeValue_eq_of_le (Nat.le_of_not_lt low)
    have noDecimal : character.isDigit ≠ true := fun decimal => by
      rw [isHexDigit, decimal] at noDigit
      cases noDigit
    have noOctal : isOctalDigit character ≠ true := mt isDigit_of_isOctalDigit noDecimal
    constructor
    · exact iff_of_false noOctal (by omega)
    · exact iff_of_false noDecimal (by omega)
    · exact iff_of_false (Bool.eq_false_iff.mp noDigit) (by omega)
    · exact fun small => absurd small (by omega)
    · exact fun small => absurd small (by omega)

section Digits

variable {base : Nat} {digits : List Char}

theorem all_isOctalDigit_iff :
    digits.all isOctalDigit = true ↔ ∀ digit ∈ digits, placeValue digit < 8 := by
  simp only [List.all_eq_true, (toldByPlace _).octal]

theorem all_isDigit_iff :
    digits.all Char.isDigit = true ↔ ∀ digit ∈ digits, placeValue digit < 10 := by
  simp only [List.all_eq_true, (toldByPlace _).decimal]

theorem all_isHexDigit_iff :
    digits.all isHexDigit = true ↔ ∀ digit ∈ digits, placeValue digit < 16 := by
  simp only [List.all_eq_true, (toldByPlace _).hexadecimal]

/-- Digits are read one by one from the left; what they are read as is the number they spell. -/
theorem numeralValue_eq_spelledNumber (all : ∀ digit ∈ digits, placeValue digit < base)
    (small : base ≤ 16) : numeralValue base digits = spelledNumber base digits := by
  induction digits using List.reverseRecOn with
  | nil => rfl
  | append_singleton digits last inductionHypothesis =>
    have before := inductionHypothesis fun digit member => all digit (List.mem_append_left _ member)
    have isLast := (toldByPlace last).value ((all last List.mem_concat_self).trans_le small)
    have spelled : spelledNumber base (digits ++ [last]) =
        placeValue last + base * spelledNumber base digits := by
      rw [spelledNumber, List.reverse_append, List.reverse_singleton, List.singleton_append,
        List.map_cons, Nat.ofDigits_cons, spelledNumber]
    rw [numeralValue_append, before, List.foldl_cons, List.foldl_nil, isLast, spelled, Nat.add_comm,
      Nat.mul_comm]

theorem byteLength_of_placeValue (all : ∀ digit ∈ digits, placeValue digit < 16) :
    byteLength digits = digits.length := by
  induction digits with
  | nil => rfl
  | cons first rest inductionHypothesis =>
    obtain ⟨isFirst, others⟩ := List.forall_mem_cons.mp all
    rw [byteLength_cons, (toldByPlace first).size isFirst, inductionHypothesis others,
      List.length_cons, Nat.add_comm]

end Digits

/-! ### Literals -/

namespace SpellsInteger

variable {text : List Char} {value : Nat}

theorem exists_cons (spelled : SpellsInteger text value) :
    ∃ first more, text = first :: more ∧ first.isDigit = true := by
  cases spelled with
  | zero => exact ⟨'0', [], rfl, rfl⟩
  | decimal first more _ digits =>
    exact ⟨first, more, rfl, (toldByPlace first).decimal.mpr (digits first List.mem_cons_self)⟩
  | octal digits => exact ⟨'0', digits, rfl, rfl⟩
  | hexadecimal mark _ digits => exact ⟨'0', mark :: digits, rfl, rfl⟩

/-- A literal has as many bytes as characters. -/
theorem byteLength_eq (spelled : SpellsInteger text value) : byteLength text = text.length := by
  cases spelled with
  | zero => rfl
  | decimal first more _ digits =>
    exact byteLength_of_placeValue fun digit member => (digits digit member).trans (by decide)
  | octal digits _ octal =>
    refine byteLength_of_placeValue (List.forall_mem_cons.mpr ⟨by decide, fun digit member => ?_⟩)
    exact (octal digit member).trans (by decide)
  | hexadecimal mark isMark digits _ hexadecimal =>
    have size : mark.utf8Size = 1 := by rcases isMark with rfl | rfl <;> rfl
    have zero : '0'.utf8Size = 1 := rfl
    rw [byteLength_cons, byteLength_cons, size, zero, byteLength_of_placeValue hexadecimal,
      List.length_cons, List.length_cons, ← Nat.add_assoc, Nat.add_comm]

/-- A literal by itself is read to its end as the number it spells. -/
theorem read_eq (spelled : SpellsInteger text value) :
    ∃ exempt, Numeral.read text = ⟨text.length, .int value, exempt⟩ := by
  cases spelled with
  | zero => exact ⟨false, rfl⟩
  | decimal first more noZero digits =>
    have taken : (first :: more).takeWhile Char.isDigit = first :: more :=
      List.takeWhile_eq_self_iff.mpr fun digit member =>
        (toldByPlace digit).decimal.mpr (digits digit member)
    have isInt : Numeral.int (first :: more) [] =
        ⟨(first :: more).length, .int (numeralValue 10 (first :: more)), true⟩ := by
      unfold Numeral.int
      split
      · next same => exact absurd (List.cons.inj same).1 noZero
      · next same => exact absurd (List.cons.inj same).1 noZero
      · rfl
    rw [numeralValue_eq_spelledNumber digits (by decide)] at isInt
    refine ⟨true, ?_⟩
    rw [Numeral.read, taken, List.drop_length]
    exact isInt
  | octal digits some octal =>
    obtain ⟨first, more, rfl⟩ := List.exists_cons_of_ne_nil some
    have isOctal : ∀ digit ∈ first :: more, isOctalDigit digit = true := fun digit member =>
      (toldByPlace digit).octal.mpr (octal digit member)
    have decimal : ('0' :: first :: more).takeWhile Char.isDigit = '0' :: first :: more :=
      List.takeWhile_eq_self_iff.mpr (List.forall_mem_cons.mpr ⟨rfl, fun digit member =>
        isDigit_of_isOctalDigit (isOctal digit member)⟩)
    have isInt : Numeral.int ('0' :: first :: more) [] =
        ⟨('0' :: first :: more).length, .int (numeralValue 8 (first :: more)), true⟩ := by
      obtain ⟨here, others⟩ := List.forall_mem_cons.mp isOctal
      rw [Numeral.int, if_pos here, if_pos (List.all_eq_true.mpr others)]
    rw [numeralValue_eq_spelledNumber octal (by decide)] at isInt
    refine ⟨true, ?_⟩
    rw [Numeral.read, decimal, List.drop_length]
    exact isInt
  | hexadecimal mark isMark digits some hexadecimal =>
    have taken : digits.takeWhile isHexDigit = digits := List.takeWhile_eq_self_iff.mpr
      fun digit member => (toldByPlace digit).hexadecimal.mpr (hexadecimal digit member)
    obtain ⟨first, more, rfl⟩ := List.exists_cons_of_ne_nil some
    have isInt : Numeral.read ('0' :: mark :: first :: more) =
        ⟨2 + (first :: more).length, .int (numeralValue 16 (first :: more)), true⟩ := by
      rcases isMark with rfl | rfl
      all_goals
        simp [Numeral.read, Numeral.float?, Numeral.exponentLength, Numeral.int, Numeral.hexDigits,
          taken]
    rw [numeralValue_eq_spelledNumber hexadecimal (by decide), Nat.add_comm] at isInt
    exact ⟨true, isInt⟩

end SpellsInteger

/-- An integer literal by itself is one token with the number it spells, or one fault over all of it
if the number does not fit a token. -/
theorem scan_integer {text : List Char} {value : Nat} (spelled : SpellsInteger text value) :
    scan text =
      if value < 2 ^ 64 then
        .pieces [⟨.token (.int (UInt64.ofNat value)), ⟨0, byteLength text⟩⟩]
      else .faulty ⟨.integerTooLarge, ⟨0, byteLength text⟩⟩ [] := by
  obtain ⟨exempt, isRead⟩ := spelled.read_eq
  have length := spelled.byteLength_eq
  obtain ⟨first, more, rfl, digit⟩ := spelled.exists_cons
  have front : Front.read 0 first (more ++ []) =
      .element (.token (Numeral.token ⟨(first :: more).length, .int value, exempt⟩))
        (more.length + 1)
        (if value < 2 ^ 64 then []
          else [⟨.integerTooLarge, ⟨0, byteLength (first :: more)⟩⟩]) := by
    rw [List.append_nil, Front.read_of_isDigit digit, Front.number, isRead, List.drop_length,
      length, Numeral.faults]
    simp [Numeral.trailingIdentifier, Numeral.intBound]
  have all := Scanned.all_element front
  rw [List.append_nil, Scanned.all, Nat.zero_add] at all
  rw [scan, all]
  by_cases small : value < 2 ^ 64
  · have token : Numeral.token ⟨(first :: more).length, .int value, exempt⟩ =
        .int (UInt64.ofNat value) := congrArg Token.int (if_pos small)
    rw [if_pos small, if_pos small, token]
    rfl
  · rw [if_neg small, if_neg small]
    rfl

/-- The greatest number that fits, with zeros before its digits, and the next one. -/
theorem scan_integer_bound :
    scan "0X000ffffFFFFffffFFFF".toList =
        .pieces [⟨.token (.int 18446744073709551615), ⟨0, 21⟩⟩] ∧
      scan "02000000000000000000000".toList = .faulty ⟨.integerTooLarge, ⟨0, 23⟩⟩ [] := by
  have largest : SpellsInteger "0X000ffffFFFFffffFFFF".toList 18446744073709551615 :=
    .hexadecimal 'X' (.inr rfl) "000ffffFFFFffffFFFF".toList (by decide)
      (all_isHexDigit_iff.mp rfl)
  have next : SpellsInteger "02000000000000000000000".toList 18446744073709551616 :=
    .octal "2000000000000000000000".toList (by decide) (all_isOctalDigit_iff.mp rfl)
  exact ⟨scan_integer largest, scan_integer next⟩

/-- Digits behind a zero of which the first is octal and not all are, are one fault over all of
them. -/
theorem scan_misspelled {second : Char} {more : List Char} (octal : isOctalDigit second = true)
    (digits : more.all Char.isDigit = true) (wrong : more.all isOctalDigit = false) :
    scan ('0' :: second :: more) = .faulty ⟨.integerTooLarge, ⟨0, more.length + 2⟩⟩ [] := by
  have decimal : ('0' :: second :: more).all Char.isDigit = true := by
    rw [List.all_cons, List.all_cons, isDigit_of_isOctalDigit octal, digits]
    rfl
  have taken : ('0' :: second :: more).takeWhile Char.isDigit = '0' :: second :: more :=
    List.takeWhile_eq_self_iff.mpr (List.all_eq_true.mp decimal)
  have isInt : Numeral.int ('0' :: second :: more) [] =
      ⟨more.length + 2, .misspelled, true⟩ := by
    rw [Numeral.int, if_pos octal, if_neg (Bool.eq_false_iff.mp wrong)]
    rfl
  have isRead : Numeral.read ('0' :: second :: more) = ⟨more.length + 2, .misspelled, true⟩ := by
    rw [Numeral.read, taken, List.drop_length]
    exact isInt
  have front : Front.read 0 '0' ((second :: more) ++ []) =
      .element (.token (.int 0)) ((second :: more).length + 1)
        [⟨.integerTooLarge, ⟨0, more.length + 2⟩⟩] := by
    rw [List.append_nil, Front.read_of_isDigit rfl, Front.number, isRead]
    simp [Numeral.faults, Numeral.token, Numeral.trailingIdentifier]
  have all := Scanned.all_element front
  rw [List.append_nil, Scanned.all] at all
  rw [scan, all]
  rfl

example : scan "0789".toList = .faulty ⟨.integerTooLarge, ⟨0, 4⟩⟩ [] := by cbv

/-! ### Integers in a longer text -/

namespace Numeral

variable {after : List Char}

/-- Hexadecimal digits stand behind a mark. -/
theorem exists_mark_of_hexDigits (some : hexDigits after ≠ []) :
    ∃ mark rest, after = mark :: hexDigits after ++ rest ∧ (mark = 'x' ∨ mark = 'X') ∧
      (hexDigits after).all isHexDigit = true := by
  cases after with
  | nil => exact absurd rfl some
  | cons mark behind =>
    rw [hexDigits] at some ⊢
    split_ifs at some ⊢ with isMark
    · refine ⟨mark, behind.dropWhile isHexDigit, ?_, isMark, List.all_takeWhile⟩
      rw [List.cons_append, List.takeWhile_append_dropWhile]
    · exact absurd rfl some

/-- An integer that is checked for what follows it is the number that its characters spell. -/
theorem spellsInteger_of_int {digits : List Char} {value : Nat} (some : digits ≠ [])
    (all : digits.all Char.isDigit = true)
    (checked : (int digits after).endsBeforeIdentifier = true)
    (found : (int digits after).value = .int value) :
    SpellsInteger ((digits ++ after).take (int digits after).length) value := by
  generalize same : int digits after = numeral at checked found ⊢
  unfold int at same
  split at same
  · split at same
    · subst same
      cases checked
    · next noHex =>
      subst same
      obtain ⟨mark, rest, isAfter, isMark, hexadecimal⟩ := exists_mark_of_hexDigits noHex
      have digits := all_isHexDigit_iff.mp hexadecimal
      have text : ['0'] ++ after = '0' :: mark :: hexDigits after ++ rest :=
        congrArg (['0'] ++ ·) isAfter
      rw [text, List.take_left' (Nat.add_comm _ 2), ← NumeralValue.int.inj found,
        numeralValue_eq_spelledNumber digits (by decide)]
      exact .hexadecimal mark isMark _ noHex digits
  · next second more =>
    split at same
    · next octal =>
      subst same
      dsimp only at found
      split at found
      · next others =>
        have digits : ∀ digit ∈ second :: more, placeValue digit < 8 :=
          all_isOctalDigit_iff.mp (by rw [List.all_cons, octal, others]; rfl)
        rw [List.take_left, ← NumeralValue.int.inj found,
          numeralValue_eq_spelledNumber digits (by decide)]
        exact .octal _ (List.cons_ne_nil second more) digits
      · cases found
    · subst same
      cases checked
  · next noSingle noZero =>
    subst same
    obtain ⟨first, more, rfl⟩ := List.exists_cons_of_ne_nil some
    have decimal := all_isDigit_iff.mp all
    rw [List.take_left, ← NumeralValue.int.inj found,
      numeralValue_eq_spelledNumber decimal (by decide)]
    refine .decimal first more ?_ decimal
    rintro rfl
    cases more with
    | nil => exact noSingle rfl
    | cons second others => exact noZero second others rfl

theorem exists_float_of_float? {whole after : List Char} {numeral : Numeral}
    (found : float? whole after = some numeral) : ∃ value, numeral.value = .float value := by
  unfold float? at found
  split at found
  · obtain rfl := Option.some.inj found
    exact ⟨_, rfl⟩
  · dsimp only at found
    split at found
    · cases found
    · obtain rfl := Option.some.inj found
      exact ⟨_, rfl⟩

/-- A number is a float, or it is read as an integer from all decimal digits at its front. -/
theorem read_cases {first : Char} (starts : first.isDigit = true ∨ first = '.')
    (rest : List Char) :
    (∃ value, (read (first :: rest)).value = .float value) ∨
      ∃ digits after, first :: rest = digits ++ after ∧ digits ≠ [] ∧
        digits.all Char.isDigit = true ∧ read (first :: rest) = int digits after := by
  unfold read
  dsimp only
  cases isFloat : float? ((first :: rest).takeWhile Char.isDigit)
      ((first :: rest).drop ((first :: rest).takeWhile Char.isDigit).length) with
  | some numeral => exact .inl (exists_float_of_float? isFloat)
  | none =>
    rcases starts with digit | rfl
    · refine .inr ⟨_, _, ?_, ?_, List.all_takeWhile, rfl⟩
      · exact (List.prefix_iff_eq_append.mp (List.takeWhile_prefix _)).symm
      · rw [List.takeWhile_cons_of_pos digit]
        exact List.cons_ne_nil _ _
    · cases isFloat

/-- What is read as an integer is the number that its characters spell, or a zero literal. -/
theorem spellsInteger_of_read {first : Char} (starts : first.isDigit = true ∨ first = '.')
    {rest : List Char} {value : Nat} (found : (read (first :: rest)).value = .int value) :
    SpellsInteger ((first :: rest).take (read (first :: rest)).length) value ∨
      value = 0 ∧ ZeroLiteral ((first :: rest).take (read (first :: rest)).length) := by
  by_cases checked : (read (first :: rest)).endsBeforeIdentifier = true
  · refine .inl ?_
    rcases read_cases starts rest with ⟨float, isFloat⟩ | ⟨digits, after, same, some, all, isInt⟩
    · cases isFloat.symm.trans found
    · rw [isInt] at checked found ⊢
      rw [same]
      exact spellsInteger_of_int some all checked found
  · obtain ⟨isZero, same⟩ := zeroLiteral_of_read (Bool.eq_false_iff.mpr checked)
    rw [same] at found
    exact .inr ⟨(NumeralValue.int.inj found).symm, isZero⟩

theorem faults_ne_nil_of_misspelled {numeral : Numeral} (wrong : numeral.value = .misspelled)
    (offset : Nat) (after : List Char) : numeral.faults offset after ≠ [] := by
  unfold faults
  rw [wrong]
  exact List.append_ne_nil_of_right_ne_nil _ (List.cons_ne_nil _ _)

/-- An integer without a fault fits its token. -/
theorem token_eq_of_faults {numeral : Numeral} {offset : Nat} {after : List Char}
    {value : Nat} (isInt : numeral.value = .int value) (none : numeral.faults offset after = []) :
    ∃ fits : UInt64, numeral.token = .int fits ∧ fits.toNat = value := by
  have small : value < intBound := by
    by_contra large
    unfold faults at none
    dsimp only at none
    rw [isInt] at none
    dsimp only at none
    rw [if_neg large] at none
    exact absurd none (by simp)
  refine ⟨UInt64.ofNat value, ?_, UInt64.toNat_ofNat_of_lt' small⟩
  rw [token, isInt]
  exact congrArg Token.int (if_pos small)

end Numeral

/-- An integer stands in the source where its span says and is the number that is spelled there, but
for a zero literal, which is always zero. -/
def SpelledOut (source : List Char) (value : UInt64) (span : Span) : Prop :=
  ∃ before text behind, source = before ++ text ++ behind ∧
    span = ⟨byteLength before, byteLength (before ++ text)⟩ ∧
    (SpellsInteger text value.toNat ∨ value = 0 ∧ ZeroLiteral text)

theorem spelledOut_of_scan {source : List Char} {pieces : List Piece}
    (scanned : scan source = .pieces pieces) :
    ∀ piece ∈ pieces, ∀ value, piece.element = .token (.int value) →
      SpelledOut source value piece.span := by
  intro piece member value isToken
  obtain ⟨left, first, rest, same, starts, isRead, faultless, span⟩ :=
    exists_numeral_of_scan scanned member isToken (.inl ⟨value, rfl⟩)
  refine ⟨left, (first :: rest).take (Numeral.read (first :: rest)).length,
    (first :: rest).drop (Numeral.read (first :: rest)).length, ?_, span, ?_⟩
  · rw [List.append_assoc, List.take_append_drop, same]
  · cases isNumber : (Numeral.read (first :: rest)).value with
    | float float =>
      rw [Numeral.token, isNumber] at isRead
      cases isRead
    | misspelled =>
      exact absurd faultless (Numeral.faults_ne_nil_of_misspelled isNumber _ _)
    | int number =>
      obtain ⟨fits, isFits, rfl⟩ := Numeral.token_eq_of_faults isNumber faultless
      obtain rfl := Token.int.inj (isRead.trans isFits)
      refine (Numeral.spellsInteger_of_read starts isNumber).imp_right (And.imp_left fun zero => ?_)
      exact UInt64.toNat_inj.mp zero

end ProtoSchema
