/-
This file proves that numbers in canonical form spell themselves: an integer by
its decimal digits, and a magnitude by its shortest text, whichever layout the
text has. A number ends before a character that is part of no identifier and is
no point.
-/

import ProtoSchema.Proofs.Number.Shortest
import ProtoSchema.Proofs.Scanning.Spelling

namespace ProtoSchema

/-! ### Digits -/

theorem isBlank_of_isDigit {character : Char} (digit : character.isDigit = true) :
    isBlank character = false := by
  refine Bool.eq_false_iff.mpr fun blank => ?_
  simp only [isBlank, Bool.or_eq_true, decide_eq_true_eq] at blank
  rcases blank with (((rfl | rfl) | rfl) | rfl) | rfl <;> exact absurd digit (by decide)

theorem ne_newline_of_isDigit {character : Char} (digit : character.isDigit = true) :
    character ≠ '\n' := by
  rintro rfl
  exact absurd digit (by decide)

theorem isIdentifierStart_of_isDigit {character : Char} (digit : character.isDigit = true) :
    isIdentifierStart character = false := by
  refine Bool.eq_false_iff.mpr fun start => ?_
  simp only [isIdentifierStart, Bool.or_eq_true, decide_eq_true_eq] at start
  rcases start with alpha | rfl
  · have range := toNat_of_isDigit digit
    have letters := toNat_of_isAlpha alpha
    omega
  · exact absurd digit (by decide)

theorem isIdentifierPart_of_isDigit {character : Char} (digit : character.isDigit = true) :
    isIdentifierPart character = true := by
  simp [isIdentifierPart, Char.isAlphanum, digit]

theorem digitValue_of_isDigit {character : Char} (digit : character.isDigit = true) :
    digitValue character = character.toNat - '0'.toNat := if_pos digit

/-- The value of decimal digits. -/
theorem numeralValue_eq_ofDigitChars (digits : List Char) (all : digits.all Char.isDigit = true) :
    numeralValue 10 digits = Nat.ofDigitChars 10 digits 0 := by
  simp only [numeralValue, Nat.ofDigitChars]
  generalize 0 = value
  induction digits generalizing value with
  | nil => rfl
  | cons digit rest inductionHypothesis =>
    rw [List.all_cons, Bool.and_eq_true] at all
    rw [List.foldl_cons, List.foldl_cons, digitValue_of_isDigit all.1, Nat.mul_comm]
    exact inductionHypothesis all.2 _

theorem numeralValue_append (base : Nat) (left right : List Char) :
    numeralValue base (left ++ right) =
      right.foldl (fun value digit => value * base + digitValue digit) (numeralValue base left) := by
  simp [numeralValue]

/-- Zeros after digits multiply their value. -/
theorem numeralValue_append_zeros (digits : List Char) (count : Nat) :
    numeralValue 10 (digits ++ List.replicate count '0') = numeralValue 10 digits * 10 ^ count := by
  induction count with
  | zero => simp
  | succ count inductionHypothesis =>
    rw [List.replicate_succ', ← List.append_assoc, numeralValue_append, inductionHypothesis]
    simp only [List.foldl_cons, List.foldl_nil]
    rw [show digitValue '0' = 0 from rfl, Nat.add_zero, Nat.mul_assoc, ← Nat.pow_succ]

/-- Zeros before digits do not count. -/
theorem numeralValue_zeros_append (count : Nat) (digits : List Char) :
    numeralValue 10 (List.replicate count '0' ++ digits) = numeralValue 10 digits := by
  induction count with
  | zero => rfl
  | succ count inductionHypothesis =>
    rw [← inductionHypothesis]
    rfl

theorem all_isDigit_toDigits (number : Nat) : (Nat.toDigits 10 number).all Char.isDigit = true := by
  rw [List.all_eq_true]
  exact fun _ member => Nat.isDigit_of_mem_toDigits (by decide) (by decide) member

@[simp] theorem numeralValue_toDigits (number : Nat) :
    numeralValue 10 (Nat.toDigits 10 number) = number := by
  rw [numeralValue_eq_ofDigitChars _ (all_isDigit_toDigits number), Nat.ofDigitChars_ten_toDigits]

/-- The digits of a positive number do not start with a zero. -/
theorem head_toDigits_ne_zero (number : Nat) (positive : 0 < number) :
    (Nat.toDigits 10 number).head? ≠ some '0' := by
  induction number using Nat.strongRecOn with
  | ind number inductionHypothesis =>
    by_cases single : number < 10
    · rw [Nat.toDigits_of_lt_base single]
      have cases : number = 1 ∨ number = 2 ∨ number = 3 ∨ number = 4 ∨ number = 5 ∨ number = 6 ∨
          number = 7 ∨ number = 8 ∨ number = 9 := by omega
      rcases cases with rfl | rfl | rfl | rfl | rfl | rfl | rfl | rfl | rfl <;> decide
    · rw [Nat.toDigits_of_base_le (by decide) (Nat.le_of_not_lt single)]
      have front := inductionHypothesis (number / 10) (by omega) (by omega)
      obtain ⟨first, others, eq⟩ := List.exists_cons_of_ne_nil
        (Nat.toDigits_ne_nil (n := number / 10) (b := 10))
      rw [eq] at front ⊢
      exact front

/-! ### Reading at a number -/

/-- A text that starts with a digit is read as a number. -/
theorem Front.read_of_isDigit {character : Char} (digit : character.isDigit = true) (offset : Nat)
    (rest : List Char) : Front.read offset character rest = Front.number offset (character :: rest) := by
  simp only [Front.read, isBlank_of_isDigit digit, ne_newline_of_isDigit digit,
    isIdentifierStart_of_isDigit digit, digit, true_or, if_true, if_false, Bool.false_eq_true]

theorem trailingIdentifier_of_ends {rest : List Char} (ends : EndsNumber rest.head?) :
    Numeral.trailingIdentifier rest = [] := by
  cases rest with
  | nil => rfl
  | cons character rest =>
    have part := (ends character rfl).1
    have start : isIdentifierStart character = false := by
      refine Bool.eq_false_iff.mpr fun start => ?_
      rw [isIdentifierPart_of_isIdentifierStart start] at part
      cases part
    simp [Numeral.trailingIdentifier, start]

/-- The number itself is no fault. -/
def NumeralValue.Fits : NumeralValue → Prop
  | int value => value < Numeral.intBound
  | misspelled => False
  | float _ => True

/-- A text read as a numeral that fits spells the token of the numeral. -/
theorem Spells.numeral {text : List Char} {character : Char} (digit : character.isDigit = true)
    (value : NumeralValue) (token : Token)
    (isToken : ∀ length ends, Numeral.token ⟨length, value, ends⟩ = token)
    (fits : value.Fits)
    (read : ∀ rest, EndsNumber rest.head? → ∃ ends,
      Numeral.read (character :: text ++ rest) = ⟨text.length + 1, value, ends⟩) :
    Spells (character :: text) [token] EndsNumber := by
  refine Spells.element (.token token) fun offset rest ends => ?_
  obtain ⟨exempt, readEq⟩ := read rest ends
  rw [List.cons_append] at readEq
  have after : (character :: (text ++ rest)).drop (text.length + 1) = rest := by simp
  rw [Front.read_of_isDigit digit, Front.number, readEq, after, isToken]
  congr 1
  simp only [Numeral.faults, trailingIdentifier_of_ends ends, ne_eq, not_true_eq_false, and_false,
    if_false]
  cases value with
  | int whole =>
    have small : whole < Numeral.intBound := fits
    simp [small]
  | misspelled => exact fits.elim
  | float _ => rfl

/-! ### Integers -/

theorem takeWhile_isDigit_append {digits rest : List Char} (all : digits.all Char.isDigit = true)
    (ends : EndsNumber rest.head?) : (digits ++ rest).takeWhile Char.isDigit = digits := by
  refine takeWhile_append_of_ends Char.isDigit digits rest all fun character member => ?_
  refine Bool.eq_false_iff.mpr fun digit => ?_
  have part := (ends character member).1
  rw [isIdentifierPart_of_isDigit digit] at part
  cases part

/-- No exponent follows a number that has ended. -/
theorem exponentLength_of_ends {rest : List Char} (ends : EndsNumber rest.head?) :
    Numeral.exponentLength rest = 0 := by
  cases rest with
  | nil => rfl
  | cons character rest =>
    have part := (ends character rfl).1
    have noMark : ¬ (character = 'e' ∨ character = 'E') := by
      rintro (rfl | rfl) <;> exact absurd part (by decide)
    simp [Numeral.exponentLength, noMark]

/-- Digits that no point and no exponent follows are no float. -/
theorem float?_of_ends (digits : List Char) {rest : List Char} (ends : EndsNumber rest.head?) :
    Numeral.float? digits rest = none := by
  have exponent := exponentLength_of_ends ends
  simp only [Numeral.float?]
  split
  · next tail =>
    exact absurd rfl (ends '.' rfl).2
  · simp [exponent]

theorem hexDigits_of_ends {rest : List Char} (ends : EndsNumber rest.head?) :
    Numeral.hexDigits rest = [] := by
  cases rest with
  | nil => rfl
  | cons character rest =>
    have part := (ends character rfl).1
    have noMark : ¬ (character = 'x' ∨ character = 'X') := by
      rintro (rfl | rfl) <;> exact absurd part (by decide)
    simp [Numeral.hexDigits, noMark]

/-- The decimal digits of a number are read as it. -/
theorem Numeral.read_toDigits (number : Nat) {rest : List Char} (ends : EndsNumber rest.head?) :
    ∃ exempt, Numeral.read (Nat.toDigits 10 number ++ rest) =
      ⟨(Nat.toDigits 10 number).length, .int number, exempt⟩ := by
  simp only [Numeral.read, takeWhile_isDigit_append (all_isDigit_toDigits number) ends,
    List.drop_left, float?_of_ends _ ends, Option.getD_none]
  rcases Nat.eq_zero_or_pos number with rfl | positive
  · exact ⟨false, by simp [Nat.toDigits_zero, Numeral.int, hexDigits_of_ends ends, Numeral.zero]⟩
  · have head := head_toDigits_ne_zero number positive
    refine ⟨true, ?_⟩
    simp only [Numeral.int]
    split
    · next eq => exact absurd (by rw [eq]; rfl) head
    · next eq => exact absurd (by rw [eq]; rfl) head
    · rw [numeralValue_toDigits]

/-- An integer is spelled by its decimal digits. -/
theorem spells_int (value : UInt64) :
    Spells (Nat.toDigits 10 value.toNat) [.int value] EndsNumber := by
  obtain ⟨first, others, eq⟩ := List.exists_cons_of_ne_nil
    (Nat.toDigits_ne_nil (n := value.toNat) (b := 10))
  have digit : first.isDigit = true := by
    have all := all_isDigit_toDigits value.toNat
    rw [eq, List.all_cons, Bool.and_eq_true] at all
    exact all.1
  have small : value.toNat < Numeral.intBound := value.toNat_lt
  rw [eq]
  refine Spells.numeral digit (.int value.toNat) _ ?_ small fun rest ends => ?_
  · intro length exempt
    simp [Numeral.token, small]
  · have read := Numeral.read_toDigits value.toNat ends
    rwa [eq] at read

/-! ### Floats -/

/-- A text is the exponent of a number wherever the number ends, and has a value. -/
structure IsExponent (exponent : List Char) (value : Int) : Prop where
  length_eq : ∀ rest : List Char, EndsNumber rest.head? →
    Numeral.exponentLength (exponent ++ rest) = exponent.length
  value_eq : Numeral.exponentValue exponent = value
  noDigit : ∀ character ∈ exponent.head?, character.isDigit = false

theorem isExponent_nil : IsExponent [] 0 where
  length_eq _ ends := exponentLength_of_ends ends
  value_eq := rfl
  noDigit _ member := by cases member

theorem takeWhile_isDigit_exponent {digits exponent rest : List Char} {value : Int}
    (all : digits.all Char.isDigit = true) (isExponent : IsExponent exponent value)
    (ends : EndsNumber rest.head?) :
    (digits ++ (exponent ++ rest)).takeWhile Char.isDigit = digits := by
  cases exponent with
  | nil => exact takeWhile_isDigit_append all ends
  | cons mark others =>
    exact takeWhile_append_of_ends Char.isDigit digits _ all isExponent.noDigit

/-- The exponent with a sign and decimal digits. -/
theorem isExponent_toString (value : Int) : IsExponent ('e' :: (toString value).toList) value := by
  have digitsEnd (number : Nat) (rest : List Char) (ends : EndsNumber rest.head?) :
      (Nat.toDigits 10 number ++ rest).takeWhile Char.isDigit = Nat.toDigits 10 number :=
    takeWhile_isDigit_append (all_isDigit_toDigits number) ends
  have noSign (number : Nat) (rest : List Char) :
      Numeral.signLength (Nat.toDigits 10 number ++ rest) = 0 ∧
        Numeral.exponentValue ('e' :: Nat.toDigits 10 number) = number := by
    obtain ⟨first, others, eq⟩ := List.exists_cons_of_ne_nil
      (Nat.toDigits_ne_nil (n := number) (b := 10))
    have all := all_isDigit_toDigits number
    have read := numeralValue_toDigits number
    rw [eq, List.all_cons, Bool.and_eq_true] at all
    rw [eq] at read ⊢
    have minus : first ≠ '-' := by
      rintro rfl
      exact absurd all.1 (by decide)
    have plus : first ≠ '+' := by
      rintro rfl
      exact absurd all.1 (by decide)
    constructor
    · simp only [Numeral.signLength, List.cons_append]
      split
      · next found => exact absurd (List.cons.inj found).1 plus
      · next found => exact absurd (List.cons.inj found).1 minus
      · rfl
    · simp only [Numeral.exponentValue, List.drop_succ_cons, List.drop_zero]
      split
      · next found => exact absurd (List.cons.inj found).1 minus
      · next found => exact absurd (List.cons.inj found).1 plus
      · rw [read]
  have noDigit : ∀ text : List Char, ∀ character ∈ ('e' :: text).head?,
      character.isDigit = false := by
    rintro text _ ⟨⟩
    decide
  cases value with
  | ofNat number =>
    have text : (toString (Int.ofNat number)).toList = Nat.toDigits 10 number := by
      simp [toString, Int.repr]
    rw [text]
    refine ⟨fun rest ends => ?_, (noSign number []).2, noDigit _⟩
    simp only [Numeral.exponentLength, List.cons_append, (noSign number rest).1, List.drop_zero,
      digitsEnd number rest ends]
    simp [Nat.add_comm]
  | negSucc number =>
    have text : (toString (Int.negSucc number)).toList = '-' :: Nat.toDigits 10 (number + 1) := by
      simp [toString, Int.repr]
    rw [text]
    refine ⟨fun rest ends => ?_, ?_, noDigit _⟩
    · simp only [Numeral.exponentLength, List.cons_append, Numeral.signLength,
        List.drop_succ_cons, List.drop_zero, digitsEnd (number + 1) rest ends]
      simp
      omega
    · simp only [Numeral.exponentValue, List.drop_succ_cons, List.drop_zero,
        numeralValue_toDigits]
      rfl

/-- Digits on both sides of a point, and perhaps an exponent, are read as a float. -/
theorem Numeral.read_point (whole fraction exponent : List Char) (power : Int)
    (wholeDigits : whole.all Char.isDigit = true) (fractionDigits : fraction.all Char.isDigit = true)
    (isExponent : IsExponent exponent power) {rest : List Char} (ends : EndsNumber rest.head?) :
    Numeral.read (whole ++ '.' :: (fraction ++ exponent) ++ rest) =
      ⟨(whole ++ '.' :: (fraction ++ exponent)).length,
        .float (.ofDecimal (numeralValue 10 (whole ++ fraction)) (power - fraction.length)), true⟩ := by
  have front : (whole ++ '.' :: (fraction ++ exponent) ++ rest).takeWhile Char.isDigit = whole := by
    rw [List.append_assoc]
    refine takeWhile_append_of_ends Char.isDigit whole _ wholeDigits ?_
    rintro _ ⟨⟩
    decide
  have after : (whole ++ '.' :: (fraction ++ exponent) ++ rest).drop whole.length =
      '.' :: (fraction ++ (exponent ++ rest)) := by
    rw [List.append_assoc, List.drop_left, List.cons_append, List.append_assoc]
  simp only [Numeral.read, front, after, Numeral.float?, Option.getD_some,
    takeWhile_isDigit_exponent fractionDigits isExponent ends, List.drop_left,
    isExponent.length_eq rest ends, List.take_left, Numeral.floatValue, isExponent.value_eq]
  simp only [List.length_append, List.length_cons]
  congr 1
  omega

/-- Digits with an exponent are read as a float. -/
theorem Numeral.read_exponent (whole exponent : List Char) (power : Int)
    (wholeDigits : whole.all Char.isDigit = true) (isExponent : IsExponent exponent power)
    (nonempty : exponent ≠ []) (noPoint : exponent.head? ≠ some '.') {rest : List Char}
    (ends : EndsNumber rest.head?) :
    Numeral.read (whole ++ exponent ++ rest) =
      ⟨(whole ++ exponent).length, .float (.ofDecimal (numeralValue 10 whole) power), true⟩ := by
  have front : (whole ++ exponent ++ rest).takeWhile Char.isDigit = whole := by
    rw [List.append_assoc]
    exact takeWhile_isDigit_exponent wholeDigits isExponent ends
  have after : (whole ++ exponent ++ rest).drop whole.length = exponent ++ rest := by
    rw [List.append_assoc, List.drop_left]
  have value : Numeral.float? whole (exponent ++ rest) =
      some ⟨(whole ++ exponent).length, .float (.ofDecimal (numeralValue 10 whole) power), true⟩ := by
    simp only [Numeral.float?]
    split
    · next eq =>
      cases exponent with
      | nil => exact absurd rfl nonempty
      | cons mark others => exact absurd (congrArg some (List.cons.inj eq).1) noPoint
    · rw [isExponent.length_eq rest ends, List.take_left, if_neg nonempty]
      simp [Numeral.floatValue, isExponent.value_eq]
  simp only [Numeral.read, front, after, value, Option.getD_some]

/-! ### Layouts of the shortest digits -/

/-- The digits of a decimal without its trailing zeros, and its point, stand for what the decimal
stands for. -/
theorem Decimal.magnitude_scientific (decimal : Decimal) :
    Magnitude.ofDecimal (numeralValue 10 decimal.scientific.1)
      (decimal.scientific.2 - decimal.scientific.1.length) = decimal.magnitude := by
  have all : ∀ character ∈ (Nat.toDigits 10 decimal.digits).reverse.takeWhile (· = '0'),
      character = '0' := fun character member =>
    of_decide_eq_true (List.all_eq_true.mp List.all_takeWhile character member)
  obtain ⟨count, zeros⟩ : ∃ count, (Nat.toDigits 10 decimal.digits).reverse.takeWhile (· = '0') =
      List.replicate count '0' := ⟨_, List.eq_replicate_of_mem all⟩
  have split : decimal.scientific.1 ++ List.replicate count '0' = Nat.toDigits 10 decimal.digits := by
    rw [← List.reverse_inj, List.reverse_append, List.reverse_replicate, ← zeros]
    simp only [scientific, List.reverse_reverse]
    exact List.takeWhile_append_dropWhile
  have value : numeralValue 10 decimal.scientific.1 * 10 ^ count = decimal.digits := by
    rw [← numeralValue_append_zeros, split, numeralValue_toDigits]
  have length : ((Nat.toDigits 10 decimal.digits).length : Int) =
      decimal.scientific.1.length + count := by
    rw [← split, List.length_append, List.length_replicate]
    rfl
  have point : decimal.scientific.2 = (Nat.toDigits 10 decimal.digits).length + decimal.exponent := rfl
  rw [Decimal.magnitude, ← value, Magnitude.ofDecimal_mul_pow, point, length]
  congr 1
  omega

theorem Decimal.all_isDigit_scientific (decimal : Decimal) :
    decimal.scientific.1.all Char.isDigit = true := by
  rw [List.all_eq_true]
  intro character member
  have suffix : decimal.scientific.1.reverse <:+ (Nat.toDigits 10 decimal.digits).reverse := by
    simp only [scientific, List.reverse_reverse]
    exact List.dropWhile_suffix _
  have inDigits : character ∈ Nat.toDigits 10 decimal.digits :=
    List.mem_reverse.mp (suffix.subset (List.mem_reverse.mpr member))
  exact List.all_eq_true.mp (all_isDigit_toDigits decimal.digits) character inDigits

/-- A text that starts with a digit and is read as a float wherever it ends spells the float. -/
theorem Spells.float {text : List Char} {value : Magnitude}
    (digit : ∃ character ∈ text.head?, character.isDigit = true)
    (read : ∀ rest : List Char, EndsNumber rest.head? →
      Numeral.read (text ++ rest) = ⟨text.length, .float value, true⟩) :
    Spells text [.float value] EndsNumber := by
  obtain ⟨character, member, digit⟩ := digit
  obtain ⟨others, rfl⟩ := List.head?_eq_some_iff.mp member
  refine Spells.numeral digit (.float value) _ (fun _ _ => rfl) trivial ?_
  exact fun rest ends => ⟨true, read rest ends⟩

theorem head?_isDigit {digits : List Char} (all : digits.all Char.isDigit = true)
    (nonempty : digits ≠ []) (rest : List Char) :
    ∃ character ∈ (digits ++ rest).head?, character.isDigit = true := by
  obtain ⟨first, others, rfl⟩ := List.exists_cons_of_ne_nil nonempty
  rw [List.all_cons, Bool.and_eq_true] at all
  exact ⟨first, rfl, all.1⟩

section Layout

variable {digits : List Char} (point : Int)

theorem zeros_all_isDigit (count : Nat) : (List.replicate count '0').all Char.isDigit = true := by
  rw [List.all_eq_true]
  intro character member
  rw [(List.mem_replicate.mp member).2]
  rfl

/-- Digits laid out around a point spell what they stand for. -/
theorem spells_positional (all : digits.all Char.isDigit = true) :
    Spells (Decimal.positional digits point).toList
      [.float (.ofDecimal (numeralValue 10 digits) (point - digits.length))] EndsNumber := by
  simp only [Decimal.positional]
  split
  · next low =>
    have fractionDigits : (List.replicate (-point).toNat '0' ++ digits).all Char.isDigit = true := by
      rw [List.all_append, zeros_all_isDigit, all, Bool.and_self]
    have text : ("0." ++ String.ofList (List.replicate (-point).toNat '0' ++ digits)).toList =
        ['0'] ++ '.' :: (List.replicate (-point).toNat '0' ++ digits ++ []) := by simp
    rw [text]
    refine Spells.float ⟨'0', rfl, rfl⟩ fun rest ends => ?_
    rw [Numeral.read_point ['0'] _ [] 0 rfl fractionDigits isExponent_nil ends]
    have value : numeralValue 10 (['0'] ++ (List.replicate (-point).toNat '0' ++ digits)) =
        numeralValue 10 digits := by
      rw [← List.append_assoc]
      exact numeralValue_zeros_append ((-point).toNat + 1) digits
    rw [value]
    congr 3
    rw [List.length_append, List.length_replicate]
    omega
  · split
    · next high long =>
      have wholeDigits : (digits ++ List.replicate (point - digits.length).toNat '0').all
          Char.isDigit = true := by
        rw [List.all_append, zeros_all_isDigit, all, Bool.and_self]
      have nonempty : digits ++ List.replicate (point - digits.length).toNat '0' ≠ [] := by
        intro empty
        have lengths := congrArg List.length empty
        simp only [List.length_append, List.length_replicate, List.length_nil] at lengths
        omega
      have text : (String.ofList (digits ++ List.replicate (point - digits.length).toNat '0') ++
          ".0").toList =
          digits ++ List.replicate (point - digits.length).toNat '0' ++ '.' :: (['0'] ++ []) := by
        simp
      rw [text]
      refine Spells.float (head?_isDigit wholeDigits nonempty _) fun rest ends => ?_
      rw [Numeral.read_point _ ['0'] [] 0 wholeDigits rfl isExponent_nil ends]
      have value : numeralValue 10 (digits ++ List.replicate (point - digits.length).toNat '0' ++
          ['0']) = numeralValue 10 digits * 10 ^ ((point - digits.length).toNat + 1) := by
        rw [← numeralValue_append_zeros, List.replicate_succ', List.append_assoc]
      rw [value, Magnitude.ofDecimal_mul_pow]
      congr 3
      simp only [List.length_singleton]
      omega
    · next high short =>
      have pointPositive : 0 < point.toNat := by omega
      have wholeDigits : (digits.take point.toNat).all Char.isDigit = true :=
        List.all_eq_true.mpr fun character member =>
          List.all_eq_true.mp all character (List.mem_of_mem_take member)
      have fractionDigits : (digits.drop point.toNat).all Char.isDigit = true :=
        List.all_eq_true.mpr fun character member =>
          List.all_eq_true.mp all character (List.mem_of_mem_drop member)
      have nonempty : digits.take point.toNat ≠ [] := by
        intro empty
        have lengths := congrArg List.length empty
        simp only [List.length_take, List.length_nil] at lengths
        omega
      have text : (String.ofList (digits.take point.toNat) ++ "." ++
          String.ofList (digits.drop point.toNat)).toList =
          digits.take point.toNat ++ '.' :: (digits.drop point.toNat ++ []) := by simp
      rw [text]
      refine Spells.float (head?_isDigit wholeDigits nonempty _) fun rest ends => ?_
      rw [Numeral.read_point _ _ [] 0 wholeDigits fractionDigits isExponent_nil ends,
        List.take_append_drop, List.length_drop]
      congr 3
      omega

/-- Digits laid out with an exponent spell what they stand for. -/
theorem spells_exponential (all : digits.all Char.isDigit = true) (nonempty : digits ≠ []) :
    Spells (Decimal.exponential digits point).toList
      [.float (.ofDecimal (numeralValue 10 digits) (point - digits.length))] EndsNumber := by
  obtain ⟨first, others, rfl⟩ := List.exists_cons_of_ne_nil nonempty
  rw [List.all_cons, Bool.and_eq_true] at all
  have firstDigits : [first].all Char.isDigit = true := by simp [all.1]
  have head (rest : List Char) : ∃ character ∈ ([first] ++ rest).head?, character.isDigit = true :=
    ⟨first, rfl, all.1⟩
  have exponent := isExponent_toString (point - 1)
  by_cases single : others = []
  · subst single
    have text : (Decimal.exponential [first] point).toList =
        [first] ++ 'e' :: (toString (point - 1)).toList := by simp [Decimal.exponential]
    rw [text]
    refine Spells.float (head _) fun rest ends => ?_
    rw [Numeral.read_exponent [first] _ _ firstDigits exponent (by simp) (by simp) ends]
    rfl
  · have some : String.ofList others ≠ "" := fun empty => single (by simpa using empty)
    have text : (Decimal.exponential (first :: others) point).toList =
        [first] ++ '.' :: (others ++ 'e' :: (toString (point - 1)).toList) := by
      simp [Decimal.exponential, some]
    rw [text]
    refine Spells.float (head _) fun rest ends => ?_
    rw [Numeral.read_point [first] others _ _ firstDigits all.2 exponent ends]
    congr 3
    simp only [List.length_cons]
    omega

end Layout

/-- The shortest text of a finite magnitude spells it, whatever the style. -/
theorem spells_float (style : Decimal.Style) (value : Magnitude)
    (finite : value.isInfinite = false) :
    Spells (Decimal.text style value).toList [.float value] EndsNumber := by
  have small : value.bits < Magnitude.infinity.bits := by
    simpa [Magnitude.isInfinite] using finite
  simp only [Decimal.text, finite, Bool.false_eq_true, if_false]
  split
  · next zero =>
    have text : "0.0".toList = ['0'] ++ '.' :: (['0'] ++ []) := rfl
    rw [text]
    refine Spells.float ⟨'0', rfl, rfl⟩ fun rest ends => ?_
    rw [Numeral.read_point ['0'] ['0'] [] 0 rfl rfl isExponent_nil ends, zero]
    rfl
  · next nonzero =>
    have magnitude := Decimal.shortest_magnitude value nonzero small
    have digits := Decimal.all_isDigit_scientific (Decimal.shortest value)
    have scientific := Decimal.magnitude_scientific (Decimal.shortest value)
    have nonempty : (Decimal.shortest value).scientific.1 ≠ [] := by
      intro empty
      rw [empty, magnitude] at scientific
      exact nonzero scientific.symm
    rw [magnitude] at scientific
    simp only [apply_ite String.toList]
    split
    · have positional := spells_positional (Decimal.shortest value).scientific.2 digits
      rwa [scientific] at positional
    · have exponential :=
        spells_exponential (Decimal.shortest value).scientific.2 digits nonempty
      rwa [scientific] at exponential

end ProtoSchema
