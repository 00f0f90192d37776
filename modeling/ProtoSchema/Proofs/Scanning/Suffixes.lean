/-
This file shows what may stand directly behind a number. A number that is checked
for it and read without a fault has no letter and no underscore behind it. The
literal zero is not checked, nor are digits that are read as zero because the second
of them is not octal; these are all the exceptions, and they are exceptions wherever
they stand.
-/

import ProtoSchema.Proofs.Scanning.Fronts
import ProtoSchema.Proofs.Scanning.Numeral

namespace ProtoSchema

/-- The texts that are read as zero and may run into an identifier: the digit zero, and a zero with
decimal digits behind it of which the first is not octal. -/
def ZeroLiteral (text : List Char) : Prop :=
  text = ['0'] ∨ ∃ digit more, text = '0' :: digit :: more ∧ digit ∈ ['8', '9'] ∧
    more.all Char.isDigit = true

/-- An integer or a float. -/
def Token.IsNumber (token : Token) : Prop :=
  (∃ value, token = .int value) ∨ ∃ value, token = .float value

/-! ### Numbers that are not checked -/

/-- The decimal digits that are not octal. -/
theorem mem_of_isOctalDigit_eq_false {digit : Char} (isDigit : digit.isDigit = true)
    (noOctal : isOctalDigit digit = false) : digit ∈ ['8', '9'] := by
  obtain ⟨low, high⟩ := toNat_of_isDigit isDigit
  have beyond : 56 ≤ digit.toNat := by
    by_contra octal
    refine Bool.eq_false_iff.mp noOctal ?_
    simp only [isOctalDigit, Bool.and_eq_true, decide_eq_true_eq, Char.le_def,
      UInt32.le_iff_toNat_le]
    exact ⟨low, Nat.le_of_lt_succ (Nat.lt_of_not_le octal)⟩
  have code : digit.toNat = 56 ∨ digit.toNat = 57 := by omega
  rw [← Char.ofNat_toNat digit]
  rcases code with eight | nine
  · rw [eight]
    decide
  · rw [nine]
    decide

namespace Numeral

theorem endsBeforeIdentifier_of_float? {whole after : List Char} {numeral : Numeral}
    (found : float? whole after = some numeral) : numeral.endsBeforeIdentifier = true := by
  unfold float? at found
  split at found
  · obtain rfl := Option.some.inj found
    rfl
  · dsimp only at found
    split at found
    · cases found
    · obtain rfl := Option.some.inj found
      rfl

/-- An integer that is not checked is a zero literal, over all of its digits. -/
theorem zeroLiteral_of_int {digits after : List Char} (all : digits.all Char.isDigit = true)
    (unchecked : (int digits after).endsBeforeIdentifier = false) :
    ZeroLiteral digits ∧ int digits after = zero digits.length := by
  unfold int at unchecked ⊢
  split at unchecked
  · split at unchecked
    · exact ⟨.inl rfl, rfl⟩
    · cases unchecked
  · next second more =>
    split at unchecked
    · cases unchecked
    · next noOctal =>
      simp only [List.all_cons, Bool.and_eq_true] at all
      have beyond := mem_of_isOctalDigit_eq_false all.2.1 (Bool.eq_false_iff.mpr noOctal)
      exact ⟨.inr ⟨second, more, rfl, beyond, all.2.2⟩, if_neg noOctal⟩
  · cases unchecked

/-- A number that is not checked is a zero literal. -/
theorem zeroLiteral_of_read {characters : List Char}
    (unchecked : (read characters).endsBeforeIdentifier = false) :
    ZeroLiteral (characters.take (read characters).length) ∧
      (read characters).value = .int 0 := by
  unfold read at unchecked ⊢
  dsimp only at unchecked ⊢
  cases isFloat : float? (characters.takeWhile Char.isDigit)
      (characters.drop (characters.takeWhile Char.isDigit).length) with
  | some numeral =>
    rw [isFloat, Option.getD_some, endsBeforeIdentifier_of_float? isFloat] at unchecked
    cases unchecked
  | none =>
    rw [isFloat, Option.getD_none] at unchecked
    obtain ⟨isZero, same⟩ := zeroLiteral_of_int List.all_takeWhile unchecked
    rw [Option.getD_none, same]
    refine ⟨?_, rfl⟩
    rwa [zero, ← List.prefix_iff_eq_take.mp (List.takeWhile_prefix Char.isDigit)]

theorem length_float?_pos {whole after : List Char} {numeral : Numeral}
    (found : float? whole after = some numeral) : 0 < numeral.length := by
  unfold float? at found
  split at found
  · obtain rfl := Option.some.inj found
    exact Nat.add_pos_left (Nat.add_pos_left (Nat.succ_pos _) _) _
  · dsimp only at found
    split at found
    · cases found
    · next exponent =>
      obtain rfl := Option.some.inj found
      exact Nat.add_pos_right _ (List.length_pos_iff.mpr exponent)

theorem length_int_pos {digits : List Char} (some : digits ≠ []) (after : List Char) :
    0 < (int digits after).length := by
  have whole : 0 < digits.length := List.length_pos_iff.mpr some
  unfold int
  split
  · split
    · exact Nat.one_pos
    · exact Nat.add_pos_left (Nat.succ_pos _) _
  · split <;> exact whole
  · exact whole

/-- A number has at least one character. -/
theorem length_read_pos {first : Char} (starts : first.isDigit = true ∨ first = '.')
    (rest : List Char) : 0 < (read (first :: rest)).length := by
  unfold read
  dsimp only
  cases isFloat : float? ((first :: rest).takeWhile Char.isDigit)
      ((first :: rest).drop ((first :: rest).takeWhile Char.isDigit).length) with
  | some numeral => exact length_float?_pos isFloat
  | none =>
    rcases starts with digit | rfl
    · refine length_int_pos ?_ _
      rw [List.takeWhile_cons_of_pos digit]
      exact List.cons_ne_nil _ _
    · cases isFloat

/-- No letter and no underscore stands behind a number that is checked and not at fault. -/
theorem isIdentifierStart_eq_false_of_faults {numeral : Numeral} {offset : Nat}
    {after : List Char} (none : numeral.faults offset after = [])
    (checked : numeral.endsBeforeIdentifier = true) :
    ∀ first ∈ after.head?, isIdentifierStart first = false := by
  intro first isFirst
  obtain ⟨rest, rfl⟩ := List.head?_eq_some_iff.mp isFirst
  by_contra start
  have runsOn : trailingIdentifier (first :: rest) ≠ [] := by
    rw [trailingIdentifier, if_pos (Bool.eq_true_of_not_eq_false start)]
    exact List.cons_ne_nil _ _
  unfold faults at none
  dsimp only at none
  rw [if_pos ⟨checked, runsOn⟩] at none
  split at none
  · split at none <;> cases none
  · cases none
  · cases none

end Numeral

/-- Numbers are read as such. -/
theorem Front.number_of_read {offset length : Nat} {first : Char} {rest : List Char}
    {token : Token} {faults : List LexicalFault}
    (found : read offset first rest = .element (.token token) length faults)
    (isNumber : token.IsNumber) :
    (first.isDigit = true ∨ first = '.') ∧
      number offset (first :: rest) = .element (.token token) length faults := by
  unfold read at found
  split_ifs at found with _ _ _ starts
  · cases found
  · obtain ⟨same, -⟩ := element.inj found
    obtain rfl := Element.token.inj same
    rcases isNumber with ⟨_, same⟩ | ⟨_, same⟩ <;> cases same
  · exact ⟨starts.imp_right And.left, found⟩
  · obtain ⟨same, -⟩ := element.inj found
    obtain rfl := Element.token.inj same
    rcases isNumber with ⟨_, same⟩ | ⟨_, same⟩ <;> cases same
  · cases found
  · cases found
  · unfold symbol at found
    split at found
    · obtain ⟨same, -⟩ := element.inj found
      obtain rfl := Element.token.inj same
      rcases isNumber with ⟨_, same⟩ | ⟨_, same⟩ <;> cases same
    · cases found

/-- The numbers of a source are read where they stand, each without a fault. -/
theorem exists_numeral_of_scan {source : List Char} {pieces : List Piece} {piece : Piece}
    {token : Token} (scanned : scan source = .pieces pieces) (member : piece ∈ pieces)
    (isToken : piece.element = .token token) (isNumber : token.IsNumber) :
    ∃ before first rest, source = before ++ first :: rest ∧
      (first.isDigit = true ∨ first = '.') ∧ token = (Numeral.read (first :: rest)).token ∧
      (Numeral.read (first :: rest)).faults (byteLength before)
        ((first :: rest).drop (Numeral.read (first :: rest)).length) = [] ∧
      piece.span = ⟨byteLength before,
        byteLength (before ++ (first :: rest).take (Numeral.read (first :: rest)).length)⟩ := by
  obtain ⟨before, first, rest, length, same, front, span⟩ := exists_front_of_scan scanned member
  rw [isToken] at front
  obtain ⟨starts, number⟩ := Front.number_of_read front isNumber
  obtain ⟨isElement, rfl, faultless⟩ := Front.element.inj number
  have some := Numeral.length_read_pos starts rest
  rw [← List.take_cons some] at span
  exact ⟨before, first, rest, same, starts, (Element.token.inj isElement).symm, faultless, span⟩

/-- A number stands in the source where its span says; only a zero literal may have a letter or an
underscore directly behind it. -/
def StandsApart (source : List Char) (token : Token) (span : Span) : Prop :=
  ∃ before text behind, source = before ++ text ++ behind ∧
    span = ⟨byteLength before, byteLength (before ++ text)⟩ ∧
    ∀ first ∈ behind.head?, isIdentifierStart first = true →
      token = .int 0 ∧ ZeroLiteral text

theorem standsApart_of_scan {source : List Char} {pieces : List Piece}
    (scanned : scan source = .pieces pieces) :
    ∀ piece ∈ pieces, ∀ token, piece.element = .token token → token.IsNumber →
      StandsApart source token piece.span := by
  intro piece member token isToken isNumber
  obtain ⟨left, first, rest, same, -, isRead, faultless, span⟩ :=
    exists_numeral_of_scan scanned member isToken isNumber
  refine ⟨left, (first :: rest).take (Numeral.read (first :: rest)).length,
    (first :: rest).drop (Numeral.read (first :: rest)).length, ?_, span, ?_⟩
  · rw [List.append_assoc, List.take_append_drop, same]
  · intro next isNext start
    have unchecked : (Numeral.read (first :: rest)).endsBeforeIdentifier = false := by
      by_contra checked
      have apart := Numeral.isIdentifierStart_eq_false_of_faults faultless
        (Bool.eq_true_of_not_eq_false checked) next isNext
      exact Bool.false_ne_true (apart.symm.trans start)
    obtain ⟨isZero, value⟩ := Numeral.zeroLiteral_of_read unchecked
    refine ⟨?_, isZero⟩
    rw [isRead, Numeral.token, value]
    rfl

/-! ### Zero literals -/

/-- The next character goes on with none of the numbers that start with a zero literal. -/
def EndsZero (next : Option Char) : Prop :=
  ∀ character ∈ next, character.isDigit = false ∧ character ∉ ['.', 'e', 'E', 'x', 'X']

theorem ZeroLiteral.all_isDigit {text : List Char} (isZero : ZeroLiteral text) :
    text.all Char.isDigit = true := by
  rcases isZero with rfl | ⟨digit, more, rfl, noOctal, all⟩
  · rfl
  · have isDigit : ∀ digit ∈ ['8', '9'], digit.isDigit = true := List.all_eq_true.mp rfl
    rw [List.all_cons, List.all_cons, isDigit digit noOctal, all]
    rfl

/-- A zero literal is read over all of its digits and is not checked. -/
theorem Numeral.read_zeroLiteral {text rest : List Char} (isZero : ZeroLiteral text)
    (ends : EndsZero rest.head?) : read (text ++ rest) = zero text.length := by
  have digits : (text ++ rest).takeWhile Char.isDigit = text :=
    takeWhile_append_of_ends Char.isDigit text rest isZero.all_isDigit fun character member =>
      (ends character member).1
  have noFloat : float? text rest = none := by
    cases rest with
    | nil => rfl
    | cons first others =>
      have noMark := (ends first rfl).2
      simp only [List.mem_cons, List.not_mem_nil, or_false, not_or] at noMark
      simp [float?, exponentLength, noMark]
  have noHex : hexDigits rest = [] := by
    cases rest with
    | nil => rfl
    | cons first others =>
      have noMark := (ends first rfl).2
      simp only [List.mem_cons, List.not_mem_nil, or_false, not_or] at noMark
      simp [hexDigits, noMark]
  have isInt : int text rest = zero text.length := by
    rcases isZero with rfl | ⟨digit, more, rfl, noOctal, -⟩
    · rw [int, noHex]
      rfl
    · have isDecimal : ∀ digit ∈ ['8', '9'], isOctalDigit digit = false := by
        simp only [List.forall_mem_cons]
        exact ⟨rfl, rfl, List.forall_mem_nil _⟩
      exact if_neg (Bool.eq_false_iff.mp (isDecimal digit noOctal))
  rw [read, digits, List.drop_left, noFloat, Option.getD_none, isInt]

/-- A zero literal is read as zero, whatever letters but those of an exponent or of hexadecimal
digits stand behind it. -/
theorem spells_zeroLiteral {text : List Char} (isZero : ZeroLiteral text) :
    Spells text [.int 0] EndsZero := by
  obtain ⟨more, rfl⟩ : ∃ more, text = '0' :: more := by
    rcases isZero with rfl | ⟨digit, more, rfl, -⟩
    · exact ⟨[], rfl⟩
    · exact ⟨digit :: more, rfl⟩
  refine .element (.token (.int 0)) fun offset rest ends => ?_
  have isRead := Numeral.read_zeroLiteral isZero ends
  rw [List.cons_append] at isRead
  rw [Front.read_of_isDigit (by decide), Front.number, isRead]
  rfl

/-- So a word may stand directly behind a zero literal. -/
theorem spells_zeroLiteral_word {text : List Char} {word : String} (isZero : ZeroLiteral text)
    (identifier : isIdentifier word = true)
    (ends : ∀ first ∈ word.toList.head?, first ∉ ['e', 'E', 'x', 'X']) :
    Spells (text ++ word.toList) [.int 0, .word word] EndsWord := by
  refine (spells_zeroLiteral isZero).append (spells_word word identifier) fun rest _ => ?_
  obtain ⟨first, others, isWord, start, -⟩ := isIdentifier_cons identifier
  rw [isWord] at ends ⊢
  rintro _ ⟨⟩
  have noDigit : first.isDigit = false := Bool.eq_false_iff.mpr fun digit =>
    Bool.false_ne_true ((isIdentifierStart_of_isDigit digit).symm.trans start)
  refine ⟨noDigit, List.not_mem_cons_of_ne_of_not_mem ?_ (ends first rfl)⟩
  rintro rfl
  exact absurd start (by decide)

end ProtoSchema
