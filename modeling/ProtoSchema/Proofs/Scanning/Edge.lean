/-
This file shows what ends at an edge: a character, such as a closing brace or a
line break, that no word, number or escape goes past. Words, numbers and escapes
end at an edge as they end at the end of a text.
-/

import Mathlib.Tactic.SplitIfs
import ProtoSchema.Proofs.Scanning.Spelling

namespace ProtoSchema

/-- Digits to the base eight are digits. -/
theorem isDigit_of_isOctalDigit {character : Char} (octal : isOctalDigit character = true) :
    character.isDigit = true := by
  simp only [isOctalDigit, Char.isDigit, Bool.and_eq_true, decide_eq_true_eq, ge_iff_le,
    Char.le_def] at octal ⊢
  exact ⟨octal.1, Nat.le_trans octal.2 (by decide)⟩

theorem isAlpha_or_isDigit_of_isHexDigit {character : Char} (hex : isHexDigit character = true) :
    character.isAlpha = true ∨ character.isDigit = true := by
  simp only [isHexDigit, Bool.or_eq_true, Bool.and_eq_true, decide_eq_true_eq, Char.le_def] at hex
  rcases hex with (digit | ⟨low, high⟩) | ⟨low, high⟩
  · exact .inr digit
  · have lower : character.isLower = true :=
      Bool.and_eq_true_iff.mpr ⟨decide_eq_true low, decide_eq_true (Nat.le_trans high (by decide))⟩
    exact .inl (Bool.or_eq_true_iff.mpr (.inr lower))
  · have upper : character.isUpper = true :=
      decide_eq_true ⟨low, Nat.le_trans high (by decide)⟩
    exact .inl (Bool.or_eq_true_iff.mpr (.inl upper))

/-- Digits to the base sixteen go on with a word, as letters do. -/
theorem isIdentifierPart_of_isHexDigit {character : Char} (hex : isHexDigit character = true) :
    isIdentifierPart character = true := by
  rcases isAlpha_or_isDigit_of_isHexDigit hex with alpha | digit
  · simp only [isIdentifierPart, Char.isAlphanum, alpha, Bool.true_or]
  · simp only [isIdentifierPart, Char.isAlphanum, digit, Bool.or_true, Bool.true_or]

/-- The character is no part of a word, a number, an escape or a delimiter of comments, and no
blank. -/
structure Edge (mark : Char) : Prop where
  part : isIdentifierPart mark = false
  blank : isBlank mark = false
  simple : Escape.simple? mark = none
  others : mark ∉ ['+', '-', '.', '*', '/']

/-- A brace and a line break go on with no token. -/
theorem edge_brace : Edge '}' := ⟨by decide, by decide, rfl, by decide⟩

theorem edge_newline : Edge '\n' := ⟨by decide, by decide, rfl, by decide⟩

namespace Edge

variable {mark : Char}

theorem ne (edge : Edge mark) {character : Char}
    (other : character ∈ ['+', '-', '.', '*', '/']) : mark ≠ character := by
  rintro rfl
  exact edge.others other

/-- An edge starts no word, and in what follows it is no digit to any base. -/
theorem start (edge : Edge mark) : isIdentifierStart mark = false :=
  Bool.eq_false_iff.mpr fun start =>
    Bool.eq_false_iff.mp edge.part (isIdentifierPart_of_isIdentifierStart start)

theorem digit (edge : Edge mark) : mark.isDigit = false :=
  Bool.eq_false_iff.mpr fun digit => Bool.eq_false_iff.mp edge.part <| by
    simp [isIdentifierPart, Char.isAlphanum, digit]

theorem hex (edge : Edge mark) : isHexDigit mark = false :=
  Bool.eq_false_iff.mpr fun hex =>
    Bool.eq_false_iff.mp edge.part (isIdentifierPart_of_isHexDigit hex)

theorem octal (edge : Edge mark) : isOctalDigit mark = false :=
  Bool.eq_false_iff.mpr fun octal =>
    Bool.eq_false_iff.mp edge.digit (isDigit_of_isOctalDigit octal)

end Edge

variable {mark : Char} {front back : List Char}

/-- A run that an edge stops does not see what is behind the edge. -/
theorem takeWhile_edge {test : Char → Bool} (stops : test mark = false) :
    (front ++ mark :: back).takeWhile test = front.takeWhile test := by
  induction front with
  | nil => exact List.takeWhile_cons_of_neg (by simp [stops])
  | cons first rest inductionHypothesis =>
    rw [List.cons_append, List.takeWhile_cons, List.takeWhile_cons, inductionHypothesis]

theorem drop_takeWhile_edge (test : Char → Bool) :
    (front ++ mark :: back).drop (front.takeWhile test).length =
      front.drop (front.takeWhile test).length ++ mark :: back :=
  List.drop_append_of_le_length (List.takeWhile_prefix test).length_le

theorem head?_edge {test : Char → Bool} (stops : test mark = false) :
    (front ++ mark :: back).head?.any test = front.head?.any test := by
  cases front with
  | nil => exact stops
  | cons first rest => rfl

/-- An edge is no other character. -/
theorem exists_cons_of_edge {first : Char} {rest : List Char} (noEdge : mark ≠ first)
    (same : front ++ mark :: back = first :: rest) : ∃ more, front = first :: more := by
  cases front with
  | nil => exact absurd (List.cons.inj same).1 noEdge
  | cons other more => exact ⟨more, congrArg (· :: more) (List.cons.inj same).1⟩

/-! ### Numbers -/

namespace Numeral

/-- What a sign and an exponent take does not reach beyond an edge. -/
theorem signLength_edge (edge : Edge mark) :
    signLength (front ++ mark :: back) = signLength front := by
  cases front with
  | nil =>
    have notPlus : mark ≠ '+' := edge.ne (by decide)
    have notMinus : mark ≠ '-' := edge.ne (by decide)
    simp [signLength, notPlus, notMinus]
  | cons first rest =>
    by_cases isPlus : first = '+'
    · subst isPlus
      rfl
    by_cases isMinus : first = '-'
    · subst isMinus
      rfl
    simp [signLength, isPlus, isMinus]

/-- No more is taken than there is. -/
theorem signLength_le (text : List Char) : signLength text ≤ text.length := by
  unfold signLength
  split <;> simp

theorem exponentLength_le (text : List Char) : exponentLength text ≤ text.length := by
  cases text with
  | nil => exact Nat.le_refl _
  | cons first rest =>
    have digits := (@List.takeWhile_prefix _ (rest.drop (signLength rest)) Char.isDigit).length_le
    have sign := signLength_le rest
    rw [List.length_drop] at digits
    rw [exponentLength, List.length_cons]
    split <;> omega

theorem exponentLength_edge (edge : Edge mark) :
    exponentLength (front ++ mark :: back) = exponentLength front := by
  cases front with
  | nil =>
    have noExponent : ¬ (mark = 'e' ∨ mark = 'E') := by
      rintro (rfl | rfl) <;> exact absurd edge.part (by decide)
    simp [exponentLength, noExponent]
  | cons first rest =>
    rw [List.cons_append, exponentLength, exponentLength, signLength_edge edge,
      List.drop_append_of_le_length (signLength_le rest), takeWhile_edge edge.digit]

theorem take_exponentLength_edge (edge : Edge mark) :
    (front ++ mark :: back).take (exponentLength (front ++ mark :: back)) =
      front.take (exponentLength front) := by
  rw [exponentLength_edge edge, List.take_append_of_le_length (exponentLength_le front)]

/-- A floating-point number ends at an edge at the latest. -/
theorem float?_edge (edge : Edge mark) (whole : List Char) :
    float? whole (front ++ mark :: back) = float? whole front := by
  have exponent : (front ++ mark :: back).take (exponentLength (front ++ mark :: back)) =
      front.take (exponentLength front) := take_exponentLength_edge edge
  cases front with
  | nil =>
    rw [List.nil_append] at exponent ⊢
    have notPoint : mark ≠ '.' := edge.ne (by decide)
    simp [float?, notPoint, exponent]
  | cons first rest =>
    by_cases isPoint : first = '.'
    · subst isPoint
      rw [List.cons_append, float?, float?, takeWhile_edge edge.digit, drop_takeWhile_edge,
        take_exponentLength_edge edge]
    · rw [List.cons_append] at exponent ⊢
      simp [float?, isPoint, exponent]

/-- So do digits to the base sixteen. -/
theorem hexDigits_edge (edge : Edge mark) :
    hexDigits (front ++ mark :: back) = hexDigits front := by
  cases front with
  | nil =>
    have noLetter : ¬ (mark = 'x' ∨ mark = 'X') := by
      rintro (rfl | rfl) <;> exact absurd edge.part (by decide)
    simp [hexDigits, noLetter]
  | cons first rest =>
    rw [List.cons_append, hexDigits, hexDigits, takeWhile_edge edge.hex]

/-- A number ends at an edge. -/
theorem read_edge (edge : Edge mark) : read (front ++ mark :: back) = read front := by
  have int (digits rest : List Char) : int digits (rest ++ mark :: back) = int digits rest := by
    unfold Numeral.int
    rw [hexDigits_edge edge]
  unfold read
  rw [takeWhile_edge edge.digit]
  dsimp only
  rw [drop_takeWhile_edge, float?_edge edge, int]

/-- So does a word that runs on from a number. -/
theorem trailingIdentifier_edge (edge : Edge mark) :
    trailingIdentifier (front ++ mark :: back) = trailingIdentifier front := by
  cases front with
  | nil => simp [trailingIdentifier, edge.start]
  | cons first rest =>
    rw [List.cons_append, trailingIdentifier, trailingIdentifier, takeWhile_edge edge.part]

/-- A number is no longer than its text. -/
theorem length_float?_le {whole after : List Char} {numeral : Numeral}
    (found : float? whole after = some numeral) : numeral.length ≤ whole.length + after.length := by
  unfold float? at found
  split at found
  · next rest =>
    obtain rfl := Option.some.inj found
    have digits := (@List.takeWhile_prefix _ rest Char.isDigit).length_le
    have exponent := List.length_take_le'
      (exponentLength (rest.drop (rest.takeWhile Char.isDigit).length))
      (rest.drop (rest.takeWhile Char.isDigit).length)
    rw [List.length_drop] at exponent
    dsimp only
    rw [List.length_cons]
    omega
  · dsimp only at found
    split at found
    · cases found
    · obtain rfl := Option.some.inj found
      exact Nat.add_le_add_left (List.length_take_le' _ _) _

theorem length_int_le (digits after : List Char) :
    (int digits after).length ≤ digits.length + after.length := by
  unfold int
  split
  · have hex : (hexDigits after).length + 1 ≤ after.length ∨ hexDigits after = [] := by
      unfold hexDigits
      split
      · next first rest =>
        split
        · exact .inl (Nat.succ_le_succ (List.takeWhile_prefix _).length_le)
        · exact .inr rfl
      · exact .inr rfl
    split
    · exact Nat.le_add_right _ _
    · next found =>
      rcases hex with fits | none
      · dsimp only [List.length_cons, List.length_nil]
        omega
      · exact absurd none found
  · split <;> exact Nat.le_add_right _ _
  · exact Nat.le_add_right _ _

/-- A number lies within the text that it is read from. -/
theorem length_read_le (characters : List Char) :
    (read characters).length ≤ characters.length := by
  have digits := (@List.takeWhile_prefix _ characters Char.isDigit).length_le
  have total : (characters.takeWhile Char.isDigit).length +
      (characters.drop (characters.takeWhile Char.isDigit).length).length = characters.length := by
    rw [List.length_drop]
    omega
  rw [← total]
  unfold read
  dsimp only
  cases found : float? (characters.takeWhile Char.isDigit)
      (characters.drop (characters.takeWhile Char.isDigit).length) with
  | none => exact length_int_le _ _
  | some numeral => exact length_float?_le found

end Numeral

/-! ### Escapes -/

/-- No part of an escape is an edge. -/
theorem Escape.read?_edge (edge : Edge mark) :
    Escape.read? (front ++ mark :: back) = Escape.read? front := by
  have digits (count : Nat) (test : Char → Bool) (stops : test mark = false) (text : List Char) :
      ((text ++ mark :: back).take count).takeWhile test = (text.take count).takeWhile test := by
    rcases Nat.le_total count text.length with fewer | more
    · rw [List.take_append_of_le_length fewer]
    · obtain ⟨extra, rfl⟩ := Nat.exists_eq_add_of_le more
      rw [List.take_length_add_append, List.take_of_length_le more]
      cases extra with
      | zero => rw [List.take_zero, List.append_nil]
      | succ extra => rw [List.take_succ_cons, takeWhile_edge stops]
  cases front with
  | nil =>
    have noLetter : ∀ letter ∈ ['x', 'X', 'u', 'U'], mark ≠ letter := by
      rintro letter member rfl
      have letters : ∀ letter ∈ ['x', 'X', 'u', 'U'], isIdentifierPart letter = true :=
        List.all_eq_true.mp rfl
      exact absurd (letters _ member) (Bool.eq_false_iff.mp edge.part)
    simp only [List.mem_cons, List.not_mem_nil, or_false, forall_eq_or_imp, forall_eq] at noLetter
    simp [read?, noLetter, edge.octal, edge.simple]
  | cons first rest =>
    have octal := digits 3 isOctalDigit edge.octal (first :: rest)
    rw [List.cons_append] at octal ⊢
    simp only [read?, byte?, character?, octal?, digits _ isHexDigit edge.hex, octal]

/-- An escape lies within the text that it is read from. -/
theorem Escape.length_read?_le {text : List Char} {escape : Escape}
    (found : Escape.read? text = some escape) : escape.length ≤ text.length := by
  have taken (count : Nat) (test : Char → Bool) (following : List Char) :
      ((following.take count).takeWhile test).length ≤ following.length :=
    Nat.le_trans (List.takeWhile_prefix _).length_le (List.length_take_le' _ _)
  have character (count : Nat) (first : Char) (following : List Char)
      (found : character? count following = some escape) :
      escape.length ≤ (first :: following).length := by
    unfold character? at found
    dsimp only at found
    split at found
    · next exact =>
      obtain rfl := Option.some.inj found
      exact Nat.succ_le_succ (exact ▸ taken count isHexDigit following)
    · cases found
  cases text with
  | nil => cases found
  | cons first following =>
    rw [read?] at found
    split_ifs at found
    · unfold byte? at found
      split at found
      · cases found
      · obtain rfl := Option.some.inj found
        exact Nat.succ_le_succ (taken 2 isHexDigit following)
    · exact character 4 first following found
    · exact character 8 first following found
    · unfold octal? at found
      split at found
      · cases found
      · obtain rfl := Option.some.inj found
        exact taken 3 isOctalDigit (first :: following)
    · obtain ⟨byte, -, rfl⟩ := Option.map_eq_some_iff.mp found
      exact Nat.succ_le_succ (Nat.zero_le _)

end ProtoSchema
