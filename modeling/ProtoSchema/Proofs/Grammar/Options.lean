/-
This file shows what the parsers of options answer. Values nest within the
limit, a list in an entry holds no lists, and identifiers are none of the words
that are values of their own.
-/

import ProtoSchema.Grammar.Options
import ProtoSchema.Proofs.Grammar.Phrases

namespace ProtoSchema

/-! ### The word that is not printed -/

@[simp] theorem requiredWords_minusTokens {negative : Bool} :
    requiredWords (minusTokens negative) = 0 := by
  cases negative <;> simp [minusTokens]

@[simp] theorem requiredWords_intLiteral {literal : IntLiteral} :
    requiredWords literal.tokens = 0 := by
  simp [IntLiteral.tokens]

@[simp] theorem requiredWords_double {value : Double} : requiredWords value.tokens = 0 := by
  cases value with
  | nan => simp [Double.tokens]
  | number negative magnitude =>
    rw [Double.tokens]
    split <;> simp

@[simp] theorem requiredWords_array {values : List OptionValue} {span : Span} :
    requiredWords (OptionValue.array values span).tokens =
      requiredWords (values.flatMap OptionValue.tokens) := by
  simp [OptionValue.tokens, OptionValue.tokensEach_eq, List.flatMap]

@[simp] theorem requiredWords_aggregate {entries : List OptionEntry} {span : Span} :
    requiredWords (OptionValue.aggregate entries span).tokens =
      requiredWords (entries.flatMap OptionEntry.tokens) := by
  simp [OptionValue.tokens, OptionEntry.tokensAll_eq]

@[simp] theorem requiredWords_settings {settings : List OptionSetting} :
    requiredWords (OptionSetting.listTokens settings) =
      requiredWords (settings.flatMap OptionSetting.tokens) := by
  cases settings <;> simp [OptionSetting.listTokens, List.flatMap]

/-- What is no list may stand in an entry. -/
theorem OptionValue.InEntry.of_noList {depth : Nat} {value : OptionValue}
    (shape : value.IsScalar ∨ value.IsMessage depth) : value.InEntry (IsMessage depth) := by
  cases value with
  | array values span =>
    rcases shape with shape | shape
    · exact shape.elim
    · cases depth <;> exact shape.elim
  | _ => exact shape

namespace Parser

variable {declared : Option Edition} {input : List Token}

/-! ### Scalars -/

/-- A number is a scalar, with a sign or without. -/
theorem ensures_number :
    Ensures declared input number fun found rest =>
      found.IsScalar ∧ requiredWords (found.tokens ++ rest) ≤ requiredWords input := by
  -- A minus sign, a plus sign or none: what may follow is the same.
  refine Ensures.here fun start => Ensures.accept ?_ fun _ => Ensures.accept ?_ fun _ => ?_
  any_goals rintro left rfl
  all_goals
    refine Ensures.of_lexical fun lexical => Ensures.look ?_
    split
    · next head =>
      obtain ⟨rest, rfl⟩ := List.head?_eq_some_iff.mp head
      exact Ensures.advance fun _ => Ensures.pure ⟨Nat.le_refl _, by simp [OptionValue.tokens]⟩
    · next head =>
      obtain ⟨rest, rfl⟩ := List.head?_eq_some_iff.mp head
      exact Ensures.advance fun _ => Ensures.pure ⟨trivial, by simp [OptionValue.tokens]⟩
    · next value head =>
      obtain ⟨rest, rfl⟩ := List.head?_eq_some_iff.mp head
      exact Ensures.advance fun _ => Ensures.pure ⟨trivial, by simp [OptionValue.tokens]⟩
    · next value head =>
      obtain ⟨rest, rfl⟩ := List.head?_eq_some_iff.mp head
      exact Ensures.advance fun _ => Ensures.pure ⟨lexical _ List.mem_cons_self,
        by simp [OptionValue.tokens]⟩
    · exact Ensures.unexpected

/-- A value is taken with no word of a label lost. -/
theorem ensures_scalarValue {expected : String} :
    Ensures declared input (scalarValue expected) fun found rest =>
      found.IsScalar ∧ requiredWords (found.tokens ++ rest) ≤ requiredWords input := by
  refine Ensures.look ?_
  split
  · next text head =>
    obtain ⟨rest, rfl⟩ := List.head?_eq_some_iff.mp head
    split
    · next isTrue =>
      exact Ensures.advance fun _ => Ensures.pure ⟨trivial, by simp [OptionValue.tokens]⟩
    · next notTrue =>
      split
      · next isFalse =>
        exact Ensures.advance fun _ => Ensures.pure ⟨trivial, by simp [OptionValue.tokens]⟩
      · next notFalse =>
        split
        · exact ensures_number
        · next noNumber =>
          refine ensures_name.bind ?_
          rintro found left ⟨eq, wellFormed⟩
          obtain ⟨rfl, rfl⟩ : text = found.text ∧ rest = left := by simpa using eq
          refine Ensures.pure ⟨⟨wellFormed, ?_⟩, by simp [OptionValue.tokens]⟩
          simp only [OptionValue.reservedWords, List.mem_cons, List.not_mem_nil, or_false]
          simp only [not_or] at noNumber ⊢
          exact ⟨notTrue, notFalse, noNumber.1, noNumber.2⟩
  · exact ensures_number
  · exact ensures_number
  · exact ensures_number
  · exact ensures_number
  · refine ensures_bytes.bind ?_
    rintro ⟨value, span⟩ rest same
    exact Ensures.pure ⟨trivial, by simp [OptionValue.tokens, same]⟩
  · exact Ensures.unexpected

/-! ### Messages in text format -/

/-- A message starts with a bracket, which is left. -/
theorem ensures_closingBracket :
    Ensures declared input closingBracket fun _ rest =>
      ∃ opening left, input = .symbol opening :: left ∧ rest = input := by
  refine Ensures.look ?_
  split
  · next head =>
    obtain ⟨rest, rfl⟩ := List.head?_eq_some_iff.mp head
    exact Ensures.pure ⟨_, _, rfl, rfl⟩
  · next head =>
    obtain ⟨rest, rfl⟩ := List.head?_eq_some_iff.mp head
    exact Ensures.pure ⟨_, _, rfl, rfl⟩
  · exact Ensures.unexpected

section Messages

variable {message : Parser OptionValue} {depth : Nat}

/-- What is asked of the parser of nested messages. -/
def EnsuresMessage (declared : Option Edition) (message : Parser OptionValue) (depth : Nat) :
    Prop :=
  ∀ input, Ensures declared input message fun found rest =>
    found.IsMessage depth ∧ requiredWords (found.tokens ++ rest) ≤ requiredWords input

theorem ensures_entryValue (nested : EnsuresMessage declared message depth) :
    Ensures declared input (entryValue message) fun found rest =>
      (found.IsScalar ∨ found.IsMessage depth) ∧
        requiredWords (found.tokens ++ rest) ≤ requiredWords input := by
  refine Ensures.look ?_
  split
  · exact (nested input).mono fun _ _ found => found.imp_left .inr
  · exact (nested input).mono fun _ _ found => found.imp_left .inr
  · exact ensures_scalarValue.mono fun _ _ found => found.imp_left .inl

/-- A list has scalars and messages in it, but no lists. -/
theorem ensures_array (nested : EnsuresMessage declared message depth) :
    Ensures declared input (array message) fun found rest =>
      found.InEntry (OptionValue.IsMessage depth) ∧ requiredWords (found.tokens ++ rest) ≤ requiredWords input := by
  refine Ensures.expect ?_
  rintro start rest rfl
  refine Ensures.look ?_
  split
  · next head =>
    obtain ⟨rest, rfl⟩ := List.head?_eq_some_iff.mp head
    exact Ensures.advance fun _ => Ensures.pure ⟨by simp [OptionValue.InEntry], by simp⟩
  · refine (ensures_commaList fun input => ensures_entryValue nested).bind ?_
    rintro values rest ⟨⟨-, each⟩, words⟩
    refine Ensures.expect ?_
    rintro stop left rfl
    refine Ensures.pure ⟨each, ?_⟩
    simpa [List.flatMap] using words

/-- The name of an extension is taken with its brackets. -/
theorem ensures_bracketedKey {opening closing : Symbol} {rest : List Token} :
    Ensures declared (.symbol opening :: rest) (bracketedKey closing) fun found left =>
      found.WellFormed ∧ .symbol opening :: rest = found.tokens opening closing ++ left := by
  refine Ensures.advance fun start => ensures_typeName.bind ?_
  rintro name left ⟨wellFormed, rfl, -⟩
  refine Ensures.expect ?_
  rintro stop left rfl
  exact Ensures.pure ⟨wellFormed, by simp [OptionKey.tokens]⟩

theorem ensures_entryKey {closing : Symbol} :
    Ensures declared input (entryKey closing) fun found rest =>
      found.WellFormed ∧ input = found.tokens .leftBracket .rightBracket ++ rest := by
  refine Ensures.look ?_
  split
  · refine ensures_name.bind ?_
    rintro name rest ⟨rfl, wellFormed⟩
    exact Ensures.pure ⟨wellFormed, rfl⟩
  · next head =>
    obtain ⟨rest, rfl⟩ := List.head?_eq_some_iff.mp head
    exact ensures_bracketedKey
  · exact Ensures.unexpected

/-- What follows a key is a scalar, a message or a list. -/
theorem ensures_entryRest (nested : EnsuresMessage declared message depth) :
    Ensures declared input (entryRest message) fun found rest =>
      found.InEntry (OptionValue.IsMessage depth) ∧ requiredWords (found.tokens ++ rest) ≤ requiredWords input := by
  refine Ensures.look ?_
  split
  · next head =>
    obtain ⟨rest, rfl⟩ := List.head?_eq_some_iff.mp head
    refine Ensures.advance fun _ => Ensures.look ?_
    rw [requiredWords_symbol]
    split
    · exact ensures_array nested
    · exact (ensures_entryValue nested).mono fun _ _ found => found.imp_left .of_noList
  · exact (nested input).mono fun _ _ found => found.imp_left fun shape => .of_noList (.inr shape)
  · exact (nested input).mono fun _ _ found => found.imp_left fun shape => .of_noList (.inr shape)
  · exact ensures_array nested
  · exact Ensures.unexpected

/-- A separator is no word. -/
theorem ensures_separator :
    Ensures declared input separator fun _ rest => requiredWords rest = requiredWords input := by
  refine Ensures.look ?_
  split
  · next head =>
    obtain ⟨rest, rfl⟩ := List.head?_eq_some_iff.mp head
    exact Ensures.advance fun _ => Ensures.pure (by simp)
  · next head =>
    obtain ⟨rest, rfl⟩ := List.head?_eq_some_iff.mp head
    exact Ensures.advance fun _ => Ensures.pure (by simp)
  · exact Ensures.pure rfl

theorem ensures_entry (nested : EnsuresMessage declared message depth) {closing : Symbol} :
    Ensures declared input (entry message closing) fun found rest =>
      (found.key.WellFormed ∧ found.value.InEntry (OptionValue.IsMessage depth)) ∧
        requiredWords (found.tokens ++ rest) ≤ requiredWords input := by
  refine ensures_entryKey.bind ?_
  rintro key rest ⟨keyWellFormed, rfl⟩
  refine (ensures_entryRest nested).bind ?_
  rintro value left ⟨shape, words⟩
  refine ensures_separator.bind ?_
  rintro _ remaining same
  refine Ensures.pure ⟨⟨keyWellFormed, shape⟩, ?_⟩
  simp [OptionEntry.tokens] at words ⊢
  omega

/-- All entries of a message are as they should be. -/
theorem ensures_entries (nested : EnsuresMessage declared message depth) {closing : Symbol} :
    Ensures declared input (entries message closing) fun found rest =>
      (∀ entry ∈ found.1, entry.key.WellFormed ∧ entry.value.InEntry (OptionValue.IsMessage depth)) ∧
        requiredWords (found.1.flatMap OptionEntry.tokens ++ rest) ≤ requiredWords input := by
  refine Ensures.repeating (fun found left =>
    (∀ entry ∈ found, entry.key.WellFormed ∧ entry.value.InEntry (OptionValue.IsMessage depth)) ∧
      requiredWords (found.flatMap OptionEntry.tokens ++ left) ≤ requiredWords input)
    (by simp) ?_
  rintro found left ⟨each, words⟩
  refine Ensures.look ?_
  split
  · next head =>
    obtain ⟨rest, rfl⟩ := List.head?_eq_some_iff.mp head
    exact Ensures.advance fun _ => Ensures.pure ⟨each, by simpa using words⟩
  · refine (ensures_entry nested).bind ?_
    rintro entry rest ⟨wellFormed, entryWords⟩
    refine Ensures.pure ⟨?_, ?_⟩
    · exact forall_mem_concat each wellFormed
    · simp at words entryWords ⊢
      omega

end Messages

/-- The depth to which messages nest is that to which the parser lets them. -/
theorem ensures_aggregate (depth : Nat) : EnsuresMessage declared (aggregate depth) depth := by
  induction depth with
  | zero =>
    intro input
    exact ensures_closingBracket.bind fun _ _ _ => Ensures.here fun _ => Ensures.stop
  | succ depth inductionHypothesis =>
    intro input
    refine ensures_closingBracket.bind ?_
    rintro closing _ ⟨opening, rest, rfl, rfl⟩
    refine Ensures.advance fun start => (ensures_entries inductionHypothesis).bind ?_
    rintro ⟨found, stop⟩ left ⟨each, words⟩
    exact Ensures.pure ⟨each, by simpa using words⟩

/-! ### Settings -/

theorem ensures_optionKey :
    Ensures declared input optionKey fun found rest =>
      found.WellFormed ∧ input = found.tokens .leftParen .rightParen ++ rest := by
  refine Ensures.look ?_
  split
  · next head =>
    obtain ⟨rest, rfl⟩ := List.head?_eq_some_iff.mp head
    exact ensures_bracketedKey
  · refine ensures_name.bind ?_
    rintro name rest ⟨rfl, wellFormed⟩
    exact Ensures.pure ⟨wellFormed, rfl⟩
  · exact Ensures.unexpected

/-- The name of an option has a key, and each key is as it should be. -/
theorem ensures_optionName :
    Ensures declared input optionName fun found rest =>
      (found ≠ [] ∧ ∀ key ∈ found, key.WellFormed) ∧
        requiredWords (found.flatMap (OptionKey.tokens .leftParen .rightParen) ++ rest) ≤
          requiredWords input := by
  refine ensures_optionKey.bind ?_
  rintro first rest ⟨wellFormed, rfl⟩
  refine Ensures.repeating (fun keys left => (keys ≠ [] ∧ ∀ key ∈ keys, key.WellFormed) ∧
    requiredWords (keys.flatMap (OptionKey.tokens .leftParen .rightParen) ++ left) ≤
      requiredWords (first.tokens .leftParen .rightParen ++ rest))
    ⟨⟨by simp, by simpa using wellFormed⟩, by simp⟩ ?_
  rintro keys left ⟨⟨some, each⟩, words⟩
  refine Ensures.look ?_
  split
  · next head =>
    obtain ⟨left, rfl⟩ := List.head?_eq_some_iff.mp head
    refine Ensures.advance fun _ => ensures_optionKey.bind ?_
    rintro key remaining ⟨wellFormed, rfl⟩
    refine Ensures.pure ⟨⟨by simp, ?_⟩, ?_⟩
    · exact forall_mem_concat each wellFormed
    · simp at words ⊢
      omega
  · next head =>
    obtain ⟨left, rfl⟩ := List.head?_eq_some_iff.mp head
    exact Ensures.advance fun _ => Ensures.pure ⟨⟨some, each⟩, by simpa using words⟩
  · exact Ensures.unexpected

/-- A setting that is taken nests within the limit. -/
theorem ensures_setting :
    Ensures declared input setting fun found rest =>
      found.WellFormed ∧ requiredWords (found.tokens ++ rest) ≤ requiredWords input := by
  refine ensures_optionName.bind ?_
  rintro name rest ⟨⟨some, keys⟩, nameWords⟩
  refine Ensures.look ?_
  split
  · refine (ensures_aggregate _ _).bind ?_
    rintro value left ⟨message, words⟩
    refine Ensures.pure ⟨⟨some, keys, .inr message⟩, ?_⟩
    simp [OptionSetting.tokens, List.flatMap] at nameWords words ⊢
    omega
  · refine ensures_scalarValue.bind ?_
    rintro value left ⟨scalar, words⟩
    refine Ensures.pure ⟨⟨some, keys, .inl scalar⟩, ?_⟩
    simp [OptionSetting.tokens, List.flatMap] at nameWords words ⊢
    omega

theorem ensures_settingList :
    Ensures declared input settingList fun found rest =>
      (∀ setting ∈ found, setting.WellFormed) ∧
        requiredWords (OptionSetting.listTokens found ++ rest) ≤ requiredWords input := by
  refine Ensures.expect ?_
  rintro _ rest rfl
  refine (ensures_commaList fun input => ensures_setting).bind ?_
  rintro settings rest ⟨⟨-, each⟩, words⟩
  refine Ensures.expect ?_
  rintro _ left rfl
  exact Ensures.pure ⟨each, by simpa [List.flatMap] using words⟩

/-- Settings may be missing. -/
theorem ensures_optionalSettings :
    Ensures declared input optionalSettings fun found rest =>
      (∀ setting ∈ found, setting.WellFormed) ∧
        requiredWords (OptionSetting.listTokens found ++ rest) ≤ requiredWords input := by
  refine Ensures.look ?_
  split
  · exact ensures_settingList
  · exact Ensures.pure ⟨by simp, by simp⟩
  · exact Ensures.unexpected

/-- A statement is as its setting is. -/
theorem ensures_optionStatement :
    Ensures declared input optionStatement fun found rest =>
      found.WellFormed ∧ requiredWords (found.tokens ++ rest) ≤ requiredWords input := by
  refine ensures_leadingComments.bind ?_
  rintro comments _ rfl
  refine Ensures.expect ?_
  rintro start rest rfl
  refine ensures_setting.bind ?_
  rintro setting rest ⟨wellFormed, words⟩
  refine ensures_terminator.bind ?_
  rintro ⟨stop, trailing⟩ left rfl
  exact Ensures.pure ⟨wellFormed, by simpa [OptionStatement.tokens] using words⟩

end Parser

end ProtoSchema
