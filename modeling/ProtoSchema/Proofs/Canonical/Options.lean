/-
This file shows that options are read back from their canonical tokens. A value
that is a message in text format is printed with braces, a colon after each key
and nothing between the entries; the proof goes by the depth to which messages
may still nest.
-/

import ProtoSchema.Proofs.Canonical.Phrases

namespace ProtoSchema

/-- Infinity is the only infinite magnitude that a source can spell. -/
theorem Magnitude.eq_infinity {magnitude : Magnitude} (infinite : magnitude.isInfinite = true)
    (bounded : magnitude.bits ≤ infinity.bits) : magnitude = infinity := by
  have above : infinity.bits ≤ magnitude.bits := by simpa [isInfinite] using infinite
  exact congrArg Magnitude.mk (Nat.le_antisymm bounded above)

/-! ### First tokens -/

/-- A scalar starts with no punctuation but a minus sign. -/
theorem OptionValue.IsScalar.tokens_eq_cons {value : OptionValue} (scalar : value.IsScalar) :
    ∃ first others, value.tokens = first :: others ∧ ∀ mark, first = .symbol mark → mark = .minus := by
  cases value with
  | identifier name => exact ⟨_, _, rfl, by simp⟩
  | int literal =>
    obtain ⟨negative, magnitude, span⟩ := literal
    cases negative
    · exact ⟨_, _, rfl, by simp⟩
    · exact ⟨_, _, rfl, by simp⟩
  | float value span =>
    cases value with
    | nan => exact ⟨_, _, rfl, by simp⟩
    | number negative magnitude =>
      cases negative
      · refine ⟨_, _, rfl, ?_⟩
        split <;> simp
      · exact ⟨_, _, rfl, by simp⟩
  | string bytes span => exact ⟨_, _, rfl, by simp⟩
  | bool value span => exact ⟨_, _, rfl, by simp⟩
  | array values span => exact scalar.elim
  | aggregate entries span => exact scalar.elim

/-- A message starts with a brace. -/
theorem OptionValue.IsMessage.tokens_eq_cons {depth : Nat} {value : OptionValue}
    (message : value.IsMessage depth) :
    ∃ others, value.tokens = .symbol .leftBrace :: others := by
  cases depth with
  | zero => exact message.elim
  | succ depth =>
    cases value with
    | aggregate entries span => exact ⟨_, rfl⟩
    | _ => exact message.elim

/-- The tokens of an entry start with a word or a bracket. -/
theorem OptionEntry.tokens_eq_cons (entry : OptionEntry) :
    ∃ first others, entry.tokens = first :: others ∧
      ((∃ word, first = .word word) ∨ first = .symbol .leftBracket) := by
  obtain ⟨key, value, span⟩ := entry
  cases key with
  | plain name => exact ⟨_, _, rfl, .inl ⟨_, rfl⟩⟩
  | extension name span => exact ⟨_, _, rfl, .inr rfl⟩

namespace Parser

variable {declared : Option Edition} {rest : List Token}

/-! ### Scalars -/

theorem reads_number_int (literal : IntLiteral) :
    Reads declared (literal.tokens ++ rest) number
      fun found left => found.erased = (OptionValue.int literal).erased ∧ left = rest := by
  obtain ⟨negative, magnitude, span⟩ := literal
  refine Reads.here fun start => ?_
  cases negative with
  | false =>
    refine Reads.accept_other (by simp [IntLiteral.tokens, minusTokens]) ?_
    refine Reads.accept_other (by simp [IntLiteral.tokens, minusTokens]) ?_
    exact Reads.look (Reads.advance fun _ => Reads.pure ⟨rfl, rfl⟩)
  | true =>
    refine Reads.accept ?_
    exact Reads.look (Reads.advance fun _ => Reads.pure ⟨rfl, rfl⟩)

theorem reads_number_float (value : Double) (span : Span) (wellFormed : value.WellFormed) :
    Reads declared (value.tokens ++ rest) number
      fun found left => found.erased = (OptionValue.float value span).erased ∧ left = rest := by
  refine Reads.here fun start => ?_
  cases value with
  | nan =>
    refine Reads.accept_other (by simp [Double.tokens]) ?_
    refine Reads.accept_other (by simp [Double.tokens]) ?_
    exact Reads.look (Reads.advance fun _ => Reads.pure ⟨rfl, rfl⟩)
  | number negative magnitude =>
    rw [Double.tokens]
    by_cases infinite : magnitude.isInfinite = true
    · obtain rfl := Magnitude.eq_infinity infinite wellFormed
      cases negative with
      | false =>
        refine Reads.accept_other (by simp [minusTokens, infinite]) ?_
        refine Reads.accept_other (by simp [minusTokens, infinite]) ?_
        exact Reads.look (Reads.advance fun _ => Reads.pure ⟨rfl, rfl⟩)
      | true =>
        refine Reads.accept ?_
        exact Reads.look (Reads.advance fun _ => Reads.pure ⟨rfl, rfl⟩)
    · rw [if_neg infinite]
      cases negative with
      | false =>
        refine Reads.accept_other (by simp [minusTokens]) ?_
        refine Reads.accept_other (by simp [minusTokens]) ?_
        exact Reads.look (Reads.advance fun _ => Reads.pure ⟨rfl, rfl⟩)
      | true =>
        refine Reads.accept ?_
        exact Reads.look (Reads.advance fun _ => Reads.pure ⟨rfl, rfl⟩)

/-- The tokens start as a number does. -/
def StartsNumber (input : List Token) : Prop :=
  ∃ first others, input = first :: others ∧
    (first = .symbol .minus ∨ (∃ value, first = .int value) ∨ (∃ value, first = .float value) ∨
      first = .word "inf" ∨ first = .word "nan")

theorem startsNumber_int (literal : IntLiteral) : StartsNumber (literal.tokens ++ rest) := by
  obtain ⟨negative, magnitude, span⟩ := literal
  cases negative
  · exact ⟨_, _, rfl, .inr (.inl ⟨_, rfl⟩)⟩
  · exact ⟨_, _, rfl, .inl rfl⟩

theorem startsNumber_float (value : Double) : StartsNumber (value.tokens ++ rest) := by
  cases value with
  | nan => exact ⟨_, _, rfl, .inr (.inr (.inr (.inr rfl)))⟩
  | number negative magnitude =>
    cases negative with
    | false =>
      refine ⟨_, _, rfl, ?_⟩
      split
      · exact .inr (.inr (.inr (.inl rfl)))
      · exact .inr (.inr (.inl ⟨_, rfl⟩))
    | true => exact ⟨_, _, rfl, .inl rfl⟩

theorem reads_scalarValue_number {expected : String} {input : List Token}
    {goal : OptionValue → List Token → Prop} (starts : StartsNumber input)
    (reads : Reads declared input number goal) :
    Reads declared input (scalarValue expected) goal := by
  obtain ⟨first, others, rfl, starts⟩ := starts
  refine Reads.look ?_
  rcases starts with rfl | ⟨value, rfl⟩ | ⟨value, rfl⟩ | rfl | rfl <;> exact reads

theorem reads_scalarValue (expected : String) (value : OptionValue) (scalar : value.IsScalar)
    (ends : EndsString rest) :
    Reads declared (value.tokens ++ rest) (scalarValue expected)
      fun found left => found.erased = value.erased ∧ left = rest := by
  cases value with
  | identifier name =>
    have known := scalar.2
    simp only [OptionValue.reservedWords, List.mem_cons, List.not_mem_nil, or_false, not_or]
      at known
    refine Reads.look ?_
    simp only [OptionValue.tokens, List.cons_append, List.head?_cons, known, if_false, or_self,
      List.nil_append]
    refine (reads_name name).bind ?_
    rintro found _ ⟨same, rfl⟩
    exact Reads.pure ⟨congrArg OptionValue.identifier same, rfl⟩
  | int literal => exact reads_scalarValue_number (startsNumber_int literal) (reads_number_int literal)
  | float value span =>
    exact reads_scalarValue_number (startsNumber_float value) (reads_number_float value span scalar)
  | string value span =>
    refine Reads.look ?_
    refine (reads_bytes value ends).bind ?_
    rintro ⟨found, place⟩ _ ⟨rfl, rfl⟩
    exact Reads.pure ⟨rfl, rfl⟩
  | bool value span =>
    cases value <;> exact Reads.look (Reads.advance fun _ => Reads.pure ⟨rfl, rfl⟩)
  | array values span => exact scalar.elim
  | aggregate entries span => exact scalar.elim

/-! ### Messages in text format -/

section Messages

variable {message : Parser OptionValue} {isMessage : OptionValue → Prop}

/-- The parser reads messages of some kind back, whatever follows. -/
def ReadsMessages (declared : Option Edition) (message : Parser OptionValue)
    (isMessage : OptionValue → Prop) : Prop :=
  ∀ value rest, isMessage value → (∃ others, value.tokens = .symbol .leftBrace :: others) ∧
    Reads declared (value.tokens ++ rest) message
      fun found left => found.erased = value.erased ∧ left = rest

theorem reads_entryValue (reads : ReadsMessages declared message isMessage) (value : OptionValue)
    (shape : value.IsScalar ∨ isMessage value) (ends : EndsString rest) :
    Reads declared (value.tokens ++ rest) (entryValue message)
      fun found left => found.erased = value.erased ∧ left = rest := by
  refine Reads.look ?_
  rcases shape with scalar | shape
  · obtain ⟨first, others, eq, noMark⟩ := scalar.tokens_eq_cons
    rw [eq, List.cons_append, List.head?_cons, ← List.cons_append, ← eq]
    split
    · next brace => exact absurd (noMark _ (Option.some.inj brace)) (by decide)
    · next angle => exact absurd (noMark _ (Option.some.inj angle)) (by decide)
    · exact reads_scalarValue _ value scalar ends
  · obtain ⟨⟨others, eq⟩, back⟩ := reads value rest shape
    rw [eq] at back ⊢
    exact back

/-- A value in a list starts with no bracket. -/
theorem ReadsMessages.tokens_eq_cons (reads : ReadsMessages declared message isMessage)
    {value : OptionValue} (shape : value.IsScalar ∨ isMessage value) :
    ∃ first others, value.tokens = first :: others ∧ first ≠ .symbol .rightBracket ∧
      first ≠ .symbol .leftBracket := by
  rcases shape with scalar | shape
  · obtain ⟨first, others, eq, noMark⟩ := scalar.tokens_eq_cons
    refine ⟨first, others, eq, ?_, ?_⟩
    · exact fun mark => absurd (noMark _ mark) (by decide)
    · exact fun mark => absurd (noMark _ mark) (by decide)
  · obtain ⟨⟨others, eq⟩, -⟩ := reads value [] shape
    exact ⟨_, others, eq, by decide, by decide⟩

theorem reads_array (reads : ReadsMessages declared message isMessage) (values : List OptionValue)
    (span : Span) (shape : ∀ value ∈ values, value.IsScalar ∨ isMessage value) :
    Reads declared ((OptionValue.array values span).tokens ++ rest) (array message)
      fun found left => found.erased = (OptionValue.array values span).erased ∧ left = rest := by
  rw [OptionValue.tokens, OptionValue.tokensEach_eq]
  refine Reads.expect fun start => Reads.look ?_
  cases values with
  | nil => exact Reads.advance fun _ => Reads.pure ⟨rfl, rfl⟩
  | cons value others =>
    obtain ⟨first, more, eq, noBracket, -⟩ :=
      reads.tokens_eq_cons (shape value List.mem_cons_self)
    have head : (separated .comma ((value :: others).map OptionValue.tokens) ++
        [Token.symbol .rightBracket] ++ rest).head? ≠ some (.symbol .rightBracket) := by
      rw [separated_cons, eq]
      simpa using noBracket
    rw [List.append_eq, if_neg head, List.append_assoc]
    refine (reads_commaList OptionValue.tokens OptionValue.erased (value :: others)
      (List.cons_ne_nil _ _) _ (decide_eq_true rfl) (by decide) ?_).bind ?_
    · intro inner member token left may
      refine reads_entryValue reads inner (shape inner member) ?_
      rcases may with rfl | rfl <;> exact endsString_symbol _
    · rintro found _ ⟨same, rfl⟩
      refine Reads.expect fun stop => Reads.pure ⟨?_, rfl⟩
      rw [OptionValue.erased_array, OptionValue.erased_array, same]

/-- The name of an extension between brackets is read back. -/
theorem reads_bracketedKey (opening closing : Symbol) (name : TypeName) (span : Span)
    (wellFormed : name.WellFormed) (noDot : closing ≠ .dot) :
    Reads declared ((OptionKey.extension name span).tokens opening closing ++ rest)
      (bracketedKey closing)
      fun found left => found.erased = (OptionKey.extension name span).erased ∧ left = rest := by
  rw [OptionKey.tokens, List.cons_append, List.append_assoc]
  refine Reads.advance fun start => ?_
  refine (reads_typeName name wellFormed ?_).bind ?_
  · simpa using noDot
  · rintro found _ ⟨same, rfl⟩
    refine Reads.expect fun stop => Reads.pure ⟨?_, rfl⟩
    rw [OptionKey.erased, OptionKey.erased, same]

theorem reads_entryKey (closing : Symbol) (key : OptionKey) (wellFormed : key.WellFormed) :
    Reads declared (key.tokens .leftBracket .rightBracket ++ rest) (entryKey closing)
      fun found left => found.erased = key.erased ∧ left = rest := by
  refine Reads.look ?_
  cases key with
  | plain name =>
    refine (reads_name name).bind ?_
    rintro found _ ⟨same, rfl⟩
    exact Reads.pure ⟨congrArg OptionKey.plain same, rfl⟩
  | extension name span => exact reads_bracketedKey _ _ name span wellFormed (by decide)

theorem reads_entryRest (reads : ReadsMessages declared message isMessage) (value : OptionValue)
    (shape : value.InEntry isMessage) (ends : EndsString rest) :
    Reads declared (.symbol .colon :: (value.tokens ++ rest)) (entryRest message)
      fun found left => found.erased = value.erased ∧ left = rest := by
  refine Reads.look (Reads.advance fun _ => Reads.look ?_)
  rcases shape.cases with ⟨values, span, rfl, each⟩ | shape
  · have head : ((OptionValue.array values span).tokens ++ rest).head? =
        some (.symbol .leftBracket) := by
      rw [OptionValue.tokens]
      rfl
    rw [if_pos head]
    exact reads_array reads values span each
  · obtain ⟨first, others, eq, -, noBracket⟩ := reads.tokens_eq_cons shape
    have head : (value.tokens ++ rest).head? ≠ some (.symbol .leftBracket) := by
      rw [eq]
      simpa using noBracket
    rw [if_neg head]
    exact reads_entryValue reads value shape ends

/-- After an entry comes the next key or the closing brace. -/
def EndsEntry (rest : List Token) : Prop :=
  ∃ first others, rest = first :: others ∧ ((∃ word, first = .word word) ∨
    first = .symbol .leftBracket ∨ first = .symbol .rightBrace)

theorem EndsEntry.endsString (ends : EndsEntry rest) : EndsString rest := by
  obtain ⟨first, others, rfl, ⟨word, rfl⟩ | rfl | rfl⟩ := ends <;> rintro bytes ⟨⟩

theorem reads_separator (ends : EndsEntry rest) :
    Reads declared rest separator fun _ left => left = rest := by
  refine Reads.look ?_
  obtain ⟨first, others, rfl, ⟨word, rfl⟩ | rfl | rfl⟩ := ends <;> exact Reads.pure rfl

theorem reads_entry (reads : ReadsMessages declared message isMessage) (closing : Symbol)
    (entry : OptionEntry) (key : entry.key.WellFormed) (shape : entry.value.InEntry isMessage)
    (ends : EndsEntry rest) :
    Reads declared (entry.tokens ++ rest) (Parser.entry message closing)
      fun found left => found.erased = entry.erased ∧ left = rest := by
  obtain ⟨name, value, span⟩ := entry
  rw [OptionEntry.tokens, List.append_assoc, List.cons_append]
  refine (reads_entryKey closing name key).bind ?_
  rintro foundKey _ ⟨sameKey, rfl⟩
  refine (reads_entryRest reads value shape ends.endsString).bind ?_
  rintro foundValue _ ⟨sameValue, rfl⟩
  refine (reads_separator ends).bind ?_
  rintro _ _ rfl
  refine Reads.pure ⟨?_, rfl⟩
  rw [OptionEntry.erased, OptionEntry.erased, sameKey, sameValue]

theorem reads_entries (reads : ReadsMessages declared message isMessage)
    (found : List OptionEntry)
    (shapes : ∀ entry ∈ found, entry.key.WellFormed ∧ entry.value.InEntry isMessage) :
    Reads declared (found.flatMap OptionEntry.tokens ++ .symbol .rightBrace :: rest)
      (entries message .rightBrace)
      fun answer left =>
        answer.1.map OptionEntry.erased = found.map OptionEntry.erased ∧ left = rest := by
  refine Reads.repeating (ReadsLoop.each OptionEntry.tokens
    (fun read state => state.map OptionEntry.erased = read.map OptionEntry.erased) found ?_ rfl ?_)
  · intro before entry after state split known
    obtain ⟨key, shape⟩ := shapes entry (by simp [split])
    have ends : EndsEntry (after.flatMap OptionEntry.tokens ++ .symbol .rightBrace :: rest) := by
      cases after with
      | nil => exact ⟨_, _, rfl, .inr (.inr rfl)⟩
      | cons next more =>
        obtain ⟨first, others, eq, starts⟩ := next.tokens_eq_cons
        rw [List.flatMap_cons, eq]
        exact ⟨first, _, rfl, starts.imp_right .inl⟩
    obtain ⟨first, others, eq, starts⟩ := entry.tokens_eq_cons
    have noBrace : first ≠ .symbol .rightBrace := by
      rcases starts with ⟨word, rfl⟩ | rfl <;> simp
    refine ⟨by simp [eq], Reads.look ?_⟩
    rw [eq, List.cons_append, List.head?_cons, if_neg (by simpa using noBrace), ← List.cons_append,
      ← eq]
    refine (reads_entry reads _ entry key shape ends).bind ?_
    rintro next _ ⟨same, rfl⟩
    refine Reads.pure ⟨_, rfl, ?_, rfl⟩
    rw [List.map_append, List.map_append, known, List.map_singleton, same, List.map_singleton]
  · intro state known
    refine ReadsLoop.last (Reads.look ?_)
    rw [List.head?_cons, if_pos rfl]
    exact Reads.advance fun stop => Reads.pure ⟨_, rfl, known, rfl⟩

end Messages

/-- Messages in text format are read back at the depth to which they nest. -/
theorem reads_aggregate (depth : Nat) :
    ReadsMessages declared (aggregate depth) (OptionValue.IsMessage depth) := by
  induction depth with
  | zero => exact fun _ _ shape => shape.elim
  | succ depth inductionHypothesis =>
    intro value rest shape
    refine ⟨shape.tokens_eq_cons, ?_⟩
    cases value with
    | aggregate found span =>
      rw [OptionValue.tokens, OptionEntry.tokensAll_eq, braced, List.cons_append, List.append_assoc]
      have closing : Reads declared
          (.symbol .leftBrace :: (found.flatMap OptionEntry.tokens ++
            ([Token.symbol .rightBrace] ++ rest)))
          closingBracket fun answer left => answer = .rightBrace ∧
            left = .symbol .leftBrace :: (found.flatMap OptionEntry.tokens ++
              ([Token.symbol .rightBrace] ++ rest)) :=
        Reads.look (Reads.pure ⟨rfl, rfl⟩)
      refine closing.bind ?_
      rintro _ _ ⟨rfl, rfl⟩
      refine Reads.advance fun start => ?_
      refine (reads_entries inductionHypothesis found shape).bind ?_
      rintro ⟨answer, stop⟩ _ ⟨same, rfl⟩
      refine Reads.pure ⟨?_, rfl⟩
      rw [OptionValue.erased_aggregate, OptionValue.erased_aggregate, same]
    | _ => exact shape.elim

/-! ### Settings -/

theorem reads_optionKey (key : OptionKey) (wellFormed : key.WellFormed) :
    Reads declared (key.tokens .leftParen .rightParen ++ rest) optionKey
      fun found left => found.erased = key.erased ∧ left = rest := by
  refine Reads.look ?_
  cases key with
  | plain name =>
    refine (reads_name name).bind ?_
    rintro found _ ⟨same, rfl⟩
    exact Reads.pure ⟨congrArg OptionKey.plain same, rfl⟩
  | extension name span => exact reads_bracketedKey _ _ name span wellFormed (by decide)

theorem reads_optionName (keys : List OptionKey) (some : keys ≠ [])
    (wellFormed : ∀ key ∈ keys, key.WellFormed) :
    Reads declared
      (separated .dot (keys.map (OptionKey.tokens .leftParen .rightParen)) ++
        .symbol .equals :: rest)
      optionName
      fun found left => found.map OptionKey.erased = keys.map OptionKey.erased ∧ left = rest := by
  obtain ⟨first, others, rfl⟩ := List.exists_cons_of_ne_nil some
  rw [separated_cons, List.append_assoc]
  refine (reads_optionKey first (wellFormed first List.mem_cons_self)).bind ?_
  rintro found _ ⟨same, rfl⟩
  refine Reads.repeating (ReadsLoop.each _
    (fun read keys => keys.map OptionKey.erased = (first :: read).map OptionKey.erased) others
    ?_ ?_ ?_)
  · intro before key after keys split known
    refine ⟨List.cons_ne_nil _ _, Reads.look (Reads.advance fun _ => ?_)⟩
    refine (reads_optionKey key (wellFormed key (by simp [split]))).bind ?_
    rintro next _ ⟨nextSame, rfl⟩
    refine Reads.pure ⟨_, rfl, ?_, rfl⟩
    rw [List.map_append, known, ← List.cons_append, List.map_append, List.map_singleton, nextSame,
      List.map_singleton]
  · rw [List.map_singleton, List.map_singleton, same]
  · intro keys known
    exact ReadsLoop.last (Reads.look (Reads.advance fun _ => Reads.pure ⟨_, rfl, known, rfl⟩))

theorem reads_setting (setting : OptionSetting) (wellFormed : setting.WellFormed)
    (ends : EndsString rest) :
    Reads declared (setting.tokens ++ rest) Parser.setting
      fun found left => found.erased = setting.erased ∧ left = rest := by
  obtain ⟨name, value⟩ := setting
  rw [OptionSetting.tokens, List.append_assoc, List.cons_append]
  refine (reads_optionName name wellFormed.some wellFormed.keys).bind ?_
  rintro foundName _ ⟨sameName, rfl⟩
  have erased {foundValue : OptionValue} (sameValue : foundValue.erased = value.erased) :
      (OptionSetting.mk foundName foundValue).erased = (OptionSetting.mk name value).erased := by
    rw [OptionSetting.erased, OptionSetting.erased, sameName, sameValue]
  refine Reads.look ?_
  rcases wellFormed.value with scalar | shape
  · obtain ⟨first, others, eq, noMark⟩ := scalar.tokens_eq_cons
    have head : (value.tokens ++ rest).head? ≠ some (.symbol .leftBrace) := by
      rw [eq]
      intro brace
      exact absurd (noMark _ (Option.some.inj brace)) (by decide)
    rw [if_neg head]
    refine (reads_scalarValue _ value scalar ends).bind ?_
    rintro foundValue _ ⟨sameValue, rfl⟩
    exact Reads.pure ⟨erased sameValue, rfl⟩
  · obtain ⟨⟨others, eq⟩, back⟩ := reads_aggregate _ value rest shape
    rw [if_pos (by rw [eq]; rfl)]
    refine back.bind ?_
    rintro foundValue _ ⟨sameValue, rfl⟩
    exact Reads.pure ⟨erased sameValue, rfl⟩

theorem reads_optionalSettings (settings : List OptionSetting)
    (wellFormed : ∀ setting ∈ settings, setting.WellFormed) :
    Reads declared (OptionSetting.listTokens settings ++ .symbol .semicolon :: rest)
      optionalSettings
      fun found left => found.map OptionSetting.erased = settings.map OptionSetting.erased ∧
        left = .symbol .semicolon :: rest := by
  cases settings with
  | nil => exact Reads.look (Reads.pure ⟨rfl, rfl⟩)
  | cons setting others =>
    rw [OptionSetting.listTokens, List.isEmpty_cons, if_neg Bool.false_ne_true, List.cons_append,
      List.append_assoc]
    refine Reads.look (Reads.expect fun _ => ?_)
    refine (reads_commaList OptionSetting.tokens OptionSetting.erased (setting :: others)
      (List.cons_ne_nil _ _) _ (decide_eq_true rfl) (by decide) ?_).bind ?_
    · intro inner member token left may
      refine reads_setting inner (wellFormed inner member) ?_
      rcases may with rfl | rfl <;> exact endsString_symbol _
    · rintro found _ ⟨same, rfl⟩
      exact Reads.expect fun _ => Reads.pure ⟨same, rfl⟩

theorem reads_optionStatement (option : OptionStatement) (wellFormed : option.WellFormed) :
    Reads declared (option.tokens ++ rest) optionStatement
      fun found left => found.erased = option.erased ∧ left = rest := by
  rw [OptionStatement.tokens, List.cons_append, List.append_assoc]
  refine reads_leadingComments fun comments => Reads.expect fun start => ?_
  refine (reads_setting option.setting wellFormed (endsString_symbol _)).bind ?_
  rintro found _ ⟨same, rfl⟩
  refine reads_terminator.bind ?_
  rintro ⟨stop, trailing⟩ _ rfl
  refine Reads.pure ⟨?_, rfl⟩
  rw [OptionStatement.erased, OptionStatement.erased, same]

end Parser

end ProtoSchema
