/-
This file shows what the parsers of reservations, enums, services, oneofs and
extension blocks answer: their members are well formed, and no fault was found
in the declaration as a whole.
-/

import ProtoSchema.Grammar.Messages
import ProtoSchema.Grammar.Services
import ProtoSchema.Proofs.Grammar.Fields

namespace ProtoSchema

/-! ### The word that is not printed -/

@[simp] theorem requiredWords_textToken {text : String} {tokens : List Token} :
    requiredWords (textToken text :: tokens) = requiredWords tokens := by
  simp [textToken]

@[simp] theorem requiredWords_range {range : Range} : requiredWords range.tokens = 0 := by
  obtain ⟨first, last⟩ := range
  cases last <;> simp [Range.tokens, RangeEnd.tokens]

namespace Parser

variable {declared : Option Edition} {kind : RangeKind} {input : List Token}

/-! ### Reserved numbers and names -/

/-- A bound has a sign only where it may. -/
theorem ensures_rangeBound :
    Ensures declared input (rangeBound kind) fun found rest =>
      kind.Bounds found ∧ input = found.tokens ++ rest := by
  cases kind with
  | field => exact ensures_positiveInt.mono fun _ _ found => found.imp_left fun unsigned _ => unsigned
  | enumValue => exact ensures_signedInt.mono fun _ _ eq => ⟨by simp [RangeKind.Bounds], eq⟩

/-- The end of a range is a bound, or the word for the greatest number. -/
theorem ensures_rangeEnd :
    Ensures declared input (rangeEnd kind) fun found rest =>
      (∀ literal, found = .int literal → kind.Bounds literal) ∧
        requiredWords rest ≤ requiredWords input := by
  have ensures_int : Ensures declared input (rangeBound kind >>= fun literal =>
      pure (RangeEnd.int literal)) fun found rest =>
        (∀ literal, found = .int literal → kind.Bounds literal) ∧
          requiredWords rest ≤ requiredWords input := by
    refine ensures_rangeBound.bind ?_
    rintro literal rest ⟨bounds, rfl⟩
    refine Ensures.pure ⟨?_, by simp⟩
    rintro other same
    exact RangeEnd.int.inj same ▸ bounds
  refine Ensures.look ?_
  split
  · next head =>
    obtain ⟨rest, rfl⟩ := List.head?_eq_some_iff.mp head
    exact Ensures.advance fun _ => Ensures.pure ⟨by simp, by simp⟩
  · exact ensures_int
  · exact ensures_int
  · exact Ensures.unexpected

theorem ensures_range :
    Ensures declared input (range kind) fun found rest =>
      found.WellFormed kind ∧ requiredWords (found.tokens ++ rest) ≤ requiredWords input := by
  refine ensures_rangeBound.bind ?_
  rintro first rest ⟨bounds, rfl⟩
  refine Ensures.look ?_
  split
  · next head =>
    obtain ⟨rest, rfl⟩ := List.head?_eq_some_iff.mp head
    refine Ensures.advance fun _ => ensures_rangeEnd.bind ?_
    rintro last left ⟨lastBounds, words⟩
    exact Ensures.pure ⟨⟨bounds, lastBounds⟩, by simpa using words⟩
  · split
    · exact Ensures.pure ⟨⟨bounds, by simp⟩, by simp⟩
    · exact Ensures.unexpected
  · exact Ensures.unexpected

theorem ensures_ranges :
    Ensures declared input (ranges kind) fun found rest =>
      (found ≠ [] ∧ ∀ range ∈ found, range.WellFormed kind) ∧
        requiredWords (separated .comma (found.map Range.tokens) ++ rest) ≤ requiredWords input :=
  ensures_commaList fun _ => ensures_range

/-- A name in quotes that is no identifier is told, so without a fault it is one. -/
theorem ensures_reservedName :
    Ensures declared input reservedName fun found rest =>
      found.WellFormed ∧ requiredWords ([textToken found.text] ++ rest) ≤ requiredWords input := by
  refine ensures_text.bind ?_
  rintro name rest same
  refine Ensures.report fun sound => Ensures.pure ⟨?_, by simp [same]⟩
  rw [ite_eq_left_iff] at sound
  by_contra noIdentifier
  cases sound noIdentifier

/-- Something is reserved, and all of it as it may be. -/
theorem ensures_reservedItems :
    Ensures declared input (reservedItems kind) fun found rest =>
      found.WellFormed kind ∧ requiredWords (found.tokens ++ rest) ≤ requiredWords input := by
  have ensures_bounds : Ensures declared input (ranges kind >>= fun items =>
      pure (ReservedItems.ranges items)) fun found rest =>
        found.WellFormed kind ∧ requiredWords (found.tokens ++ rest) ≤ requiredWords input :=
    ensures_ranges.bind fun _ _ found => Ensures.pure found
  refine Ensures.look ?_
  split
  · exact ensures_bounds
  · exact ensures_bounds
  · exact (ensures_commaList fun _ => ensures_reservedName).bind fun _ _ found =>
      Ensures.pure found
  · exact Ensures.unexpected

theorem ensures_reserved :
    Ensures declared input (reserved kind) fun found rest =>
      found.WellFormed kind ∧ requiredWords (found.tokens ++ rest) ≤ requiredWords input := by
  refine ensures_leadingComments.bind ?_
  rintro comments _ rfl
  refine Ensures.expect ?_
  rintro start rest rfl
  refine ensures_reservedItems.bind ?_
  rintro items rest ⟨wellFormed, words⟩
  refine ensures_terminator.bind ?_
  rintro ⟨stop, trailing⟩ rest rfl
  exact Ensures.pure ⟨wellFormed, by simpa [Reserved.tokens] using words⟩

theorem ensures_extensionRanges :
    Ensures declared input extensionRanges fun found rest =>
      found.WellFormed ∧ requiredWords (found.tokens ++ rest) ≤ requiredWords input := by
  refine ensures_leadingComments.bind ?_
  rintro comments _ rfl
  refine Ensures.expect ?_
  rintro start rest rfl
  refine ensures_ranges.bind ?_
  rintro ranges rest ⟨⟨some, each⟩, words⟩
  refine ensures_optionalSettings.bind ?_
  rintro options rest ⟨options, optionWords⟩
  refine ensures_terminator.bind ?_
  rintro ⟨stop, trailing⟩ rest rfl
  refine Ensures.pure ⟨⟨some, each, options⟩, ?_⟩
  simp [ExtensionRanges.tokens] at words optionWords ⊢
  omega

/-! ### Enums -/

/-- A value does not start with a word that starts another member. -/
theorem ensures_enumValue
    (leads : ∀ word, input.head? = some (.word word) → word ∉ ["option", "reserved"]) :
    Ensures declared input enumValue fun found rest =>
      found.WellFormed ∧ requiredWords (found.tokens ++ rest) ≤ requiredWords input := by
  refine ensures_leadingComments.bind ?_
  rintro comments spelled rfl
  refine ensures_name.bind ?_
  rintro name rest ⟨rfl, nameWellFormed⟩
  refine Ensures.expect ?_
  rintro _ rest rfl
  refine ensures_signedInt.bind ?_
  rintro number rest rfl
  refine Ensures.report fun sound => ensures_optionalSettings.bind ?_
  rintro options rest ⟨optionsWellFormed, words⟩
  refine ensures_terminator.bind ?_
  rintro ⟨stop, trailing⟩ rest rfl
  refine Ensures.pure ⟨⟨nameWellFormed, leads _ rfl, sound, optionsWellFormed⟩, ?_⟩
  simp [EnumValue.tokens] at words ⊢
  omega

/-- Each member of an enum is as it should be, and aliases are allowed as its options say. -/
theorem ensuresMember_enum :
    EnsuresMember declared enumMember
      (fun enumeration => enumeration.name.WellFormed ∧ enumeration.Members)
      fun enumeration => requiredWords enumeration.tokens := by
  rintro enumeration next rest parser ⟨name, members⟩ found
  unfold enumMember at found
  split at found
  · split at found
    · obtain rfl := Option.some.inj found
      refine ensures_optionStatement.bind ?_
      rintro option left ⟨wellFormed, words⟩
      refine Ensures.pure ⟨⟨name, ?_⟩, ?_⟩
      · exact { members with
          options := forall_mem_concat members.options wellFormed
          aliases := by
            simp only [Enumeration.addOption, Enumeration.aliasesAfter, List.foldl_append,
              List.foldl_cons, List.foldl_nil]
            rw [members.aliases]
            rfl }
      · simp [Enumeration.tokens, Enumeration.addOption] at words ⊢
        omega
    · split at found
      · obtain rfl := Option.some.inj found
        refine ensures_reserved.bind ?_
        rintro reserved left ⟨wellFormed, words⟩
        refine Ensures.pure ⟨⟨name, ?_⟩, ?_⟩
        · exact { members with
            reserved := forall_mem_concat members.reserved wellFormed }
        · simp [Enumeration.tokens] at words ⊢
          omega
      · next noOption noReserved =>
        obtain rfl := Option.some.inj found
        refine (ensures_enumValue ?_).bind ?_
        · rintro word head
          simp_all
        · rintro value left ⟨wellFormed, words⟩
          refine Ensures.pure ⟨⟨name, ?_⟩, ?_⟩
          · exact { members with
              values := forall_mem_concat members.values wellFormed }
          · simp [Enumeration.tokens] at words ⊢
            omega
  · cases found

/-- Without a fault the check of an enum found nothing. -/
theorem ensures_enumeration :
    Ensures declared input Parser.enumeration fun found rest =>
      found.WellFormed ∧ requiredWords (found.tokens ++ rest) ≤ requiredWords input := by
  refine ensures_header ?_
  rintro comments start name trailing rest rfl wellFormed
  refine (ensures_body ensuresMember_enum ⟨wellFormed, ?_⟩).bind ?_
  · exact ⟨by simp, by simp, by simp, rfl⟩
  · rintro ⟨read, stop⟩ left ⟨⟨name, members⟩, words⟩
    refine Ensures.report fun sound => Ensures.pure ⟨⟨name, ?_, sound⟩, ?_⟩
    · exact ⟨members.values, members.options, members.reserved, members.aliases⟩
    · simp [Enumeration.tokens] at words ⊢
      omega

/-! ### Services -/

/-- What starts with a stream starts so whatever follows. -/
theorem startsStream_append {tokens others : List Token} (starts : startsStream tokens = true) :
    startsStream ((tokens ++ others).take 2) = true := by
  unfold startsStream at starts
  split at starts
  · rfl
  · rfl
  · cases starts

/-- If no word for a stream was taken, none was there. -/
theorem ensures_streamWord :
    Ensures declared input streamWord fun found rest =>
      requiredWords rest ≤ requiredWords input ∧
        (found = false → rest = input ∧ startsStream (input.take 2) = false) := by
  refine Ensures.ahead ?_
  split
  · next starts =>
    cases input with
    | nil => cases starts
    | cons first rest => exact Ensures.advance fun _ => Ensures.pure ⟨List.count_le_count_cons, by simp⟩
  · next noStream => exact Ensures.pure ⟨Nat.le_refl _, fun _ => ⟨rfl, by simpa using noStream⟩⟩

/-- A type is read back with its word for a stream. -/
theorem ensures_methodType :
    Ensures declared input methodType fun found rest =>
      (found.2.WellFormed ∧ found.2.Streams found.1) ∧
        requiredWords (methodTypeTokens found.1 found.2 ++ rest) ≤ requiredWords input := by
  refine Ensures.expect ?_
  rintro _ rest rfl
  refine ensures_streamWord.bind ?_
  rintro streams afterWord ⟨words, noStream⟩
  refine ensures_typeName.bind ?_
  rintro name rest ⟨wellFormed, rfl, -⟩
  refine Ensures.expect ?_
  rintro _ rest rfl
  refine Ensures.pure ⟨⟨wellFormed, ?_⟩, ?_⟩
  · rintro rfl
    obtain ⟨rfl, noStream⟩ := noStream rfl
    by_contra starts
    rw [startsStream_append (by simpa using starts)] at noStream
    cases noStream
  · cases streams <;> simp [methodTypeTokens] at words ⊢ <;> omega

/-- The options in the body of a method. -/
theorem ensures_methodEnd :
    Ensures declared input methodEnd fun found rest =>
      (∀ option ∈ found.1, option.WellFormed) ∧
        requiredWords (found.1.flatMap OptionStatement.tokens ++ rest) ≤ requiredWords input := by
  refine Ensures.look ?_
  split
  · refine ensures_terminator.bind ?_
    rintro ⟨stop, trailing⟩ rest rfl
    exact Ensures.pure ⟨by simp, by simp⟩
  · refine ensures_openBrace.bind ?_
    rintro trailing rest rfl
    have options : EnsuresMember declared
        (fun (options : List OptionStatement) next =>
          if next = .word "option" then some do return options ++ [← optionStatement] else none)
        (fun options => ∀ option ∈ options, option.WellFormed)
        fun options => requiredWords (options.flatMap OptionStatement.tokens) := by
      intro options next rest parser each found
      dsimp only at found ⊢
      split at found
      · obtain rfl := Option.some.inj found
        refine ensures_optionStatement.bind ?_
        rintro option left ⟨wellFormed, words⟩
        refine Ensures.pure ⟨?_, ?_⟩
        · exact forall_mem_concat each wellFormed
        · simp at words ⊢
          omega
      · cases found
    refine (ensures_body options (by simp)).bind ?_
    rintro ⟨options, stop⟩ left ⟨each, words⟩
    exact Ensures.pure ⟨each, by simpa using words⟩
  · exact Ensures.unexpected

@[simp] theorem requiredWords_method {method : Method} :
    requiredWords method.tokens =
      (if method.name.text = "required" then 1 else 0) +
        requiredWords (methodTypeTokens method.streamsInput method.input) +
        requiredWords (methodTypeTokens method.streamsOutput method.output) +
        requiredWords (method.options.flatMap OptionStatement.tokens) := by
  rw [Method.tokens]
  split
  · next none =>
    rw [List.isEmpty_iff.mp none]
    simp
    omega
  · simp
    omega

/-- A method is as its types and its options are. -/
theorem ensures_method :
    Ensures declared input Parser.method fun found rest =>
      found.WellFormed ∧ requiredWords (found.tokens ++ rest) ≤ requiredWords input := by
  refine ensures_leadingComments.bind ?_
  rintro comments _ rfl
  refine Ensures.expect ?_
  rintro start rest rfl
  refine ensures_name.bind ?_
  rintro name rest ⟨rfl, nameWellFormed⟩
  refine ensures_methodType.bind ?_
  rintro ⟨streamsInput, input⟩ rest ⟨⟨inputWellFormed, inputStreams⟩, inputWords⟩
  refine Ensures.expect ?_
  rintro _ rest rfl
  refine ensures_methodType.bind ?_
  rintro ⟨streamsOutput, output⟩ rest ⟨⟨outputWellFormed, outputStreams⟩, outputWords⟩
  refine ensures_methodEnd.bind ?_
  rintro ⟨options, stop, trailing⟩ rest ⟨optionsWellFormed, optionWords⟩
  refine Ensures.pure ⟨⟨nameWellFormed, inputWellFormed, inputStreams, outputWellFormed,
    outputStreams, optionsWellFormed⟩, ?_⟩
  simp at inputWords outputWords optionWords ⊢
  omega

theorem ensuresMember_service :
    EnsuresMember declared serviceMember
      (fun service => service.name.WellFormed ∧ service.Members)
      fun service => requiredWords service.tokens := by
  rintro service next rest parser ⟨name, members⟩ found
  unfold serviceMember at found
  split at found
  · obtain rfl := Option.some.inj found
    refine ensures_method.bind ?_
    rintro method left ⟨wellFormed, words⟩
    refine Ensures.pure ⟨⟨name, ?_⟩, ?_⟩
    · exact { members with
        methods := forall_mem_concat members.methods wellFormed }
    · simp [Service.tokens] at words ⊢
      omega
  · split at found
    · obtain rfl := Option.some.inj found
      refine ensures_optionStatement.bind ?_
      rintro option left ⟨wellFormed, words⟩
      refine Ensures.pure ⟨⟨name, ?_⟩, ?_⟩
      · exact { members with
          options := forall_mem_concat members.options wellFormed }
      · simp [Service.tokens] at words ⊢
        omega
    · cases found

/-- Without a fault the check of a service found nothing. -/
theorem ensures_service :
    Ensures declared input Parser.service fun found rest =>
      found.WellFormed ∧ requiredWords (found.tokens ++ rest) ≤ requiredWords input := by
  refine ensures_header ?_
  rintro comments start name trailing rest rfl wellFormed
  refine (ensures_body ensuresMember_service ⟨wellFormed, by simp, by simp⟩).bind ?_
  rintro ⟨read, stop⟩ left ⟨⟨name, members⟩, words⟩
  refine Ensures.report fun sound => Ensures.pure ⟨⟨name, ?_, sound⟩, ?_⟩
  · exact ⟨members.methods, members.options⟩
  · simp [Service.tokens] at words ⊢
    omega

/-! ### Oneofs -/

/-- A word that a field of the place starts with is that of no other member. -/
theorem notMember_of_field {next : Token} {rest : List Token} {context : FieldContext}
    (noOption : next ≠ .word "option") (only : context.memberWords = ["option"]) :
    ∀ word, (next :: rest).head? = some (.word word) → word ∉ context.memberWords := by
  rintro word head member
  rw [only, List.mem_singleton] at member
  subst member
  exact noOption (Option.some.inj head)

/-- Each member of a oneof is as it should be, and knows its index. -/
theorem ensuresMember_oneof (index : Nat) :
    EnsuresMember declared (oneofMember index)
      (fun oneof => oneof.name.WellFormed ∧ oneof.Members declared index)
      fun oneof => requiredWords oneof.tokens := by
  rintro oneof next rest parser ⟨name, members⟩ found
  unfold oneofMember at found
  split at found
  · obtain rfl := Option.some.inj found
    refine ensures_optionStatement.bind ?_
    rintro option left ⟨wellFormed, words⟩
    refine Ensures.pure ⟨⟨name, ?_⟩, ?_⟩
    · exact { members with
        options := forall_mem_concat members.options wellFormed }
    · simp [Oneof.tokens] at words ⊢
      omega
  · next noOption =>
    split at found
    · obtain rfl := Option.some.inj found
      refine (ensures_field (notMember_of_field noOption rfl)).bind ?_
      rintro _ left ⟨field, rfl, wellFormed, words⟩
      refine Ensures.pure ⟨⟨name, ?_⟩, ?_⟩
      · exact { members with
          fields := forall_mem_concat members.fields wellFormed }
      · simp [Oneof.tokens] at words ⊢
        omega
    · cases found

/-- Without a fault the check of a oneof found nothing. -/
theorem ensures_oneof (index : Nat) :
    Ensures declared input (Parser.oneof index) fun found rest =>
      found.WellFormed declared index ∧
        requiredWords (found.tokens ++ rest) ≤ requiredWords input := by
  refine ensures_header ?_
  rintro comments start name trailing rest rfl wellFormed
  refine (ensures_body (ensuresMember_oneof index) ⟨wellFormed, by simp, by simp⟩).bind ?_
  rintro ⟨read, stop⟩ left ⟨⟨name, members⟩, words⟩
  refine Ensures.report fun sound => Ensures.pure ⟨⟨name, ?_, sound⟩, ?_⟩
  · exact ⟨members.fields, members.options⟩
  · simp [Oneof.tokens] at words ⊢
    omega

/-! ### Extension blocks -/

theorem ensuresMember_extension (parent : Option MessagePath) :
    EnsuresMember declared extensionMember
      (fun extension => extension.extendee.WellFormed ∧ extension.Members declared parent)
      fun extension => requiredWords extension.tokens := by
  rintro extension next rest parser ⟨extendee, members⟩ found
  unfold extensionMember at found
  split at found
  · obtain rfl := Option.some.inj found
    refine ensures_optionStatement.bind ?_
    rintro option left ⟨wellFormed, words⟩
    refine Ensures.pure ⟨⟨extendee, ?_⟩, ?_⟩
    · exact { members with
        options := forall_mem_concat members.options wellFormed }
    · simp [Extension.tokens] at words ⊢
      omega
  · next noOption =>
    split at found
    · obtain rfl := Option.some.inj found
      refine (ensures_field (notMember_of_field noOption rfl)).bind ?_
      rintro _ left ⟨field, rfl, wellFormed, words⟩
      refine Ensures.pure ⟨⟨extendee, ?_⟩, ?_⟩
      · exact { members with
          fields := forall_mem_concat members.fields wellFormed }
      · simp [Extension.tokens] at words ⊢
        omega
    · cases found

/-- Without a fault the check of an extension block found nothing. -/
theorem ensures_extension (parent : Option MessagePath) :
    Ensures declared input (Parser.extension parent) fun found rest =>
      found.WellFormed declared parent ∧
        requiredWords (found.tokens ++ rest) ≤ requiredWords input := by
  refine ensures_leadingComments.bind ?_
  rintro comments _ rfl
  refine Ensures.expect ?_
  rintro start rest rfl
  refine ensures_typeName.bind ?_
  rintro extendee rest ⟨wellFormed, rfl, -⟩
  refine ensures_openBrace.bind ?_
  rintro trailing rest rfl
  refine (ensures_body (ensuresMember_extension parent) ⟨wellFormed, ?_⟩).bind ?_
  · exact ⟨by simp, by simp, rfl, rfl⟩
  · rintro ⟨read, stop⟩ left ⟨⟨extendee, members⟩, words⟩
    refine Ensures.edition (Ensures.report fun sound => Ensures.pure ⟨⟨extendee, ?_, sound⟩, ?_⟩)
    · exact ⟨members.fields, members.options, members.parent, members.extendsOptions⟩
    · simp [Extension.tokens] at words ⊢
      omega

end Parser

end ProtoSchema
