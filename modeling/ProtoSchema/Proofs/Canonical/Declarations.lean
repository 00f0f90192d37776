/-
This file shows that ranges, reserved names, enums and services are read back
from their canonical tokens. The members of a body are printed kind by kind, so
what is known of the tree while its body is read is which kinds are complete.
-/

import ProtoSchema.Proofs.Canonical.Fields

namespace ProtoSchema

namespace Parser

variable {declared : Option Edition} {rest : List Token}

/-! ### Ranges -/

theorem reads_rangeBound (kind : RangeKind) (literal : IntLiteral) (bounds : kind.Bounds literal) :
    Reads declared (literal.tokens ++ rest) (rangeBound kind)
      fun found left => found.erased = literal.erased ∧ left = rest := by
  cases kind with
  | field => exact reads_positiveInt literal (bounds rfl)
  | enumValue => exact reads_signedInt _ literal

theorem reads_rangeEnd_int (kind : RangeKind) (literal : IntLiteral)
    (bounds : kind.Bounds literal) :
    Reads declared (literal.tokens ++ rest) (rangeEnd kind)
      fun found left => found.erased = (RangeEnd.int literal).erased ∧ left = rest := by
  have back : Reads declared (literal.tokens ++ rest)
      (do return RangeEnd.int (← rangeBound kind))
      fun found left => found.erased = (RangeEnd.int literal).erased ∧ left = rest := by
    refine (reads_rangeBound kind literal bounds).bind ?_
    rintro found _ ⟨same, rfl⟩
    exact Reads.pure ⟨congrArg RangeEnd.int same, rfl⟩
  obtain ⟨negative, magnitude, span⟩ := literal
  cases negative <;> exact Reads.look back

theorem reads_range (kind : RangeKind) (range : Range) (wellFormed : range.WellFormed kind)
    {token : Token} (ends : endsRange token = true) :
    Reads declared (range.tokens ++ token :: rest) (Parser.range kind)
      fun found left => found.erased = range.erased ∧ left = token :: rest := by
  obtain ⟨first, last⟩ := range
  rw [Range.tokens, List.append_assoc]
  refine (reads_rangeBound kind first wellFormed.first).bind ?_
  rintro foundFirst _ ⟨sameFirst, rfl⟩
  have erased {foundLast : RangeEnd} (sameLast : foundLast.erased = last.erased) :
      (Range.mk foundFirst foundLast).erased = (Range.mk first last).erased := by
    rw [Range.erased, Range.erased, sameFirst, sameLast]
  refine Reads.look ?_
  cases last with
  | absent =>
    rw [RangeEnd.tokens, List.nil_append, List.head?_cons]
    split
    · next eq =>
      rw [Option.some.inj eq] at ends
      cases ends
    · next _ eq =>
      rw [← Option.some.inj eq, if_pos ends]
      exact Reads.pure ⟨erased rfl, rfl⟩
    · next eq => cases eq
  | int literal =>
    refine Reads.advance fun _ => ?_
    refine (reads_rangeEnd_int kind literal (wellFormed.last literal rfl)).bind ?_
    rintro foundLast _ ⟨sameLast, rfl⟩
    exact Reads.pure ⟨erased sameLast, rfl⟩
  | max span =>
    refine Reads.advance fun _ => ?_
    have back : Reads declared (.word "max" :: token :: rest) (rangeEnd kind)
        fun found left => found.erased = (RangeEnd.max span).erased ∧ left = token :: rest :=
      Reads.look (Reads.advance fun _ => Reads.pure ⟨rfl, rfl⟩)
    refine back.bind ?_
    rintro foundLast _ ⟨sameLast, rfl⟩
    exact Reads.pure ⟨erased sameLast, rfl⟩

theorem reads_ranges (kind : RangeKind) (ranges : List Range) (some : ranges ≠ [])
    (wellFormed : ∀ range ∈ ranges, range.WellFormed kind) {stop : Token}
    (ends : stop = .symbol .leftBracket ∨ stop = .symbol .semicolon) :
    Reads declared (separated .comma (ranges.map Range.tokens) ++ stop :: rest)
      (Parser.ranges kind)
      fun found left => found.map Range.erased = ranges.map Range.erased ∧ left = stop :: rest := by
  refine reads_commaList Range.tokens Range.erased ranges some stop ?_ ?_ ?_
  · rcases ends with rfl | rfl <;> rfl
  · rcases ends with rfl | rfl <;> simp
  · intro range member token left may
    refine reads_range kind range (wellFormed range member) ?_
    rcases may with rfl | rfl
    · rfl
    · rcases ends with rfl | rfl <;> rfl

/-! ### Reserved numbers and names -/

theorem reads_reservedName (name : Name) (wellFormed : name.WellFormed) (ends : EndsString rest) :
    Reads declared (textToken name.text :: rest) reservedName
      fun found left => found.erased = name.erased ∧ left = rest := by
  refine (reads_text name.text ends).bind ?_
  rintro ⟨text, span⟩ _ ⟨rfl, rfl⟩
  exact Reads.report (if_pos wellFormed) (Reads.pure ⟨rfl, rfl⟩)

theorem reads_reservedNames (names : List Name) (some : names ≠ [])
    (wellFormed : ∀ name ∈ names, name.WellFormed) :
    Reads declared
      (separated .comma (names.map fun name => [textToken name.text]) ++ .symbol .semicolon :: rest)
      reservedNames
      fun found left => found.map Name.erased = names.map Name.erased ∧
        left = .symbol .semicolon :: rest := by
  refine reads_commaList (fun name => [textToken name.text]) Name.erased names some
    (.symbol .semicolon) ?_ ?_ ?_
  · exact decide_eq_true rfl
  · decide
  · intro name member token left may
    refine reads_reservedName name (wellFormed name member) ?_
    rcases may with rfl | rfl <;> exact endsString_symbol _

theorem reads_reservedItems (kind : RangeKind) (items : ReservedItems)
    (wellFormed : items.WellFormed kind) :
    Reads declared (items.tokens ++ .symbol .semicolon :: rest) (reservedItems kind)
      fun found left => found.erased = items.erased ∧ left = .symbol .semicolon :: rest := by
  cases items with
  | ranges items =>
    obtain ⟨some, each⟩ := wellFormed
    have back : Reads declared
        (separated .comma (items.map Range.tokens) ++ .symbol .semicolon :: rest)
        (do return ReservedItems.ranges (← Parser.ranges kind))
        fun found left => found.erased = (ReservedItems.ranges items).erased ∧
          left = .symbol .semicolon :: rest := by
      refine (reads_ranges kind items some each (.inr rfl)).bind ?_
      rintro found _ ⟨same, rfl⟩
      exact Reads.pure ⟨congrArg ReservedItems.ranges same, rfl⟩
    obtain ⟨first, others, rfl⟩ := List.exists_cons_of_ne_nil some
    obtain ⟨⟨negative, magnitude, span⟩, last⟩ := first
    cases negative <;> exact Reads.look back
  | names items =>
    obtain ⟨some, each⟩ := wellFormed
    have back : Reads declared
        (separated .comma (items.map fun name => [textToken name.text]) ++
          .symbol .semicolon :: rest)
        (do return ReservedItems.names (← reservedNames))
        fun found left => found.erased = (ReservedItems.names items).erased ∧
          left = .symbol .semicolon :: rest := by
      refine (reads_reservedNames items some each).bind ?_
      rintro found _ ⟨same, rfl⟩
      exact Reads.pure ⟨congrArg ReservedItems.names same, rfl⟩
    obtain ⟨first, others, rfl⟩ := List.exists_cons_of_ne_nil some
    exact Reads.look back

theorem reads_reserved (kind : RangeKind) (reserved : Reserved)
    (wellFormed : reserved.WellFormed kind) :
    Reads declared (reserved.tokens ++ rest) (Parser.reserved kind)
      fun found left => found.erased = reserved.erased ∧ left = rest := by
  rw [Reserved.tokens, List.cons_append, List.append_assoc]
  refine reads_leadingComments fun comments => Reads.expect fun start => ?_
  refine (reads_reservedItems kind reserved.items wellFormed).bind ?_
  rintro found _ ⟨same, rfl⟩
  refine reads_terminator.bind ?_
  rintro ⟨stop, trailing⟩ _ rfl
  refine Reads.pure ⟨?_, rfl⟩
  rw [Reserved.erased, Reserved.erased, same]

theorem reads_extensionRanges (extensions : ExtensionRanges) (wellFormed : extensions.WellFormed) :
    Reads declared (extensions.tokens ++ rest) Parser.extensionRanges
      fun found left => found.erased = extensions.erased ∧ left = rest := by
  obtain ⟨last, tail, after, starts⟩ := listTokens_eq_cons extensions.options rest
  simp only [ExtensionRanges.tokens, List.append_assoc, List.cons_append, List.nil_append]
  refine reads_leadingComments fun comments => Reads.expect fun start => ?_
  rw [after]
  refine (reads_ranges .field extensions.ranges wellFormed.some wellFormed.ranges starts).bind ?_
  rintro found _ ⟨same, rfl⟩
  rw [← after]
  refine (reads_optionalSettings extensions.options wellFormed.options).bind ?_
  rintro foundOptions _ ⟨sameOptions, rfl⟩
  refine reads_terminator.bind ?_
  rintro ⟨stop, trailing⟩ _ rfl
  refine Reads.pure ⟨?_, rfl⟩
  rw [ExtensionRanges.erased, ExtensionRanges.erased, same, sameOptions]

/-! ### Enums -/

theorem reads_enumValue (value : EnumValue) (wellFormed : value.WellFormed) :
    Reads declared (value.tokens ++ rest) Parser.enumValue
      fun found left => found.erased = value.erased ∧ left = rest := by
  simp only [EnumValue.tokens, List.append_assoc, List.cons_append, List.nil_append]
  refine reads_leadingComments fun comments => ?_
  refine (reads_name value.name).bind ?_
  rintro foundName _ ⟨sameName, rfl⟩
  refine Reads.expect fun _ => ?_
  refine (reads_signedInt _ value.number).bind ?_
  rintro foundNumber _ ⟨sameNumber, rfl⟩
  refine Reads.report ?_ ?_
  · rw [← enumNumberFaults_erased, sameNumber, enumNumberFaults_erased]
    exact wellFormed.number
  refine (reads_optionalSettings value.options wellFormed.options).bind ?_
  rintro foundOptions _ ⟨sameOptions, rfl⟩
  refine reads_terminator.bind ?_
  rintro ⟨stop, trailing⟩ _ rfl
  refine Reads.pure ⟨?_, rfl⟩
  simp only [EnumValue.erased, sameName, sameNumber, sameOptions]

/-- An option statement is read as a member wherever the word for it leads to its parser. -/
theorem readsMember_option {State : Type} {parse : Member State} {state : State}
    {known : State → Prop} (option : OptionStatement) (wellFormed : option.WellFormed)
    (add : OptionStatement → State)
    (leads : parse state (.word "option") = some do return add (← optionStatement))
    (adds : ∀ found, found.erased = option.erased → known (add found)) :
    ReadsMember declared parse state option.tokens known := by
  refine ⟨_, _, _, rfl, by simp, by simp, leads, fun rest => ?_⟩
  refine (reads_optionStatement option wellFormed).bind ?_
  rintro found _ ⟨same, rfl⟩
  exact Reads.pure ⟨adds found same, rfl⟩

/-- The body of an enum is read from the state in which its name was read. -/
theorem reads_enumerationBody {expected : String} (enumeration start : Enumeration)
    (members : enumeration.Members)
    (starts : start.erased = Enumeration.erased
      ⟨enumeration.name, [], [], [], false, enumeration.comments, enumeration.span⟩) :
    Reads declared
      (enumeration.options.flatMap OptionStatement.tokens ++
        (enumeration.reserved.flatMap Reserved.tokens ++
          (enumeration.values.flatMap EnumValue.tokens ++ .symbol .rightBrace :: rest)))
      (body enumMember expected start)
      fun found left => found.1.erased = enumeration.erased ∧ left = rest := by
  obtain ⟨name, values, options, reserved, allows, comments, span⟩ := enumeration
  obtain rfl : allows = Enumeration.aliasesAfter options := members.aliases
  rw [body_eq]
  refine Reads.repeating (ReadsLoop.members OptionStatement.tokens
    (fun read state => state.erased = Enumeration.erased
      ⟨name, [], read, [], Enumeration.aliasesAfter read, comments, span⟩) options
    ?_ starts fun state known => ?_)
  · intro before option after state split known
    refine readsMember_option option (members.options option (by simp [split])) state.addOption rfl
      fun found same => ?_
    rw [Enumeration.addOption_erased, known, same, ← Enumeration.addOption_erased,
      Enumeration.addOption, Enumeration.aliasesAfter, Enumeration.aliasesAfter, List.foldl_append]
    rfl
  refine ReadsLoop.members Reserved.tokens
    (fun read state => state.erased = Enumeration.erased
      ⟨name, [], options, read, Enumeration.aliasesAfter options, comments, span⟩) reserved
    ?_ known fun state known => ?_
  · intro before entry after state split known
    refine ⟨_, _, _, rfl, by simp, by simp, rfl, fun rest => ?_⟩
    refine (reads_reserved .enumValue entry (members.reserved entry (by simp [split]))).bind ?_
    rintro found _ ⟨same, rfl⟩
    refine Reads.pure ⟨?_, rfl⟩
    simp only [Enumeration.erased, Enumeration.mk.injEq, List.map_append, List.map_singleton]
      at known ⊢
    simp only [known, same, and_self]
  refine ReadsLoop.members EnumValue.tokens
    (fun read state => state.erased = Enumeration.erased
      ⟨name, read, options, reserved, Enumeration.aliasesAfter options, comments, span⟩) values
    ?_ known fun state known => ?_
  · intro before value after state split known
    have wellFormed := members.values value (by simp [split])
    have noWord := wellFormed.leads
    simp only [List.mem_cons, List.not_mem_nil, or_false, not_or] at noWord
    have leads : enumMember state (.word value.name.text) =
        some do return { state with values := state.values ++ [← enumValue] } := by
      simp only [enumMember, noWord, if_false]
    refine ⟨_, _, _, rfl, by simp, by simp, leads, fun rest => ?_⟩
    refine (reads_enumValue value wellFormed).bind ?_
    rintro found _ ⟨same, rfl⟩
    refine Reads.pure ⟨?_, rfl⟩
    simp only [Enumeration.erased, Enumeration.mk.injEq, List.map_append, List.map_singleton]
      at known ⊢
    simp only [known, same, and_self]
  · exact ReadsLoop.bodyEnd fun _ => ⟨known, rfl⟩

theorem reads_enumeration (enumeration : Enumeration) (wellFormed : enumeration.WellFormed) :
    Reads declared (enumeration.tokens ++ rest) Parser.enumeration
      fun found left => found.erased = enumeration.erased ∧ left = rest := by
  simp only [Enumeration.tokens, braced, List.append_assoc, List.cons_append, List.nil_append]
  refine reads_leadingComments fun comments => Reads.expect fun start => ?_
  refine (reads_name enumeration.name).bind ?_
  rintro foundName _ ⟨sameName, rfl⟩
  refine reads_openBrace.bind ?_
  rintro trailing _ rfl
  refine (reads_enumerationBody enumeration _ wellFormed.members ?_).bind ?_
  · simp only [Enumeration.erased, sameName]
  · rintro ⟨found, stop⟩ _ ⟨same, rfl⟩
    refine Reads.report ?_ (Reads.pure ⟨same, rfl⟩)
    rw [Enumeration.faults_eq_nil_iff, ← Enumeration.valid_erased]
    show found.erased.Valid
    rw [same, Enumeration.valid_erased, ← Enumeration.faults_eq_nil_iff]
    exact wellFormed.sound

/-! ### Services -/

theorem startsStream_word (name : TypeName) (wellFormed : name.WellFormed) :
    startsStream ((.word "stream" :: (name.tokens ++ rest)).take 2) = true := by
  obtain ⟨first, others, eq, starts⟩ := TypeName.tokens_eq_cons wellFormed
  rw [eq]
  rcases starts with rfl | ⟨word, rfl⟩ <;> rfl

/-- A type before a closing parenthesis starts a stream only if it does so by itself. -/
theorem startsStream_tokens (name : TypeName) (wellFormed : name.WellFormed)
    (alone : startsStream name.tokens = false) :
    startsStream ((name.tokens ++ .symbol .rightParen :: rest).take 2) = false := by
  obtain ⟨dot, ⟨parts⟩⟩ := name
  obtain ⟨first, others, rfl⟩ := List.exists_cons_of_ne_nil wellFormed.some
  cases dot with
  | some dot => rfl
  | none =>
    cases others with
    | nil =>
      show startsStream [.word first.text, .symbol .rightParen] = false
      rw [startsStream.eq_def]
      split
      · next eq => exact absurd eq (by simp)
      · next eq => exact absurd eq (by simp)
      · rfl
    | cons second more =>
      have noStream : first.text ≠ "stream" := by
        intro stream
        obtain ⟨text, span⟩ := first
        obtain rfl : text = "stream" := stream
        cases alone
      show startsStream [.word first.text, .symbol .dot] = false
      rw [startsStream.eq_def]
      split
      · next eq => exact absurd eq (by simp)
      · next eq => exact absurd (Token.word.inj (List.cons.inj eq).1) noStream
      · rfl

theorem reads_methodType (streams : Bool) (name : TypeName) (wellFormed : name.WellFormed)
    (streamed : name.Streams streams) :
    Reads declared (methodTypeTokens streams name ++ rest) methodType
      fun found left => found.1 = streams ∧ found.2.erased = name.erased ∧ left = rest := by
  have word : Reads declared
      ((if streams then [.word "stream"] else []) ++ (name.tokens ++ .symbol .rightParen :: rest))
      streamWord fun found left => found = streams ∧
        left = name.tokens ++ .symbol .rightParen :: rest := by
    refine Reads.ahead ?_
    cases streams with
    | true =>
      rw [if_pos rfl, List.singleton_append, startsStream_word name wellFormed, if_pos rfl]
      exact Reads.advance fun _ => Reads.pure ⟨rfl, rfl⟩
    | false =>
      rw [if_neg Bool.false_ne_true, List.nil_append,
        startsStream_tokens name wellFormed (streamed rfl), if_neg Bool.false_ne_true]
      exact Reads.pure ⟨rfl, rfl⟩
  simp only [methodTypeTokens, List.append_assoc, List.cons_append, List.nil_append]
  refine Reads.expect fun _ => word.bind ?_
  rintro _ _ ⟨rfl, rfl⟩
  refine (reads_typeName name wellFormed (by simp)).bind ?_
  rintro found _ ⟨same, rfl⟩
  exact Reads.expect fun _ => Reads.pure ⟨rfl, same, rfl⟩

theorem reads_methodEnd (options : List OptionStatement)
    (wellFormed : ∀ option ∈ options, option.WellFormed) :
    Reads declared
      ((if options.isEmpty then [.symbol .semicolon]
        else braced (options.flatMap OptionStatement.tokens)) ++ rest)
      methodEnd
      fun found left => found.1.map OptionStatement.erased = options.map OptionStatement.erased ∧
        left = rest := by
  cases options with
  | nil =>
    refine Reads.look (reads_terminator.bind ?_)
    rintro ⟨stop, trailing⟩ _ rfl
    exact Reads.pure ⟨rfl, rfl⟩
  | cons option others =>
    rw [List.isEmpty_cons, if_neg Bool.false_ne_true, braced, List.cons_append, List.append_assoc]
    refine Reads.look (reads_openBrace.bind ?_)
    rintro trailing _ rfl
    have read : Reads declared
        ((option :: others).flatMap OptionStatement.tokens ++ .symbol .rightBrace :: rest)
        (body (fun options next =>
            if next = .word "option" then some do return options ++ [← optionStatement] else none)
          "'option' or '\x7d'" [])
        fun found left => found.1.map OptionStatement.erased =
          (option :: others).map OptionStatement.erased ∧ left = rest := by
      rw [body_eq]
      refine Reads.repeating (ReadsLoop.members OptionStatement.tokens
        (fun read state => state.map OptionStatement.erased = read.map OptionStatement.erased) _
        ?_ rfl fun state known => ReadsLoop.bodyEnd fun _ => ⟨known, rfl⟩)
      intro before entry after state split known
      refine readsMember_option entry (wellFormed entry (by simp [split])) (state ++ [·])
        (if_pos rfl) fun found same => ?_
      rw [List.map_append, List.map_append, known, List.map_singleton, same, List.map_singleton]
    refine read.bind ?_
    rintro ⟨found, stop⟩ _ ⟨same, rfl⟩
    exact Reads.pure ⟨same, rfl⟩

theorem reads_method (method : Method) (wellFormed : method.WellFormed) :
    Reads declared (method.tokens ++ rest) Parser.method
      fun found left => found.erased = method.erased ∧ left = rest := by
  simp only [Method.tokens, List.append_assoc, List.cons_append]
  refine reads_leadingComments fun comments => Reads.expect fun start => ?_
  refine (reads_name method.name).bind ?_
  rintro foundName _ ⟨sameName, rfl⟩
  refine (reads_methodType _ _ wellFormed.input wellFormed.streamsInput).bind ?_
  rintro ⟨streamsInput, input⟩ _ ⟨rfl, sameInput, rfl⟩
  refine Reads.expect fun _ => ?_
  refine (reads_methodType _ _ wellFormed.output wellFormed.streamsOutput).bind ?_
  rintro ⟨streamsOutput, output⟩ _ ⟨rfl, sameOutput, rfl⟩
  refine (reads_methodEnd method.options wellFormed.options).bind ?_
  rintro ⟨options, stop, trailing⟩ _ ⟨sameOptions, rfl⟩
  refine Reads.pure ⟨?_, rfl⟩
  simp only [Method.erased, sameName, sameInput, sameOutput, sameOptions]

/-- The body of a service is read from the state in which its name was read. -/
theorem reads_serviceBody {expected : String} (service start : Service) (members : service.Members)
    (starts : start.erased = Service.erased
      ⟨service.name, [], [], service.comments, service.span⟩) :
    Reads declared
      (service.options.flatMap OptionStatement.tokens ++
        (service.methods.flatMap Method.tokens ++ .symbol .rightBrace :: rest))
      (body serviceMember expected start)
      fun found left => found.1.erased = service.erased ∧ left = rest := by
  obtain ⟨name, methods, options, comments, span⟩ := service
  rw [body_eq]
  refine Reads.repeating (ReadsLoop.members OptionStatement.tokens
    (fun read state => state.erased = Service.erased ⟨name, [], read, comments, span⟩) options
    ?_ starts fun state known => ?_)
  · intro before option after state split known
    refine readsMember_option option (members.options option (by simp [split]))
      (fun found => { state with options := state.options ++ [found] }) rfl fun found same => ?_
    simp only [Service.erased, Service.mk.injEq, List.map_append, List.map_singleton] at known ⊢
    simp only [known, same, and_self]
  refine ReadsLoop.members Method.tokens
    (fun read state => state.erased = Service.erased ⟨name, read, options, comments, span⟩) methods
    ?_ known fun state known => ?_
  · intro before method after state split known
    refine ⟨_, _, _, rfl, by simp, by simp, rfl, fun rest => ?_⟩
    refine (reads_method method (members.methods method (by simp [split]))).bind ?_
    rintro found _ ⟨same, rfl⟩
    refine Reads.pure ⟨?_, rfl⟩
    simp only [Service.erased, Service.mk.injEq, List.map_append, List.map_singleton] at known ⊢
    simp only [known, same, and_self]
  · exact ReadsLoop.bodyEnd fun _ => ⟨known, rfl⟩

theorem reads_service (service : Service) (wellFormed : service.WellFormed) :
    Reads declared (service.tokens ++ rest) Parser.service
      fun found left => found.erased = service.erased ∧ left = rest := by
  simp only [Service.tokens, braced, List.append_assoc, List.cons_append, List.nil_append]
  refine reads_leadingComments fun comments => Reads.expect fun start => ?_
  refine (reads_name service.name).bind ?_
  rintro foundName _ ⟨sameName, rfl⟩
  refine reads_openBrace.bind ?_
  rintro trailing _ rfl
  refine (reads_serviceBody service _ wellFormed.members ?_).bind ?_
  · simp only [Service.erased, sameName, List.map_nil]
  · rintro ⟨found, stop⟩ _ ⟨same, rfl⟩
    refine Reads.report ?_ (Reads.pure ⟨same, rfl⟩)
    rw [Service.faults_eq_nil_iff, ← Service.valid_erased]
    show found.erased.Valid
    rw [same, Service.valid_erased, ← Service.faults_eq_nil_iff]
    exact wellFormed.sound

end Parser

end ProtoSchema
