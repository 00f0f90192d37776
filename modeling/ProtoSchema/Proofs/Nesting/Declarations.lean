/-
This file follows the brackets through declarations. A statement opens nothing but
the option values in it. The brace of a block opens a message behind the name of one
and nothing that is counted behind any other header, and its body closes it again;
so however many declarations stand before a message, what is open there are the
messages around it, and it may be entered as long as these are fewer than the limit.
Where a file is read to its end, nothing is open.
-/

import Mathlib.Tactic.SplitIfs
import ProtoSchema.Grammar.Files
import ProtoSchema.Proofs.Nesting.Options

namespace ProtoSchema

/-! ### What a brace opens behind a header -/

namespace Nest

variable {nest : Nest}

/-- Outside of option values no bracket opens a message in text format. -/
theorem inValue_of_outside (outside : Parser.OutsideValues nest.opened) : nest.inValue = false := by
  rw [inValue, decide_eq_false_iff_not]
  intro inside
  have member : some Nesting.optionValue ∈ nest.opened := List.mem_of_head? inside
  exact absurd outside (Nat.ne_of_gt (List.count_pos_iff.mpr member))

/-- Behind two words, the first of which tells what is declared. -/
theorem brace_of_words {keyword text : String} (outside : nest.inValue = false)
    (last : nest.last = some (.word text)) (earlier : nest.earlier = some (.word keyword)) :
    nest.brace = if keyword = "message" then some .message else none := by
  rw [brace, outside, last, earlier]
  by_cases isMessage : keyword = "message"
  · subst isMessage
    rfl
  · simp [isMessage]

/-- Behind anything but the name of a message or an equals sign, a brace opens nothing that is
counted. -/
theorem brace_eq_none (outside : nest.inValue = false)
    (last : nest.last ≠ some (.symbol .equals))
    (other : nest.earlier ≠ some (.word "message") ∨ ∀ text, nest.last ≠ some (.word text)) :
    nest.brace = none := by
  rw [brace, outside, if_neg (by simp [last])]
  split
  · next earlier found =>
    obtain other | other := other
    · exact absurd earlier other
    · exact absurd found (other _)
  · rfl

end Nest

namespace Parser

variable {Value State : Type} {known inside : List (Option Nesting) → Prop}
variable {nest : Nest} {input : List Lexeme} {kind : RangeKind} {context : FieldContext}

/-! ### Ranges and reserved items -/

theorem keeps_rangeBound : Keeps known (rangeBound kind) := by
  cases kind with
  | field => exact keeps_positiveInt
  | enumValue => exact keeps_signedInt

theorem keeps_rangeEnd : Keeps known (rangeEnd kind) := by
  refine fun head => KeepsAt.look ?_
  split
  · exact KeepsAt.advance (fun _ _ => rfl) fun _ _ => KeepsAt.pure
  · exact (keeps_rangeBound _).bind fun _ _ => KeepsAt.pure
  · exact (keeps_rangeBound _).bind fun _ _ => KeepsAt.pure
  · exact KeepsAt.unexpected

theorem keeps_range : Keeps known (range kind) := by
  refine fun head => (keeps_rangeBound head).bind fun first _ => KeepsAt.look ?_
  split
  · refine KeepsAt.advance (fun _ _ => rfl) fun _ _ => ?_
    exact (keeps_rangeEnd _).bind fun _ _ => KeepsAt.pure
  · split
    · exact KeepsAt.pure
    · exact KeepsAt.unexpected
  · exact KeepsAt.unexpected

theorem keeps_reservedName : Keeps known reservedName := fun head =>
  (keeps_text head).bind fun _ _ => KeepsAt.report KeepsAt.pure

theorem keeps_reservedItems : Keeps known (reservedItems kind) := by
  refine fun head => KeepsAt.look ?_
  split
  · exact (keeps_commaList keeps_range _).bind fun _ _ => KeepsAt.pure
  · exact (keeps_commaList keeps_range _).bind fun _ _ => KeepsAt.pure
  · exact (keeps_commaList keeps_reservedName _).bind fun _ _ => KeepsAt.pure
  · exact KeepsAt.unexpected

theorem keeps_reserved : Keeps known (reserved kind) := by
  refine fun head => KeepsAt.leadingComments fun comments => ?_
  refine KeepsAt.expect (fun _ _ => rfl) fun start _ => ?_
  refine (keeps_reservedItems _).bind fun items _ => ?_
  exact (keeps_terminator _).bind fun _ _ => KeepsAt.pure

/-- Ranges may have settings, so they stand outside of option values. -/
theorem keeps_extensionRanges : Keeps OutsideValues extensionRanges := by
  refine fun head => KeepsAt.leadingComments fun comments => ?_
  refine KeepsAt.expect (fun _ _ => rfl) fun start _ => ?_
  refine (keeps_commaList keeps_range _).bind fun ranges _ => ?_
  refine (keeps_optionalSettings _).bind fun options _ => ?_
  exact (keeps_terminator _).bind fun _ _ => KeepsAt.pure

/-! ### Fields and the values of enums -/

theorem keeps_fieldLabel : Keeps known (fieldLabel context) := by
  refine fun head => KeepsAt.look ?_
  split
  · exact KeepsAt.advance (fun _ _ => rfl) fun _ _ => KeepsAt.pure
  · exact KeepsAt.advance (fun _ _ => rfl) fun _ _ => KeepsAt.pure
  · exact KeepsAt.advance (fun _ _ => rfl) fun _ _ => KeepsAt.edition fun _ =>
      KeepsAt.report KeepsAt.pure
  · exact KeepsAt.pure

theorem keeps_reference : Keeps known reference := fun head =>
  (keeps_typeName head).bind fun _ _ => KeepsAt.pure

theorem keeps_valueType : Keeps known valueType := by
  refine fun head => KeepsAt.look ?_
  split
  · refine KeepsAt.ahead fun tokens => ?_
    split
    · exact KeepsAt.advance (fun _ _ => rfl) fun _ _ => KeepsAt.pure
    · exact keeps_reference _
  · exact keeps_reference _
  · exact KeepsAt.unexpected

/-- The angle brackets of a map type hold nothing that is counted. -/
theorem keeps_mapType : Keeps OutsideValues mapType := by
  have opens : Flat OutsideValues (.symbol .leftAngle) := by
    intro nest outside
    rw [Nest.openedBy, Nest.inValue_of_outside outside]
    rfl
  have closes : Flat OutsideValues (.symbol .rightAngle) := by
    intro nest outside
    rw [Nest.openedBy, Nest.inValue_of_outside outside]
    rfl
  refine fun head => KeepsAt.expect (fun _ _ => rfl) fun start _ => ?_
  refine KeepsAt.expect opens fun _ _ => ?_
  refine (keeps_typeName _).bind fun key _ => KeepsAt.expect (fun _ _ => rfl) fun _ _ => ?_
  refine (keeps_valueType _).bind fun value _ => KeepsAt.expect closes fun stop _ => ?_
  split
  · exact KeepsAt.pure
  · exact KeepsAt.report KeepsAt.pure

/-- The angle brackets of a map open no message, since they are not in a value. -/
theorem keeps_fieldType : Keeps OutsideValues fieldType := by
  refine fun head => KeepsAt.ahead fun tokens => ?_
  split
  · exact keeps_mapType _
  · exact (keeps_valueType _).bind fun _ _ => KeepsAt.pure

theorem keeps_fieldNumber : Keeps known fieldNumber := fun head =>
  (keeps_signedInt head).bind fun _ _ => KeepsAt.report KeepsAt.pure

/-- A field closes the brackets of its type and of its settings. -/
theorem keeps_field : Keeps OutsideValues (field context) := by
  refine fun head => KeepsAt.leadingComments fun comments => KeepsAt.here fun start => ?_
  refine (keeps_fieldLabel _).bind fun ⟨label, labelSpan⟩ _ => KeepsAt.ahead fun tokens => ?_
  split
  · exact KeepsAt.stop_here fun _ => GrammarCause.noConfusion
  · refine (keeps_fieldType _).bind fun type _ => (keeps_name _).bind fun name _ => ?_
    refine KeepsAt.expect (fun _ _ => rfl) fun _ _ => (keeps_fieldNumber _).bind fun number _ => ?_
    refine (keeps_optionalSettings _).bind fun options _ => KeepsAt.edition fun declared => ?_
    exact KeepsAt.report ((keeps_terminator _).bind fun _ _ => KeepsAt.pure)

/-- The settings of a value are closed before its semicolon. -/
theorem keeps_enumValue : Keeps OutsideValues enumValue := by
  refine fun head => KeepsAt.leadingComments fun comments => (keeps_name _).bind fun name _ => ?_
  refine KeepsAt.expect (fun _ _ => rfl) fun _ _ => (keeps_signedInt _).bind fun number _ => ?_
  refine KeepsAt.report ((keeps_optionalSettings _).bind fun options _ => ?_)
  exact (keeps_terminator _).bind fun _ _ => KeepsAt.pure

/-! ### Headers -/

/-- A name is one word, and what it opens is known from the tokens before. -/
theorem nests_name : Nests nest input name fun _ final _ =>
    ∃ text, final = nest.step (.word text) := by
  refine Nests.look ?_
  split
  · next text head =>
    have same : (nest.step (.word text)).opened = nest.opened := rfl
    refine (Nests.advance head fun bounded => bounded.of_opened same).bind ?_
    rintro _ _ _ rfl
    exact Nests.pure ⟨text, rfl⟩
  · exact Nests.unexpected

/-- The header of a block that is told by a word and has a name. -/
theorem nests_header {keyword : String} {build : Comments → Span → Name → Option String → Value}
    (outside : OutsideValues nest.opened)
    (room : keyword = "message" → nest.count .message < Nesting.message.limit) :
    Nests nest input (do
        let comments ← leadingComments
        let start ← word keyword
        let name ← name
        let trailing ← openBrace
        return build comments start name trailing)
      fun _ final _ =>
        final.opened = (if keyword = "message" then some .message else none) :: nest.opened := by
  refine Nests.leadingComments fun comments => ?_
  refine (Nests.expect fun bounded => bounded.of_opened rfl).bind ?_
  rintro start _ rest rfl
  refine nests_name.bind ?_
  rintro name _ rest ⟨text, rfl⟩
  have brace : ((nest.step (.word keyword)).step (.word text)).brace =
      if keyword = "message" then some .message else none :=
    Nest.brace_of_words (Nest.inValue_of_outside outside) rfl rfl
  refine (nests_openBrace ?_).bind fun trailing final rest opened => Nests.pure ?_
  · intro construct same
    rw [brace] at same
    split at same
    · next isMessage =>
      obtain rfl := Option.some.inj same
      exact room isMessage
    · cases same
  · rw [opened, brace]
    rfl

/-- The last two tokens of a name with dots are a word and what stands before it. -/
theorem nests_dottedName : Nests nest input dottedName fun _ final _ =>
    final.opened = nest.opened ∧
      (final.earlier = nest.last ∨ final.earlier = some (.symbol .dot)) ∧
        ∃ text, final.last = some (.word text) := by
  refine nests_name.bind ?_
  rintro first _ rest ⟨text, rfl⟩
  refine Nests.repeating (fun final => final.opened = nest.opened ∧
      (final.earlier = nest.last ∨ final.earlier = some (.symbol .dot)) ∧
        ∃ text, final.last = some (.word text)) ⟨rfl, .inl rfl, text, rfl⟩
    fun parts middle rest holds => ?_
  rw [accept, bind_assoc]
  refine Nests.look ?_
  split
  · next head =>
    rw [bind_assoc]
    refine (Nests.advance head fun bounded => bounded.of_opened rfl).bind ?_
    rintro _ _ rest rfl
    rw [pure_bind, if_pos rfl]
    refine nests_name.bind ?_
    rintro part _ rest ⟨text, rfl⟩
    exact Nests.pure ⟨holds.1, .inr rfl, text, rfl⟩
  · rw [pure_bind]
    exact Nests.pure holds

/-- The last token of a name is a word, behind a dot or behind what stood before the name. -/
theorem nests_typeName : Nests nest input typeName fun _ final _ =>
    final.opened = nest.opened ∧
      (final.earlier = nest.last ∨ final.earlier = some (.symbol .dot)) ∧
        ∃ text, final.last = some (.word text) := by
  refine Nests.look ?_
  split
  · next head =>
    refine (Nests.advance head fun bounded => bounded.of_opened rfl).bind ?_
    rintro dot _ rest rfl
    refine nests_dottedName.bind fun path final rest ⟨opened, earlier, last⟩ => ?_
    exact Nests.pure ⟨opened, .inr (earlier.elim id id), last⟩
  · exact nests_dottedName.bind fun path final rest holds => Nests.pure holds
  · exact Nests.unexpected

theorem keeps_streamWord : Keeps known streamWord := by
  intro head nest input _ _
  refine Nests.stay (fun _ => (input.take 2).map (·.token)) (fun _ => rfl) fun _ => ?_
  split
  · next starts =>
    have found : input.head?.map (·.token) = some (.word "stream") := by
      unfold startsStream at starts
      split at starts
      · next eq => cases input <;> simp_all
      · next eq => cases input <;> simp_all
      · cases starts
    refine (Nests.advance found fun bounded => bounded.of_opened rfl).bind ?_
    rintro _ _ _ rfl
    exact Nests.pure rfl
  · exact Nests.pure rfl

/-- The type of a method ends with a parenthesis. -/
theorem nests_methodType : Nests nest input methodType fun _ final _ =>
    final.opened = nest.opened ∧ final.last = some (.symbol .rightParen) := by
  refine (Nests.expect fun bounded => bounded.of_opened rfl).bind ?_
  rintro _ _ rest rfl
  refine keeps_streamWord.leaves.bind fun streams _ rest kept => ?_
  refine keeps_typeName.leaves.bind fun name _ rest keptOn => ?_
  refine (Nests.expect fun bounded => bounded.of_opened rfl).bind ?_
  rintro _ _ _ rfl
  exact Nests.pure ⟨keptOn.trans kept, rfl⟩

/-- The brace of an extension block opens what no limit is on. -/
theorem nests_extensionHeader {parent : Option MessagePath} (outside : OutsideValues nest.opened) :
    Nests nest input (BlockForm.extension parent).header fun _ final _ =>
      final.opened = none :: nest.opened := by
  refine Nests.leadingComments fun comments => ?_
  refine (Nests.expect fun bounded => bounded.of_opened rfl).bind ?_
  rintro start _ rest rfl
  refine nests_typeName.bind fun extendee middle rest ⟨opened, earlier, text, last⟩ => ?_
  have same : middle.opened = nest.opened := opened
  have brace : middle.brace = none := by
    refine Nest.brace_eq_none (Nest.inValue_of_outside (same ▸ outside)) (by simp [last]) (.inl ?_)
    obtain earlier | earlier := earlier
    · simp [earlier, Nest.step]
    · simp [earlier]
  refine (nests_openBrace (by simp [brace])).bind fun trailing final rest opens => Nests.pure ?_
  rw [opens, brace, same]

/-- A method ends its types with a parenthesis, so that a brace behind it opens a body. -/
theorem nests_methodStart : Nests nest input methodStart fun _ final _ =>
    final.opened = nest.opened ∧ final.last = some (.symbol .rightParen) := by
  refine Nests.leadingComments fun comments => ?_
  refine (Nests.expect fun bounded => bounded.of_opened rfl).bind ?_
  rintro start _ rest rfl
  refine nests_name.bind ?_
  rintro name _ rest ⟨text, rfl⟩
  refine nests_methodType.bind fun ⟨streamsInput, input⟩ _ rest ⟨kept, _⟩ => ?_
  refine (Nests.expect fun bounded => bounded.of_opened rfl).bind ?_
  rintro _ _ rest rfl
  refine nests_methodType.bind fun ⟨streamsOutput, output⟩ _ rest ⟨keptOn, last⟩ => ?_
  exact Nests.pure ⟨keptOn.trans kept, last⟩

/-- Behind the types of a method, a brace opens nothing that is counted. -/
theorem nests_methodBrace (outside : OutsideValues nest.opened)
    (last : nest.last = some (.symbol .rightParen)) :
    Nests nest input openBrace fun _ final _ => final.opened = none :: nest.opened := by
  have brace : nest.brace = none :=
    Nest.brace_eq_none (Nest.inValue_of_outside outside) (by simp [last]) (.inr (by simp [last]))
  have opens : Nests nest input openBrace fun _ final _ =>
      final.opened = nest.brace :: nest.opened := nests_openBrace (by simp [brace])
  rwa [brace] at opens

/-! ### Blocks -/

/-- A block whose header opens one bracket leaves as open what was open, if its members do. -/
theorem keeps_block {form : BlockForm Value State} {held : Option Nesting}
    (header : ∀ nest input, known nest.opened →
      Nests nest input form.header fun _ final _ => final.opened = held :: nest.opened)
    (inner : ∀ opened, known opened → inside (held :: opened))
    (members : KeepsMember inside form.member) : Keeps known form.parser := by
  intro head nest input _ holds
  refine (header nest input holds).bind fun begun middle rest opens => ?_
  refine (nests_body members (opens ▸ inner _ holds)).bind fun ⟨read, stop⟩ final rest closes => ?_
  have same : final.opened = nest.opened := by rw [closes, opens, List.tail_cons]
  have last : Keeps (fun _ => True) (do
      report (form.faults (← edition) (form.close begun read stop))
      return form.close begun read stop) :=
    fun _ => KeepsAt.edition fun _ => KeepsAt.report KeepsAt.pure
  exact last.leaves.mono fun _ _ _ kept => kept.trans same

/-- Brackets that hold nothing that is counted change nothing. -/
theorem outside_cons (opened : List (Option Nesting)) (outside : OutsideValues opened) :
    OutsideValues (none :: opened) := by
  rw [OutsideValues, List.count_cons_of_ne (by simp)]
  exact outside

theorem keepsMember_enum : KeepsMember OutsideValues enumMember := by
  intro enumeration next parser found
  unfold enumMember at found
  split at found
  · split_ifs at found with isOption isReserved
    all_goals obtain rfl := Option.some.inj found
    · exact (keeps_optionStatement _).bind fun _ _ => KeepsAt.pure
    · exact (keeps_reserved _).bind fun _ _ => KeepsAt.pure
    · exact (keeps_enumValue _).bind fun _ _ => KeepsAt.pure
  · cases found

/-- The body of an enum closes all that it opens. -/
theorem keeps_enumeration : Keeps OutsideValues enumeration := by
  rw [enumeration_eq]
  exact keeps_block (fun _ _ outside => nests_header outside (by simp)) outside_cons
    keepsMember_enum

theorem keepsMember_oneof {index : Nat} : KeepsMember OutsideValues (oneofMember index) := by
  intro oneof next parser found
  unfold oneofMember at found
  split_ifs at found with isOption isField
  all_goals obtain rfl := Option.some.inj found
  · exact (keeps_optionStatement _).bind fun _ _ => KeepsAt.pure
  · exact (keeps_field _).bind fun _ _ => KeepsAt.pure

theorem keeps_oneof {index : Nat} : Keeps OutsideValues (oneof index) := by
  rw [oneof_eq]
  exact keeps_block (fun _ _ outside => nests_header outside (by simp)) outside_cons
    keepsMember_oneof

theorem keepsMember_extension : KeepsMember OutsideValues extensionMember := by
  intro extension next parser found
  unfold extensionMember at found
  split_ifs at found with isOption isField
  all_goals obtain rfl := Option.some.inj found
  · exact (keeps_optionStatement _).bind fun _ _ => KeepsAt.pure
  · exact (keeps_field _).bind fun _ _ => KeepsAt.pure

theorem keeps_extension {parent : Option MessagePath} :
    Keeps OutsideValues (extension parent) := by
  rw [extension_eq]
  exact keeps_block (fun _ _ outside => nests_extensionHeader outside) outside_cons
    keepsMember_extension

theorem keepsMember_method : KeepsMember OutsideValues BlockForm.method.member := by
  intro options next parser found
  unfold BlockForm.method at found
  dsimp only at found
  split_ifs at found with isOption
  obtain rfl := Option.some.inj found
  exact (keeps_optionStatement _).bind fun _ _ => KeepsAt.pure

/-- The body of a method, if there is one, closes all that it opens. -/
theorem keeps_method : Keeps OutsideValues method := by
  rw [method_eq]
  intro head nest input _ outside
  refine nests_methodStart.bind fun begun middle rest ⟨kept, last⟩ => ?_
  have ends : Nests middle rest methodEnd fun _ final _ => final.opened = middle.opened := by
    refine Nests.look ?_
    split
    · exact keeps_terminator.leaves.bind fun _ _ _ keptOn => Nests.pure keptOn
    · refine (nests_methodBrace (kept ▸ outside) last).bind fun trailing opening rest opens => ?_
      have inner : OutsideValues opening.opened := opens ▸ outside_cons _ (kept ▸ outside)
      refine (nests_body keepsMember_method inner).bind fun ⟨options, stop⟩ _ _ closes => ?_
      exact Nests.pure (closes.trans (by rw [opens, List.tail_cons]))
    · exact Nests.unexpected
  exact ends.bind fun _ _ _ keptOn => Nests.pure (keptOn.trans kept)

theorem keepsMember_service : KeepsMember OutsideValues serviceMember := by
  intro service next parser found
  unfold serviceMember at found
  split_ifs at found with isMethod isOption
  all_goals obtain rfl := Option.some.inj found
  · exact (keeps_method _).bind fun _ _ => KeepsAt.pure
  · exact (keeps_optionStatement _).bind fun _ _ => KeepsAt.pure

theorem keeps_service : Keeps OutsideValues service := by
  rw [service_eq]
  exact keeps_block (fun _ _ outside => nests_header outside (by simp)) outside_cons
    keepsMember_service

/-! ### Messages -/

/-- No option value is open, and others may nest in the open messages to a depth. -/
structure InMessages (depth : Nat) (opened : List (Option Nesting)) : Prop where
  outside : OutsideValues opened
  room : opened.count (some .message) + depth = Nesting.message.limit

/-- Where others may nest to some depth, one may be entered. -/
theorem InMessages.fewer {depth : Nat} (holds : InMessages (depth + 1) nest.opened) :
    nest.count .message < Nesting.message.limit := by
  have all := holds.room
  rw [Nest.count]
  omega

/-- In one message more, messages may nest to a depth less one. -/
theorem InMessages.enter {depth : Nat} {opened : List (Option Nesting)}
    (holds : InMessages (depth + 1) opened) : InMessages depth (some .message :: opened) := by
  refine ⟨?_, ?_⟩
  · rw [OutsideValues, List.count_cons_of_ne (by simp)]
    exact holds.outside
  · rw [List.count_cons_self, Nat.add_right_comm, Nat.add_assoc]
    exact holds.room

/-- A member keeps what is open if the nested messages do. -/
theorem keepsMember_message {nested : MessagePath → Parser Message} {path : MessagePath}
    {depth : Nat} (inner : ∀ path, Keeps (InMessages depth) (nested path)) :
    KeepsMember (InMessages depth) (messageMember nested path) := by
  intro message next parser found
  have field : KeepsAt (InMessages depth) (some next) (Parser.field .message >>= fun field =>
      pure { message with fields := message.fields ++ field.toList }) :=
    (keeps_field.weaken (fun _ => InMessages.outside) _).bind fun _ _ => KeepsAt.pure
  unfold messageMember at found
  split at found
  · split_ifs at found with isMessage isEnum isOneof isReserved isExtensions isOption isExtend
    all_goals obtain rfl := Option.some.inj found
    · exact (inner _ _).bind fun _ _ => KeepsAt.pure
    · exact (keeps_enumeration.weaken (fun _ => InMessages.outside) _).bind fun _ _ => KeepsAt.pure
    · exact (keeps_oneof.weaken (fun _ => InMessages.outside) _).bind fun _ _ => KeepsAt.pure
    · exact (keeps_reserved _).bind fun _ _ => KeepsAt.pure
    · exact (keeps_extensionRanges.weaken (fun _ => InMessages.outside) _).bind
        fun _ _ => KeepsAt.pure
    · exact (keeps_optionStatement.weaken (fun _ => InMessages.outside) _).bind
        fun _ _ => KeepsAt.pure
    · exact (keeps_extension.weaken (fun _ => InMessages.outside) _).bind fun _ _ => KeepsAt.pure
    · exact field
  · obtain rfl := Option.some.inj found
    exact field
  · cases found

/-- A message may be entered where as many are open as leave the depth up to the limit; by induction
on the depth, which is none where no more may be open. -/
theorem keeps_message (depth : Nat) : ∀ path, Keeps (InMessages depth) (message depth path) := by
  induction depth with
  | zero =>
    intro path head nest input _ holds
    rw [message, word, expect, bind_assoc]
    refine Nests.look ?_
    split
    · next found =>
      obtain ⟨lexeme, first, isMessage⟩ := Option.map_eq_some_iff.mp found
      obtain ⟨rest, rfl⟩ := List.head?_eq_some_iff.mp first
      refine fun bounded setting => ⟨nest, lexeme :: rest, .none bounded, .inr rfl, ?_⟩
      intro construct same
      obtain rfl := GrammarCause.nestedTooDeeply.inj same
      exact ⟨found, holds.room⟩
    · exact Nests.unexpected_bind
  | succ depth inductionHypothesis =>
    intro path
    rw [message_eq]
    exact keeps_block (fun _ _ holds => nests_header holds.outside fun _ => holds.fewer)
      (fun _ holds => holds.enter) (keepsMember_message inductionHypothesis)

/-! ### Files -/

theorem keeps_editionStatement : Keeps known editionStatement := by
  refine fun head => KeepsAt.expect (fun _ _ => rfl) fun _ _ => KeepsAt.expect (fun _ _ => rfl) ?_
  refine fun _ _ => (keeps_text _).bind fun name _ => KeepsAt.report ?_
  exact (keeps_terminator _).bind fun _ _ => KeepsAt.pure

/-- The edition opens nothing. -/
theorem keeps_declaredEdition : Keeps known declaredEdition := by
  refine fun head => KeepsAt.look ?_
  split
  · exact (keeps_editionStatement _).bind fun _ _ => KeepsAt.pure
  · exact KeepsAt.pure

theorem keeps_package : Keeps known package := by
  refine fun head => KeepsAt.leadingComments fun comments => ?_
  refine KeepsAt.expect (fun _ _ => rfl) fun start _ => (keeps_dottedName _).bind fun name _ => ?_
  exact (keeps_terminator _).bind fun _ _ => KeepsAt.pure

theorem keeps_importKind : Keeps known importKind := by
  refine fun head => KeepsAt.look ?_
  split
  · exact KeepsAt.advance (fun _ _ => rfl) fun _ _ => KeepsAt.pure
  · exact KeepsAt.advance (fun _ _ => rfl) fun _ _ => KeepsAt.pure
  · exact KeepsAt.pure
  · exact KeepsAt.unexpected

theorem keeps_import : Keeps known «import» := by
  refine fun head => KeepsAt.leadingComments fun comments => ?_
  refine KeepsAt.expect (fun _ _ => rfl) fun start _ => (keeps_importKind _).bind fun kind _ => ?_
  refine (keeps_text _).bind fun path _ => ?_
  exact (keeps_terminator _).bind fun _ _ => KeepsAt.pure

theorem keeps_addPackage {file : File} {package : Package} :
    Keeps known (addPackage file package) := by
  intro head
  unfold addPackage
  split
  · exact KeepsAt.report KeepsAt.pure
  · exact KeepsAt.pure

/-- Between two declarations of a file nothing is open. -/
theorem keepsMember_file : KeepsMember (· = []) fileMember := by
  have outside : ∀ opened, opened = [] → OutsideValues opened := by
    rintro _ rfl
    rfl
  have room : ∀ opened, opened = [] → InMessages Nesting.message.limit opened := by
    rintro _ rfl
    exact ⟨rfl, rfl⟩
  intro file next parser found
  unfold fileMember at found
  split at found
  · split_ifs at found with isImport isPackage isOption isMessage isEnum isService isExtend
    all_goals obtain rfl := Option.some.inj found
    · exact (keeps_import _).bind fun _ _ => KeepsAt.pure
    · exact (keeps_package _).bind fun _ => keeps_addPackage
    · exact (keeps_optionStatement.weaken outside _).bind fun _ _ => KeepsAt.pure
    · exact ((keeps_message _ _).weaken room _).bind fun _ _ => KeepsAt.pure
    · exact (keeps_enumeration.weaken outside _).bind fun _ _ => KeepsAt.pure
    · exact (keeps_service.weaken outside _).bind fun _ _ => KeepsAt.pure
    · exact (keeps_extension.weaken outside _).bind fun _ _ => KeepsAt.pure
  · cases found

/-- The edition has no say in what is open. -/
theorem Nests.inEdition {Value : Type} {declared : Option Edition} {parser : Parser Value}
    {goal : Value → Nest → List Lexeme → Prop} (nests : Nests nest input parser goal) :
    Nests nest input (inEdition declared parser) goal :=
  fun bounded setting => nests bounded { setting with edition := declared }

/-- A file is read to its end, where nothing is open. -/
theorem nests_file : Nests Nest.start input file fun _ final rest =>
    final.opened = [] ∧ rest = [] := by
  refine keeps_declaredEdition.leaves.bind fun declared middle rest kept => ?_
  refine Nests.inEdition ?_
  refine (nests_topLevel keepsMember_file kept).bind fun found final rest ⟨keptOn, ended⟩ => ?_
  intro bounded setting
  exact ⟨final, .none bounded, keptOn.trans kept, ended⟩

end Parser

/-- At the start nothing is open. -/
theorem Nest.bounded_start : start.Bounded := fun _ => Nat.zero_le _

end ProtoSchema
