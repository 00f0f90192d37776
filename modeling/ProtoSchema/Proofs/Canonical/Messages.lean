/-
This file shows that messages are read back from their canonical tokens, given
that each of their direct fields is read as a field. The members of oneofs and of
extension blocks always are, because a label there is a fault. The proof goes by
the depth to which messages may still nest.
-/

import ProtoSchema.Proofs.Canonical.Declarations

namespace ProtoSchema

mutual

/-- The direct fields of a message and of the messages in it. -/
def Message.everyField : Message → List Field
  | ⟨_, fields, _, messages, _, _, _, _, _, _, _⟩ => fields ++ Message.everyFieldOf messages

/-- The fields of messages, one message after the other. -/
def Message.everyFieldOf : List Message → List Field
  | [] => []
  | message :: rest => message.everyField ++ Message.everyFieldOf rest

end

theorem Message.everyFieldOf_eq (messages : List Message) :
    Message.everyFieldOf messages = messages.flatMap Message.everyField := by
  induction messages with
  | nil => rfl
  | cons message rest inductionHypothesis =>
    rw [everyFieldOf, inductionHypothesis, List.flatMap_cons]

theorem Message.everyField_eq (message : Message) :
    message.everyField = message.fields ++ message.messages.flatMap Message.everyField := by
  cases message
  rw [everyField, everyFieldOf_eq]

/-- Fields that are equal once erased have one label. -/
theorem exists_field_of_erased {found fields : List Field}
    (same : found.map Field.erased = fields.map Field.erased) {field : Field}
    (member : field ∈ found) : ∃ original ∈ fields, original.erased = field.erased := by
  have erased : field.erased ∈ fields.map Field.erased := same ▸ List.mem_map_of_mem member
  exact List.mem_map.mp erased

/-- A field that was read without need of a label had none. -/
theorem Field.LabelShown.labelSpan_eq_none {field : Field} (shown : field.LabelShown)
    (singular : field.label = .singular) : field.labelSpan = none := by
  rw [← Option.not_isSome_iff_eq_none]
  exact fun some => shown some singular

/-- A field that is read as a field starts with a dot or with a word that starts no other member. -/
theorem Field.Clear.tokens_eq_cons {context : FieldContext} {field : Field}
    (clear : field.Clear context) (type : field.type.WellFormed) :
    ∃ first others, field.tokens = first :: others ∧ (first = .symbol .dot ∨
      ∃ word, first = .word word ∧ word ∉ context.memberWords) := by
  obtain ⟨label, labelSpan, fieldType, name, number, options, oneof, comments, span⟩ := field
  cases label with
  | optional => exact ⟨_, _, rfl, .inr ⟨_, rfl, by cases context <;> simp [FieldContext.memberWords]⟩⟩
  | repeated => exact ⟨_, _, rfl, .inr ⟨_, rfl, by cases context <;> simp [FieldContext.memberWords]⟩⟩
  | singular =>
    obtain ⟨first, others, eq, starts⟩ := type.tokens_eq_cons
    refine ⟨first, _, by rw [Field.tokens, eq]; rfl, starts.imp_right ?_⟩
    rintro ⟨word, rfl⟩
    refine ⟨word, rfl, fun member => ?_⟩
    exact clear rfl word (by rw [eq]; rfl) (List.mem_append_right _ member)

/-- A member of a oneof without fault has no label, so it is read as a field. -/
theorem Oneof.WellFormed.clear {declared : Option Edition} {index : Nat} {oneof : Oneof}
    (wellFormed : oneof.WellFormed declared index) {field : Field} (member : field ∈ oneof.fields) :
    field.Clear (.oneof index) := by
  have valid := oneof.faults_eq_nil_iff.mp wellFormed.sound
  exact fun _ => (wellFormed.members.fields field member).leads (valid.unlabelled field member)

/-! ### Places of fields -/

/-- The members of a message that the grammar answers are where they say. -/
theorem Message.Members.placed {declared : Option Edition}
    {isNested : MessagePath → Message → Prop} {path : MessagePath} {message : Message}
    (members : message.Members declared isNested path) : message.Placed where
  fields field member := (members.fields field member).oneof
  oneofs index oneof found field member :=
    ((members.oneofs index oneof found).members.fields field member).oneof

theorem Message.Members.validOneofs {declared : Option Edition}
    {isNested : MessagePath → Message → Prop} {path : MessagePath} {message : Message}
    (members : message.Members declared isNested path) :
    ∀ oneof ∈ message.oneofs, oneof.Valid := by
  intro oneof member
  obtain ⟨index, found⟩ := List.getElem?_of_mem member
  exact oneof.faults_eq_nil_iff.mp (members.oneofs index oneof found).sound

/-- Where the fields of a message are does not depend on what erasing takes away. -/
theorem Message.Placed.of_erased {message found : Message} (placed : message.Placed)
    (same : found.erased = message.erased) : found.Placed := by
  rw [Message.erased_eq, Message.erased_eq, Message.mk.injEq] at same
  obtain ⟨-, sameFields, sameOneofs, -⟩ := same
  constructor
  · intro field member
    obtain ⟨original, originalMember, originalSame⟩ := exists_field_of_erased sameFields member
    have oneof : original.erased.oneof = field.erased.oneof := congrArg Field.oneof originalSame
    exact oneof.symm.trans (placed.fields original originalMember)
  · intro index oneof found field member
    have erasedFound := congrArg (Option.map Oneof.erased) found
    rw [← List.getElem?_map, sameOneofs, List.getElem?_map, Option.map_some,
      Option.map_eq_some_iff] at erasedFound
    obtain ⟨source, sourceFound, sourceSame⟩ := erasedFound
    obtain ⟨original, originalMember, originalSame⟩ :=
      exists_field_of_erased (congrArg Oneof.fields sourceSame.symm) member
    have place : original.erased.oneof = field.erased.oneof := congrArg Field.oneof originalSame
    exact place.symm.trans (placed.oneofs index source sourceFound original originalMember)

/-- A field of a placed message that is a member of no oneof is a direct one. -/
theorem Message.Placed.mem_fields {message : Message} (placed : message.Placed) {field : Field}
    (member : field ∈ message.allFields) (none : field.oneof = none) : field ∈ message.fields := by
  rw [allFields, List.mem_append, List.mem_flatMap] at member
  rcases member with member | ⟨oneof, oneofMember, member⟩
  · exact member
  · obtain ⟨index, found⟩ := List.getElem?_of_mem oneofMember
    rw [placed.oneofs index oneof found field member] at none
    cases none

/-! ### Fields read as fields -/

/-- A field of an extension block cannot be required, so it is read as a field. -/
theorem Field.WellFormed.clear {declared : Option Edition} {field : Field}
    (wellFormed : field.WellFormed declared .extension) : field.Clear .extension := by
  intro singular
  cases labelled : field.labelSpan with
  | none => exact wellFormed.leads labelled
  | some span => exact absurd (wellFormed.required span labelled singular) (by
      simp [Parser.requiredFaults])

namespace Parser

variable {declared : Option Edition} {rest : List Token}

/-! ### Fields in a body -/

/-- A field is read as a member of a body in which whatever starts no other member is a field. -/
theorem readsMember_field {State : Type} {parse : Member State} {state : State}
    {known : State → Prop} (context : FieldContext) (field : Field)
    (wellFormed : field.WellFormed declared context) (clear : field.Clear context)
    (add : List Field → State)
    (leads : ∀ token, (token = .symbol .dot ∨
        ∃ word, token = .word word ∧ word ∉ context.memberWords) →
      parse state token = some do return add (← Parser.field context).toList)
    (adds : ∀ found, found.erased = field.erased → found.LabelShown → known (add [found])) :
    ReadsMember declared parse state field.tokens known := by
  obtain ⟨first, others, eq, starts⟩ := clear.tokens_eq_cons wellFormed.type
  refine ⟨first, others, _, eq, ?_, ?_, leads first starts, fun rest => ?_⟩
  · rcases starts with rfl | ⟨word, rfl, -⟩ <;> simp
  · rcases starts with rfl | ⟨word, rfl, -⟩ <;> simp
  · refine (reads_field context field wellFormed clear).bind ?_
    rintro _ _ ⟨⟨found, rfl, same, shown⟩, rfl⟩
    exact Reads.pure ⟨adds found same shown, rfl⟩

/-! ### Oneofs -/

theorem oneofMember_field (index : Nat) (oneof : Oneof) {token : Token}
    (starts : token = .symbol .dot ∨
      ∃ word, token = .word word ∧ word ∉ (FieldContext.oneof index).memberWords) :
    oneofMember index oneof token = some do
      return { oneof with fields := oneof.fields ++ (← Parser.field (.oneof index)).toList } := by
  rcases starts with rfl | ⟨word, rfl, noOption⟩
  · rfl
  · have noWord : Token.word word ≠ .word "option" := by
      simpa [FieldContext.memberWords] using noOption
    rw [oneofMember, if_neg noWord]
    rfl

theorem reads_oneofBody {expected : String} {index : Nat} (oneof start : Oneof)
    (wellFormed : oneof.WellFormed declared index)
    (starts : start.erased = Oneof.erased ⟨oneof.name, [], [], oneof.comments, oneof.span⟩)
    (none : start.fields = []) :
    Reads declared
      (oneof.options.flatMap OptionStatement.tokens ++
        (oneof.fields.flatMap Field.tokens ++ .symbol .rightBrace :: rest))
      (body (oneofMember index) expected start)
      fun found left => (found.1.erased = oneof.erased ∧
        ∀ field ∈ found.1.fields, field.LabelShown) ∧ left = rest := by
  have members := wellFormed.members
  have clear : ∀ field ∈ oneof.fields, field.Clear (.oneof index) :=
    fun field member => wellFormed.clear member
  obtain ⟨name, fields, options, comments, span⟩ := oneof
  rw [body_eq]
  refine Reads.repeating (ReadsLoop.members OptionStatement.tokens
    (fun read state => state.erased = Oneof.erased ⟨name, [], read, comments, span⟩ ∧
      ∀ field ∈ state.fields, field.LabelShown) options
    ?_ ⟨starts, by simp [none]⟩ fun state known => ?_)
  · rintro before option after state split ⟨known, shown⟩
    refine readsMember_option option (members.options option (by simp [split]))
      (fun found => { state with options := state.options ++ [found] }) rfl fun found same =>
        ⟨?_, shown⟩
    simp only [Oneof.erased, Oneof.mk.injEq, List.map_append, List.map_singleton] at known ⊢
    simp only [known, same, and_self]
  refine ReadsLoop.members Field.tokens
    (fun read state => state.erased = Oneof.erased ⟨name, read, options, comments, span⟩ ∧
      ∀ field ∈ state.fields, field.LabelShown) fields
    ?_ known fun state known => ?_
  · rintro before field after state split ⟨known, shown⟩
    refine readsMember_field (.oneof index) field (members.fields field (by simp [split]))
      (clear field (by simp [split]))
      (fun found => { state with fields := state.fields ++ found })
      (fun _ starts => oneofMember_field index state starts) fun found same foundShown => ⟨?_, ?_⟩
    · simp only [Oneof.erased, Oneof.mk.injEq, List.map_append, List.map_singleton] at known ⊢
      simp only [known, same, and_self]
    · exact List.forall_mem_append.mpr ⟨shown, List.forall_mem_singleton.mpr foundShown⟩
  · exact ReadsLoop.bodyEnd fun _ => ⟨known, rfl⟩

theorem reads_oneof (index : Nat) (oneof : Oneof) (wellFormed : oneof.WellFormed declared index) :
    Reads declared (oneof.tokens ++ rest) (Parser.oneof index)
      fun found left => (found.erased = oneof.erased ∧ found.Valid) ∧ left = rest := by
  simp only [Oneof.tokens, braced, List.append_assoc, List.cons_append, List.nil_append]
  refine reads_leadingComments fun comments => Reads.expect fun start => ?_
  refine (reads_name oneof.name).bind ?_
  rintro foundName _ ⟨sameName, rfl⟩
  refine reads_openBrace.bind ?_
  rintro trailing _ rfl
  refine (reads_oneofBody oneof _ wellFormed ?_ rfl).bind ?_
  · simp only [Oneof.erased, sameName, List.map_nil]
  · rintro ⟨found, stop⟩ _ ⟨⟨same, shown⟩, rfl⟩
    have valid := (oneof.valid_iff_erased.mp (oneof.faults_eq_nil_iff.mp wellFormed.sound))
    have foundValid : ({ found with span := start.through stop } : Oneof).Valid := by
      rw [Oneof.valid_iff_erased]
      refine ⟨?_, fun field member => ?_⟩
      · show found.erased.Valid
        rw [same]
        exact valid.1
      · obtain ⟨original, originalMember, originalSame⟩ :=
          exists_field_of_erased (congrArg Oneof.fields same) member
        have singular : original.label = .singular :=
          (wellFormed.members.fields original originalMember).unlabelled
            (valid.2 original originalMember)
        have label : original.erased.label = field.erased.label :=
          congrArg Field.label originalSame
        exact (shown field member).labelSpan_eq_none (label.symm.trans singular)
    exact Reads.report ((Oneof.faults_eq_nil_iff _).mpr foundValid)
      (Reads.pure ⟨⟨same, foundValid⟩, rfl⟩)

/-! ### Extension blocks -/

theorem extensionMember_field (extension : Extension) {token : Token}
    (starts : token = .symbol .dot ∨
      ∃ word, token = .word word ∧ word ∉ FieldContext.extension.memberWords) :
    extensionMember extension token = some do
      return { extension with fields := extension.fields ++ (← Parser.field .extension).toList } := by
  rcases starts with rfl | ⟨word, rfl, noOption⟩
  · rfl
  · have noWord : Token.word word ≠ .word "option" := by
      simpa [FieldContext.memberWords] using noOption
    rw [extensionMember, if_neg noWord]
    rfl

theorem reads_extensionBody {expected : String} {parent : Option MessagePath}
    (extension start : Extension) (members : extension.Members declared parent)
    (starts : start.erased = Extension.erased
      { extension with fields := [], options := [] }) :
    Reads declared
      (extension.options.flatMap OptionStatement.tokens ++
        (extension.fields.flatMap Field.tokens ++ .symbol .rightBrace :: rest))
      (body extensionMember expected start)
      fun found left => found.1.erased = extension.erased ∧ left = rest := by
  obtain ⟨extendee, fields, options, parentPath, extendsOptions, comments, span⟩ := extension
  rw [body_eq]
  refine Reads.repeating (ReadsLoop.members OptionStatement.tokens
    (fun read state => state.erased = Extension.erased
      ⟨extendee, [], read, parentPath, extendsOptions, comments, span⟩) options
    ?_ starts fun state known => ?_)
  · intro before option after state split known
    refine readsMember_option option (members.options option (by simp [split]))
      (fun found => { state with options := state.options ++ [found] }) rfl fun found same => ?_
    simp only [Extension.erased, Extension.mk.injEq, List.map_append, List.map_singleton] at known ⊢
    simp only [known, same, and_self]
  refine ReadsLoop.members Field.tokens
    (fun read state => state.erased = Extension.erased
      ⟨extendee, read, options, parentPath, extendsOptions, comments, span⟩) fields
    ?_ known fun state known => ?_
  · intro before field after state split known
    have wellFormed := members.fields field (by simp [split])
    refine readsMember_field .extension field wellFormed wellFormed.clear
      (fun found => { state with fields := state.fields ++ found })
      (fun _ starts => extensionMember_field state starts) fun found same _ => ?_
    simp only [Extension.erased, Extension.mk.injEq, List.map_append, List.map_singleton] at known ⊢
    simp only [known, same, and_self]
  · exact ReadsLoop.bodyEnd fun _ => ⟨known, rfl⟩

theorem reads_extension (parent : Option MessagePath) (extension : Extension)
    (wellFormed : extension.WellFormed declared parent) :
    Reads declared (extension.tokens ++ rest) (Parser.extension parent)
      fun found left => found.erased = extension.erased ∧ left = rest := by
  simp only [Extension.tokens, braced, List.append_assoc, List.cons_append, List.nil_append]
  refine reads_leadingComments fun comments => Reads.expect fun start => ?_
  refine (reads_typeName extension.extendee wellFormed.extendee (by simp)).bind ?_
  rintro extendee _ ⟨sameExtendee, rfl⟩
  refine reads_openBrace.bind ?_
  rintro trailing _ rfl
  refine (reads_extensionBody extension _ wellFormed.members ?_).bind ?_
  · have names : extendee.namesOptions = extension.extendsOptions := by
      rw [wellFormed.members.extendsOptions, ← namesOptions_erased, sameExtendee,
        namesOptions_erased]
    simp only [Extension.erased, sameExtendee, names, wellFormed.members.parent, List.map_nil]
  · rintro ⟨found, stop⟩ _ ⟨same, rfl⟩
    refine Reads.edition (Reads.report ?_ (Reads.pure ⟨same, rfl⟩))
    rw [Extension.faults_eq_nil_iff, ← Extension.valid_erased]
    show found.erased.Valid declared
    rw [same, Extension.valid_erased, ← Extension.faults_eq_nil_iff]
    exact wellFormed.sound

/-! ### Messages -/

theorem messageMember_field (nested : MessagePath → Parser Message) (path : MessagePath)
    (message : Message) {token : Token}
    (starts : token = .symbol .dot ∨
      ∃ word, token = .word word ∧ word ∉ FieldContext.message.memberWords) :
    messageMember nested path message token = some do
      return { message with fields := message.fields ++ (← Parser.field .message).toList } := by
  rcases starts with rfl | ⟨word, rfl, noMember⟩
  · rfl
  · simp only [FieldContext.memberWords, List.mem_cons, List.not_mem_nil, or_false, not_or]
      at noMember
    simp only [messageMember, noMember, if_false]

/-- What is known of a message while its body is read: erased, it is the given one, only labels that
are written have been read, and the oneofs so far are without fault. -/
structure MessageKnown (known state : Message) : Prop where
  erased : state.erased = known.erased
  shown : ∀ field ∈ state.fields, field.LabelShown
  oneofs : ∀ oneof ∈ state.oneofs, oneof.Valid

theorem reads_messageBody {expected : String} {nested : MessagePath → Parser Message}
    {path : MessagePath} {isNested : MessagePath → Message → Prop} (message start : Message)
    (members : message.Members declared isNested path)
    (clear : ∀ field ∈ message.fields, field.Clear .message)
    (nestedReads : ∀ (index : Nat) (inner : Message), message.messages[index]? = some inner →
      ∀ rest, Reads declared (inner.tokens ++ rest) (nested (path ++ [index]))
        fun found left => found.erased = inner.erased ∧ left = rest)
    (starts : MessageKnown
      ⟨message.name, [], [], [], [], [], [], [], [], message.comments, message.span⟩ start) :
    Reads declared
      (message.options.flatMap OptionStatement.tokens ++
        (message.reserved.flatMap Reserved.tokens ++
          (message.extensionRanges.flatMap ExtensionRanges.tokens ++
            (message.fields.flatMap Field.tokens ++
              (message.oneofs.flatMap Oneof.tokens ++
                (message.messages.flatMap Message.tokens ++
                  (message.enums.flatMap Enumeration.tokens ++
                    (message.extensions.flatMap Extension.tokens ++
                      .symbol .rightBrace :: rest))))))))
      (body (messageMember nested path) expected start)
      fun found left => MessageKnown message found.1 ∧ left = rest := by
  obtain ⟨name, fields, oneofs, messages, enums, extensions, extensionRanges, options, reserved,
    comments, span⟩ := message
  rw [body_eq]
  refine Reads.repeating (ReadsLoop.members OptionStatement.tokens
    (fun read => MessageKnown ⟨name, [], [], [], [], [], [], read, [], comments, span⟩) options
    ?_ starts fun state known => ?_)
  · rintro before option after state split ⟨known, shown, valid⟩
    refine readsMember_option option (members.options option (by simp [split]))
      (fun found => { state with options := state.options ++ [found] }) rfl fun found same =>
        ⟨?_, shown, valid⟩
    simp only [Message.erased_eq, Message.mk.injEq, List.map_append, List.map_singleton] at known ⊢
    simp only [known, same, and_self]
  refine ReadsLoop.members Reserved.tokens
    (fun read => MessageKnown ⟨name, [], [], [], [], [], [], options, read, comments, span⟩)
    reserved ?_ known fun state known => ?_
  · rintro before entry after state split ⟨known, shown, valid⟩
    refine ⟨_, _, _, rfl, by simp, by simp, rfl, fun rest => ?_⟩
    refine (reads_reserved .field entry (members.reserved entry (by simp [split]))).bind ?_
    rintro found _ ⟨same, rfl⟩
    refine Reads.pure ⟨⟨?_, shown, valid⟩, rfl⟩
    simp only [Message.erased_eq, Message.mk.injEq, List.map_append, List.map_singleton] at known ⊢
    simp only [known, same, and_self]
  refine ReadsLoop.members ExtensionRanges.tokens
    (fun read => MessageKnown ⟨name, [], [], [], [], [], read, options, reserved, comments, span⟩)
    extensionRanges ?_ known fun state known => ?_
  · rintro before entry after state split ⟨known, shown, valid⟩
    refine ⟨_, _, _, rfl, by simp, by simp, rfl, fun rest => ?_⟩
    refine (reads_extensionRanges entry (members.extensionRanges entry (by simp [split]))).bind ?_
    rintro found _ ⟨same, rfl⟩
    refine Reads.pure ⟨⟨?_, shown, valid⟩, rfl⟩
    simp only [Message.erased_eq, Message.mk.injEq, List.map_append, List.map_singleton] at known ⊢
    simp only [known, same, and_self]
  refine ReadsLoop.members Field.tokens
    (fun read => MessageKnown
      ⟨name, read, [], [], [], [], extensionRanges, options, reserved, comments, span⟩)
    fields ?_ known fun state known => ?_
  · rintro before field after state split ⟨known, shown, valid⟩
    refine readsMember_field .message field (members.fields field (by simp [split]))
      (clear field (by simp [split]))
      (fun found => { state with fields := state.fields ++ found })
      (fun _ starts => messageMember_field nested path state starts)
      fun found same foundShown => ⟨?_, ?_, valid⟩
    · simp only [Message.erased_eq, Message.mk.injEq, List.map_append, List.map_singleton]
        at known ⊢
      simp only [known, same, and_self]
    · exact List.forall_mem_append.mpr ⟨shown, List.forall_mem_singleton.mpr foundShown⟩
  refine ReadsLoop.members Oneof.tokens
    (fun read => MessageKnown
      ⟨name, fields, read, [], [], [], extensionRanges, options, reserved, comments, span⟩)
    oneofs ?_ known fun state known => ?_
  · rintro before oneof after state split ⟨known, shown, valid⟩
    have place : state.oneofs.length = before.length := by
      simpa [Message.erased_eq] using congrArg (fun message => message.oneofs.length) known
    have wellFormed := members.oneofs before.length oneof (by simp [split])
    refine ⟨_, _, _, rfl, by simp, by simp, rfl, fun rest => ?_⟩
    rw [place]
    refine (reads_oneof before.length oneof wellFormed).bind ?_
    rintro found _ ⟨⟨same, foundValid⟩, rfl⟩
    refine Reads.pure ⟨⟨?_, shown, ?_⟩, rfl⟩
    · simp only [Message.erased_eq, Message.mk.injEq, List.map_append, List.map_singleton]
        at known ⊢
      simp only [known, same, and_self]
    · exact List.forall_mem_append.mpr ⟨valid, List.forall_mem_singleton.mpr foundValid⟩
  refine ReadsLoop.members Message.tokens
    (fun read => MessageKnown
      ⟨name, fields, oneofs, read, [], [], extensionRanges, options, reserved, comments, span⟩)
    messages ?_ known fun state known => ?_
  · rintro before inner after state split ⟨known, shown, valid⟩
    have place : state.messages.length = before.length := by
      simpa [Message.erased_eq] using congrArg (fun message => message.messages.length) known
    refine ⟨_, _, _, inner.tokens_eq, by simp, by simp, rfl, fun rest => ?_⟩
    rw [place]
    refine (nestedReads before.length inner (by simp [split]) rest).bind ?_
    rintro found _ ⟨same, rfl⟩
    refine Reads.pure ⟨⟨?_, shown, valid⟩, rfl⟩
    simp only [Message.erased_eq, Message.mk.injEq, List.map_append, List.map_singleton] at known ⊢
    simp only [known, ← Message.erased_eq, same, and_self]
  refine ReadsLoop.members Enumeration.tokens
    (fun read => MessageKnown
      ⟨name, fields, oneofs, messages, read, [], extensionRanges, options, reserved, comments,
        span⟩)
    enums ?_ known fun state known => ?_
  · rintro before enumeration after state split ⟨known, shown, valid⟩
    refine ⟨_, _, _, rfl, by simp, by simp, rfl, fun rest => ?_⟩
    refine (reads_enumeration enumeration (members.enums enumeration (by simp [split]))).bind ?_
    rintro found _ ⟨same, rfl⟩
    refine Reads.pure ⟨⟨?_, shown, valid⟩, rfl⟩
    simp only [Message.erased_eq, Message.mk.injEq, List.map_append, List.map_singleton] at known ⊢
    simp only [known, same, and_self]
  refine ReadsLoop.members Extension.tokens
    (fun read => MessageKnown
      ⟨name, fields, oneofs, messages, enums, read, extensionRanges, options, reserved, comments,
        span⟩)
    extensions ?_ known fun state known => ?_
  · rintro before extension after state split ⟨known, shown, valid⟩
    refine ⟨_, _, _, rfl, by simp, by simp, rfl, fun rest => ?_⟩
    refine (reads_extension _ extension (members.extensions extension (by simp [split]))).bind ?_
    rintro found _ ⟨same, rfl⟩
    refine Reads.pure ⟨⟨?_, shown, valid⟩, rfl⟩
    simp only [Message.erased_eq, Message.mk.injEq, List.map_append, List.map_singleton] at known ⊢
    simp only [known, same, and_self]
  · exact ReadsLoop.bodyEnd fun _ => ⟨known, rfl⟩

/-- The message that was read is without fault if the given one is. -/
theorem MessageKnown.faults_eq_nil {isNested : MessagePath → Message → Prop} {path : MessagePath}
    {message found : Message} (known : MessageKnown message found)
    (members : message.Members declared isNested path) (sound : message.faults = []) :
    found.faults = [] := by
  have placed := members.placed
  have foundPlaced := placed.of_erased known.erased
  have valid := (Message.faults_eq_nil_iff placed members.validOneofs).mp sound
  obtain ⟨validErased, mapLabels⟩ := message.valid_iff_erased.mp valid
  rw [Message.faults_eq_nil_iff foundPlaced known.oneofs, Message.valid_iff_erased, known.erased]
  refine ⟨validErased, fun field member isMap none => ?_⟩
  have direct := foundPlaced.mem_fields member none
  have sameFields : found.fields.map Field.erased = message.fields.map Field.erased := by
    have same := known.erased
    rw [Message.erased_eq, Message.erased_eq, Message.mk.injEq] at same
    exact same.2.1
  obtain ⟨original, originalMember, originalSame⟩ := exists_field_of_erased sameFields direct
  have originalIsMap : original.type.isMap = true := by
    rw [← FieldType.isMap_erased, ← isMap, ← FieldType.isMap_erased field.type]
    exact congrArg (fun field => field.type.isMap) originalSame
  have unlabelled := mapLabels original (List.mem_append_left _ originalMember) originalIsMap
    (placed.fields original originalMember)
  have singular := (members.fields original originalMember).unlabelled unlabelled
  have label : original.erased.label = field.erased.label := congrArg Field.label originalSame
  exact (known.shown field direct).labelSpan_eq_none (label.symm.trans singular)

theorem reads_message (depth : Nat) (path : MessagePath) (message : Message)
    (wellFormed : message.WellFormed declared depth path)
    (clear : ∀ field ∈ message.everyField, field.Clear .message) (rest : List Token) :
    Reads declared (message.tokens ++ rest) (Parser.message depth path)
      fun found left => found.erased = message.erased ∧ left = rest := by
  induction depth generalizing path message rest with
  | zero => exact wellFormed.elim
  | succ depth inductionHypothesis =>
    obtain ⟨name, members, sound⟩ := wellFormed
    rw [Message.everyField_eq, List.forall_mem_append] at clear
    rw [Message.tokens_eq]
    simp only [braced, List.append_assoc, List.cons_append, List.nil_append]
    refine reads_leadingComments fun comments => Reads.expect fun start => ?_
    refine (reads_name message.name).bind ?_
    rintro foundName _ ⟨sameName, rfl⟩
    refine reads_openBrace.bind ?_
    rintro trailing _ rfl
    refine (reads_messageBody message _ members clear.1 ?_ ?_).bind ?_
    · intro index inner found rest
      refine inductionHypothesis _ inner (members.messages index inner found) ?_ rest
      intro field member
      exact clear.2 field (List.mem_flatMap.mpr ⟨inner, List.mem_of_getElem? found, member⟩)
    · refine ⟨?_, by simp, by simp⟩
      simp only [Message.erased_eq, sameName, List.map_nil]
    · rintro ⟨found, stop⟩ _ ⟨known, rfl⟩
      have knownResult : MessageKnown message { found with span := start.through stop } := by
        refine ⟨?_, known.shown, known.oneofs⟩
        rw [← known.erased, Message.erased_eq, Message.erased_eq]
      refine Reads.report (knownResult.faults_eq_nil members sound)
        (Reads.pure ⟨knownResult.erased, rfl⟩)

end Parser

end ProtoSchema
