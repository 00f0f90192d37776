/-
This file settles when the canonical text of an accepted file is accepted again
with the same tree. In the newer edition it always is. In the older one a field
may be required, and that label is not printed: the text is read back exactly if
the type of every such field starts with a word that has no other meaning at the
start of a member of a message.
-/

import ProtoSchema.Proofs.Frontend.Accepted

namespace ProtoSchema

/-! ### Fields of a file -/

/-- What reading a printed field back depends on. -/
def Field.front (field : Field) : FieldLabel × Option Span × List Token :=
  (field.label, field.labelSpan, field.type.tokens)

/-- The field was written with the word `required`. -/
def Field.IsRequired (field : Field) : Prop := field.labelSpan.isSome ∧ field.label = .singular

theorem Message.WellFormed.everyField {edition : Option Edition} {depth : Nat}
    {path : MessagePath} {message : Message} (wellFormed : message.WellFormed edition depth path) :
    ∀ field ∈ message.everyField, field.WellFormed edition .message := by
  induction depth generalizing path message with
  | zero => exact wellFormed.elim
  | succ depth inductionHypothesis =>
    obtain ⟨-, members, -⟩ := wellFormed
    intro field member
    rw [everyField_eq, List.mem_append, List.mem_flatMap] at member
    rcases member with member | ⟨inner, innerMember, member⟩
    · exact members.fields field member
    · obtain ⟨index, found⟩ := List.getElem?_of_mem innerMember
      exact inductionHypothesis (members.messages index inner found) field member

theorem File.WellFormed.everyField {file : File} (wellFormed : file.WellFormed) :
    ∀ field ∈ file.everyField, field.WellFormed file.declaredEdition .message := by
  intro field member
  obtain ⟨message, messageMember, member⟩ := List.mem_flatMap.mp member
  obtain ⟨index, found⟩ := List.getElem?_of_mem messageMember
  exact (wellFormed.members.messages index message found).everyField field member

theorem FieldType.tokens_erased (type : FieldType) : type.erased.tokens = type.tokens := by
  have name (name : TypeName) : name.erased.tokens = name.tokens := by
    simp [TypeName.tokens, TypeName.erased, DottedName.tokens, DottedName.erased,
      Function.comp_def]
  induction type with
  | scalar => rfl
  | named reference => exact name reference.name
  | map key keySpan value span inductionHypothesis =>
    rw [erased, tokens, tokens, inductionHypothesis]

/-- The fields of an erased file are those of the file, in their order. -/
theorem Message.everyField_erased (message : Message) :
    message.erased.everyField = message.everyField.map Field.erased := by
  induction message using Message.induction with
  | step message inductionHypothesis =>
    have inner : message.messages.flatMap (fun inner => inner.erased.everyField) =
        message.messages.flatMap fun inner => inner.everyField.map Field.erased :=
      List.flatMap_congr inductionHypothesis
    rw [everyField_eq, everyField_eq, erased_eq]
    simp only [List.flatMap_map, List.map_append, List.map_flatMap, inner]

theorem File.everyField_erased (file : File) :
    file.erased.everyField = file.everyField.map Field.erased := by
  simp only [everyField, erased, List.flatMap_map, List.map_flatMap, Message.everyField_erased]

namespace SymbolTable

theorem tokens_mapReference (table : SymbolTable) (scopes : List String) (type : FieldType) :
    (type.mapReference (table.resolveReference scopes)).tokens = type.tokens := by
  have value (reference : TypeReference) :
      (ValueType.named (table.resolveReference scopes reference)).tokens =
        (ValueType.named reference).tokens := by
    rw [ValueType.tokens, ValueType.tokens, name_resolveReference]
  induction type with
  | scalar => rfl
  | named reference => exact value reference
  | map key keySpan value span inductionHypothesis =>
    rw [FieldType.mapReference, FieldType.tokens, FieldType.tokens, inductionHypothesis]

theorem front_resolveMessage (table : SymbolTable) (message : Message) (scopes : List String) :
    (table.resolveMessage scopes message).everyField.map Field.front =
      message.everyField.map Field.front := by
  have front (scopes : List String) (field : Field) :
      (table.resolveField scopes field).front = field.front := by
    rw [Field.front, Field.front, resolveField, tokens_mapReference]
  induction message using Message.induction generalizing scopes with
  | step message inductionHypothesis =>
    have inner : message.messages.flatMap (fun inner =>
        (table.resolveMessage (enter scopes message) inner).everyField.map Field.front) =
        message.messages.flatMap fun inner => inner.everyField.map Field.front :=
      List.flatMap_congr fun inner member => inductionHypothesis inner member _
    rw [Message.everyField_eq, Message.everyField_eq, resolveMessage_eq]
    simp only [List.flatMap_map, List.map_append, List.map_flatMap, List.map_map, inner,
      Function.comp_def, front]

end SymbolTable

theorem File.front_resolve (file : File) :
    file.resolve.everyField.map Field.front = file.everyField.map Field.front := by
  simp only [everyField, resolve, SymbolTable.resolveMessages_eq, List.flatMap_map,
    List.map_flatMap, SymbolTable.front_resolveMessage]

namespace File

/-- Every field whose label was dropped is read as a field. -/
def RequiredLead (file : File) : Prop :=
  ∀ field ∈ file.everyField, field.IsRequired → field.type.Leads .message

/-- Every field that is printed without a label is read as a field. -/
def IsClear (file : File) : Prop := ∀ field ∈ file.everyField, field.Clear .message

theorem isClear_erased (file : File) : file.erased.IsClear ↔ file.IsClear := by
  rw [IsClear, IsClear, everyField_erased, List.forall_mem_map]
  refine forall₂_congr fun field _ => ?_
  rw [Field.Clear, Field.Clear, FieldType.Leads, FieldType.Leads, Field.erased,
    FieldType.tokens_erased]

theorem WellFormed.isClear_iff {file : File} (wellFormed : file.WellFormed) :
    file.IsClear ↔ file.RequiredLead := by
  constructor
  · exact fun clear field member required => clear field member required.2
  · intro lead field member singular
    cases labelled : field.labelSpan with
    | none => exact (wellFormed.everyField field member).leads labelled
    | some span => exact lead field member ⟨by rw [labelled]; rfl, singular⟩

theorem requiredLead_of_droppedLabels {file : File} (none : file.droppedLabels = 0) :
    file.RequiredLead := by
  rintro field member required
  have each := List.sum_eq_zero_iff_forall_eq_nat.mp none
  have zero := each field.droppedLabels (List.mem_map_of_mem member)
  exact absurd required.2 (Field.labelShown_of_droppedLabels zero required.1)

/-- In the newer edition no field is required. -/
theorem WellFormed.requiredLead {file : File} (wellFormed : file.WellFormed)
    (newer : file.declaredEdition = some .proto3) : file.RequiredLead := by
  rintro field member ⟨labelled, singular⟩
  obtain ⟨span, spanEq⟩ := Option.isSome_iff_exists.mp labelled
  have sound := (wellFormed.everyField field member).required span spanEq singular
  rw [newer] at sound
  cases sound

end File

/-! ### Reading the canonical text -/

namespace ParseOptions

variable {options : ParseOptions} {parsed : File}

/-- Resolving changes nothing that reading a printed field back depends on. -/
theorem forall_front_finish (holds : FieldLabel × Option Span × List Token → Prop) :
    (∀ field ∈ (options.finish parsed).everyField, holds field.front) ↔
      ∀ field ∈ parsed.everyField, holds field.front := by
  have fronts (file : File) : (∀ field ∈ file.everyField, holds field.front) ↔
      ∀ front ∈ file.everyField.map Field.front, holds front := by
    rw [List.forall_mem_map]
  rw [finish]
  split
  · rw [fronts, fronts, parsed.front_resolve]
  · exact Iff.rfl

theorem requiredLead_finish : (options.finish parsed).RequiredLead ↔ parsed.RequiredLead :=
  forall_front_finish fun front => front.2.1.isSome ∧ front.1 = .singular →
    ∀ word, front.2.2.head? = some (.word word) →
      word ∉ labelWords ++ FieldContext.message.memberWords

theorem isClear_finish : (options.finish parsed).IsClear ↔ parsed.IsClear :=
  forall_front_finish fun front => front.1 = .singular →
    ∀ word, front.2.2.head? = some (.word word) →
      word ∉ labelWords ++ FieldContext.message.memberWords

/-- The canonical text is cut into the canonical tokens. -/
theorem scan_render (wellFormed : parsed.WellFormed) :
    ∃ pieces, scan parsed.render.toList = .pieces pieces ∧ Piece.tokens pieces = parsed.tokens :=
  (File.spells_render wellFormed.members).scan

/-- The canonical text is accepted if every field without a label is read as a field. -/
theorem parse_render_of_clear (wellFormed : parsed.WellFormed)
    (clear : parsed.IsClear)
    (fits : byteLength parsed.render.toList ≤ options.maxLength) :
    ∃ again, options.parse parsed.render = .ok (options.finish again) ∧
      again.erased = parsed.erased := by
  obtain ⟨pieces, scanned, tokens⟩ := scan_render wellFormed
  have reads : Parser.Reads none parsed.tokens Parser.file
      fun found left => found.erased = parsed.erased ∧ left = [] :=
    Parser.reads_file parsed wellFormed clear
  obtain ⟨again, rest, done, same, -⟩ := reads
    ⟨none, byteLength parsed.render.toList, (TokenStream.ofPieces pieces).atEnd⟩
    (TokenStream.ofPieces pieces).lexemes rfl ((TokenStream.tokens_ofPieces pieces).trans tokens)
  exact ⟨again, parse_eq_ok_iff.mpr ⟨pieces, again, ⟨fits, scanned, rest, done⟩, rfl⟩, same⟩

/-- Two well-formed trees with one canonical text have one sequence of canonical tokens. -/
theorem tokens_eq_of_render_eq {again : File} (wellFormed : parsed.WellFormed)
    (againWellFormed : again.WellFormed) (same : again.render = parsed.render) :
    again.tokens = parsed.tokens := by
  obtain ⟨pieces, scanned, tokens⟩ := scan_render wellFormed
  obtain ⟨others, othersScanned, othersTokens⟩ := scan_render againWellFormed
  rw [same, scanned] at othersScanned
  obtain rfl := Scan.pieces.inj othersScanned
  exact othersTokens.symm.trans tokens

/-- If the canonical text is read back as the tree it was printed from, no label was dropped when
it was read, so every field without a label is read as a field. -/
theorem isClear_of_parse_render {again : File} (wellFormed : parsed.WellFormed)
    (accepted : options.parse parsed.render = .ok again)
    (same : again.erased = (options.finish parsed).erased) : parsed.IsClear := by
  obtain ⟨pieces, scanned, tokens⟩ := scan_render wellFormed
  obtain ⟨others, found, answers, rfl⟩ := parse_eq_ok_iff.mp accepted
  obtain ⟨foundWellFormed, words⟩ := answers.wellFormed
  obtain rfl := Scan.pieces.inj (scanned.symm.trans answers.2.1)
  have render : found.render = parsed.render := by
    rw [← options.render_finish found, ← (options.finish found).render_erased, same,
      File.render_erased, render_finish]
  rw [tokens, tokens_eq_of_render_eq wellFormed foundWellFormed render] at words
  have none : found.droppedLabels = 0 := by omega
  have clear : (options.finish found).IsClear :=
    isClear_finish.mpr (foundWellFormed.isClear_iff.mpr (File.requiredLead_of_droppedLabels none))
  rwa [← File.isClear_erased, same, File.isClear_erased, isClear_finish] at clear

/-- The canonical text of a file that is accepted is accepted with the same tree again if each
field that is required is read as a field without its label. -/
theorem roundTrip_of_requiredLead {source : String} {file : File}
    (accepted : options.parse source = .ok file) (lead : file.RequiredLead)
    (fits : byteLength file.render.toList ≤ options.maxLength) :
    ∃ again, options.parse file.render = .ok again ∧ again.erased = file.erased := by
  obtain ⟨parsed, wellFormed, rfl⟩ := wellFormed_of_parse accepted
  rw [render_finish] at fits ⊢
  rw [requiredLead_finish] at lead
  obtain ⟨again, done, same⟩ :=
    parse_render_of_clear wellFormed (wellFormed.isClear_iff.mpr lead) fits
  refine ⟨_, done, ?_⟩
  rw [erased_finish, erased_finish, same]

end ParseOptions

/-! ### Round trips -/

/-- Every accepted file that declares the newer edition is read back from its canonical text as the
same tree, and its canonical text is a fixed point of printing. -/
theorem roundTrip_of_proto3 (options : ParseOptions) (source : String) (file : File)
    (accepted : options.parse source = .ok file) (newer : file.declaredEdition = some .proto3)
    (fits : byteLength file.render.toList ≤ options.maxLength) :
    ∃ again, options.parse file.render = .ok again ∧ again.erased = file.erased ∧
      again.render = file.render := by
  have lead : file.RequiredLead := by
    obtain ⟨parsed, wellFormed, rfl⟩ := ParseOptions.wellFormed_of_parse accepted
    rw [ParseOptions.declaredEdition_finish] at newer
    exact ParseOptions.requiredLead_finish.mpr (wellFormed.requiredLead newer)
  obtain ⟨again, done, same⟩ := ParseOptions.roundTrip_of_requiredLead accepted lead fits
  refine ⟨again, done, same, ?_⟩
  rw [← again.render_erased, same, file.render_erased]

/-- Types named by words that mean something else elsewhere are read back. -/
theorem roundTrip_of_proto3_sample : ∃ file again : File,
    parse "syntax = \"proto3\"; message M { group x = 1; message N { repeated stream.X y = 1; } }" =
        .ok file ∧
      parse file.render = .ok again ∧ again.erased = file.erased ∧ again.render = file.render := by
  obtain ⟨file, accepted, checked⟩ := exists_of_check
    (parse "syntax = \"proto3\"; message M { group x = 1; message N { repeated stream.X y = 1; } }")
    (fun file => file.declaredEdition = some .proto3 &&
      byteLength file.render.toList ≤ defaultMaxLength) (by decide +kernel)
  simp only [Bool.and_eq_true, decide_eq_true_eq] at checked
  obtain ⟨again, roundTrip⟩ := roundTrip_of_proto3 {} _ file accepted checked.1 checked.2
  exact ⟨file, again, accepted, roundTrip⟩

/-- Canonical text has one declaration on a line and plain digits. -/
example : (parse "syntax='proto3';message M{optional M x=0X1;}").toOption.map File.render =
    some "syntax = \"proto3\";\n\nmessage M \x7b\n  optional M x = 1;\n\x7d\n" := by decide +kernel

/-- An accepted file is read back from its canonical text as the same tree exactly if the type of
each direct field that was written with the word `required` starts with no label and with no word
that starts another member of a message. -/
theorem roundTrip_iff (options : ParseOptions) (source : String) (file : File)
    (accepted : options.parse source = .ok file)
    (fits : byteLength file.render.toList ≤ options.maxLength) :
    (∃ again, options.parse file.render = .ok again ∧ again.erased = file.erased) ↔
      ∀ field ∈ file.everyField, field.IsRequired → field.type.Leads .message := by
  constructor
  · rintro ⟨again, done, same⟩
    obtain ⟨parsed, wellFormed, rfl⟩ := ParseOptions.wellFormed_of_parse accepted
    rw [ParseOptions.render_finish] at done
    have clear := ParseOptions.isClear_of_parse_render wellFormed done same
    exact ParseOptions.requiredLead_finish.mpr (wellFormed.isClear_iff.mp clear)
  · exact fun lead => ParseOptions.roundTrip_of_requiredLead accepted lead fits

/-- A required field of an ordinary type is read back. -/
theorem roundTrip_of_required_sample : ∃ file again : File,
    parse "message M { required Foo x = 1; }" = .ok file ∧
      (∃ field ∈ file.everyField, field.IsRequired) ∧
      parse file.render = .ok again ∧ again.erased = file.erased := by
  obtain ⟨file, accepted, checked⟩ := exists_of_check (parse "message M { required Foo x = 1; }")
    (fun file => byteLength file.render.toList ≤ defaultMaxLength &&
      file.everyField.map Field.front = [(.singular, some ⟨12, 20⟩, [.word "Foo"])])
    (by decide +kernel)
  simp only [Bool.and_eq_true, decide_eq_true_eq] at checked
  obtain ⟨field, eq, front⟩ := List.map_eq_singleton_iff.mp checked.2
  simp only [Field.front, Prod.mk.injEq] at front
  obtain ⟨label, labelSpan, tokens⟩ := front
  have lead : ∀ field ∈ file.everyField, field.IsRequired → field.type.Leads .message := by
    rw [eq, List.forall_mem_singleton]
    intro required word head
    rw [tokens] at head
    obtain rfl : "Foo" = word := Token.word.inj (Option.some.inj head)
    decide
  obtain ⟨again, roundTrip⟩ := (roundTrip_iff {} _ file accepted checked.1).mpr lead
  refine ⟨file, again, accepted, ⟨field, by rw [eq]; exact List.mem_cons_self, ?_⟩, roundTrip⟩
  exact ⟨by rw [labelSpan]; rfl, label⟩

/-- Without its label, a required field whose type starts with a label is read as another field. -/
theorem required_before_label_sample : ∃ file : File,
    parse "message M { required optional.Foo x = 1; }" = .ok file ∧
      byteLength file.render.toList ≤ defaultMaxLength ∧
      ¬ ∃ again, parse file.render = .ok again ∧ again.erased = file.erased := by
  obtain ⟨file, accepted, checked⟩ := exists_of_check
    (parse "message M { required optional.Foo x = 1; }")
    (fun file => byteLength file.render.toList ≤ defaultMaxLength &&
      (parse file.render).toOption.any fun again => again.render ≠ file.render)
    (by decide +kernel)
  simp only [Bool.and_eq_true, decide_eq_true_eq] at checked
  refine ⟨file, accepted, checked.1, ?_⟩
  rintro ⟨again, done, same⟩
  have differs : again.render ≠ file.render := by
    simpa [done, Except.toOption] using checked.2
  exact differs (by rw [← again.render_erased, same, file.render_erased])

end ProtoSchema
