/-
This file notes the comments of the declarations that hold no messages. Those of a
statement were sorted before its first word and behind its semicolon, those of a
block before its first word and behind the brace that opens it; the members of a
block come after that brace, one after another.
-/

import ProtoSchema.Proofs.Comment.Rules
import ProtoSchema.Proofs.Layout.Outline

namespace ProtoSchema

/-! ### Members by kind -/

/-- How the remarks on a declaration are made up while its body is read: its own comments, and the
remarks on its members, kind by kind. -/
structure RemarkShape (State : Type) where
  comments : State → Comments
  members : State → List (List Remark)
  /-- How many kinds of members there are. -/
  kinds : Nat
  length_members : ∀ state, (members state).length = kinds

namespace RemarkShape

/-- The three kinds of members of an enum have remarks. -/
def enumeration : RemarkShape Enumeration :=
  ⟨Enumeration.comments, Enumeration.memberRemarks, 3, fun _ => rfl⟩

/-- The options in the body of a method. -/
def methodOptions : RemarkShape (List OptionStatement) :=
  ⟨fun _ => .none, fun options => [options.map OptionStatement.remark], 1, fun _ => rfl⟩

/-- Methods have remarks, with those on their options, and so have the options of a service. -/
def service : RemarkShape Service := ⟨Service.comments, Service.memberRemarks, 2, fun _ => rfl⟩

/-- The two kinds of members of a oneof have remarks. -/
def oneof : RemarkShape Oneof := ⟨Oneof.comments, Oneof.memberRemarks, 2, fun _ => rfl⟩

/-- The two kinds of members of an extension block have remarks. -/
def extension : RemarkShape Extension :=
  ⟨Extension.comments, Extension.memberRemarks, 2, fun _ => rfl⟩

/-- All eight kinds of members of a message have remarks. -/
def message : RemarkShape Message := ⟨Message.comments, Message.memberRemarks, 8, fun _ => rfl⟩

/-- A file has no comments of its own, only its members have. -/
def file : RemarkShape File := ⟨fun _ => .none, File.memberRemarks, 7, fun _ => rfl⟩

end RemarkShape

section Bodies

variable {State Value : Type} {atEnd : Surroundings} {shape : RemarkShape State}
variable {comments : Comments} {first lexemes : List Lexeme} {state : State}

/-- What is known of a declaration while its body is read: its own comments are those read before,
and the remarks on the members so far are noted from the opening brace on. -/
structure Collected (atEnd : Surroundings) (shape : RemarkShape State) (comments : Comments)
    (first : List Lexeme) (state : State) (lexemes : List Lexeme) : Prop where
  own : shape.comments state = comments
  noted : Noted atEnd first lexemes (shape.members state).flatten

namespace Collected

theorem opening (own : shape.comments state = comments)
    (empty : ∀ remarks ∈ shape.members state, remarks = []) :
    Collected atEnd shape comments lexemes state lexemes where
  own
  noted := by
    rw [List.flatten_eq_nil_iff.mpr empty]
    exact .nil (List.suffix_refl _)

theorem later {rest : List Lexeme} (left : rest <:+ lexemes)
    (collected : Collected atEnd shape comments first state lexemes) :
    Collected atEnd shape comments first state rest :=
  ⟨collected.own, collected.noted.later left⟩

/-- The parser of a member reads it and adds its remarks to those of its kind. -/
theorem add {parser : Parser Value} {update : Value → State} {remarks : Value → List Remark}
    (collected : Collected atEnd shape comments first state lexemes)
    (notes : Parser.Notes atEnd lexemes parser fun value rest =>
      Noted atEnd lexemes rest (remarks value))
    (kind : Nat) (inside : kind < shape.kinds)
    (same : ∀ value, shape.comments (update value) = shape.comments state)
    (added : ∀ value,
      shape.members (update value) = (shape.members state).modify kind (· ++ remarks value)) :
    Parser.Notes atEnd lexemes (parser >>= fun value => pure (update value))
      (Collected atEnd shape comments first) := by
  refine notes.bind fun value rest _ noted => .pure ⟨(same value).trans collected.own, ?_⟩
  rw [← shape.length_members state] at inside
  rw [added]
  exact (collected.noted.append noted).perm (perm_flatten_modify inside _)

end Collected

end Bodies

namespace Parser

variable {atEnd : Surroundings} {lexemes : List Lexeme}

/-! ### Statements -/

/-- A declaration from its first token to the semicolon that ends it. -/
theorem found_of_taken {first closing : Lexeme} {tail rest last : List Lexeme}
    (left : rest <:+ tail) (ends : rest = closing :: last) (stop : Span) :
    Remark.FoundAt atEnd ⟨⟨first.before.detached, first.before.leading,
      (around atEnd last).trailing⟩, first.span.through stop⟩ (first :: tail) last where
  onward := ⟨closing, ends ▸ left.trans (List.suffix_cons _ _)⟩
  starts := rfl
  comments := rfl

/-- A block from its first token on, with the members behind the brace that opens it. -/
theorem Notes.block {Head State Result : Type} {token : Token} {head : Parser Head}
    {parse : Member State} {expected : String} {next : Span → State × Span → Parser Result}
    {target : Result → List Lexeme → Prop} (shape : RemarkShape State)
    (opening : Comments → Span → Head → State) (takes : Takes head)
    (own : ∀ comments start head, shape.comments (opening comments start head) = comments)
    (empty : ∀ comments start head,
      ∀ remarks ∈ shape.members (opening comments start head), remarks = [])
    (noting : ∀ {comments first}, Noting atEnd parse (Collected atEnd shape comments first))
    (closing : ∀ start read stop rest, Noted atEnd lexemes rest
        (⟨shape.comments read, start.through stop⟩ :: (shape.members read).flatten) →
      Notes atEnd rest (next start (read, stop)) target) :
    Notes atEnd lexemes (do
      let comments ← Parser.leadingComments
      let start ← Parser.expect token
      let head ← head
      let trailing ← Parser.openBrace
      let found ← body parse expected (opening { comments with trailing } start head)
      next start found) target := by
  refine .leadingComments (.expect fun first tail split => ?_)
  subst split
  refine .takes takes fun head rest left => .openBrace fun brace inside opened => ?_
  refine (notes_body noting (.opening (own _ _ _) (empty _ _ _))).bind
    fun (read, stop) last _ collected => closing _ _ _ _ ?_
  rw [collected.own]
  exact .block (found_of_taken left opened stop) collected.noted

/-- A statement reads one thing between its first token and its semicolon. -/
theorem Notes.statement {Head Result : Type} {token : Token} {head : Parser Head}
    {remark : Result → Remark} (found : Head → Comments → Span → Result) (takes : Takes head)
    (same : ∀ head comments span, remark (found head comments span) = ⟨comments, span⟩) :
    Notes atEnd lexemes (do
      let comments ← Parser.leadingComments
      let start ← Parser.expect token
      let head ← head
      let (stop, trailing) ← Parser.terminator
      return found head { comments with trailing } (start.through stop))
      fun result rest => Noted atEnd lexemes rest [remark result] := by
  refine .leadingComments (.expect fun first tail split => ?_)
  subst split
  refine .takes takes fun head rest left => .terminator fun semicolon last ends => .pure ?_
  rw [same]
  exact .single (found_of_taken left ends _)

theorem notes_optionStatement : Notes atEnd lexemes optionStatement fun option rest =>
    Noted atEnd lexemes rest [option.remark] :=
  .statement OptionStatement.mk (.of_carries carries_setting) fun _ _ _ => rfl

theorem notes_reserved {kind : RangeKind} : Notes atEnd lexemes (reserved kind) fun reserved rest =>
    Noted atEnd lexemes rest [reserved.remark] :=
  .statement Reserved.mk (.of_carries carries_reservedItems) fun _ _ _ => rfl

theorem notes_package : Notes atEnd lexemes package fun package rest =>
    Noted atEnd lexemes rest [package.remark] :=
  .statement Package.mk (.of_carries carries_dottedName) fun _ _ _ => rfl

theorem notes_extensionRanges : Notes atEnd lexemes extensionRanges fun extensions rest =>
    Noted atEnd lexemes rest [extensions.remark] := by
  refine .leadingComments (.expect fun first tail split => ?_)
  subst split
  refine .takes (.of_carries carries_ranges) fun ranges rest left => ?_
  refine .takes (.of_carries carries_optionalSettings) fun options last leftLast => ?_
  refine .terminator fun semicolon last ends => .pure ?_
  exact .single (found_of_taken (leftLast.trans left) ends _)

theorem notes_import : Notes atEnd lexemes «import» fun entry rest =>
    Noted atEnd lexemes rest [entry.remark] := by
  refine .leadingComments (.expect fun first tail split => ?_)
  subst split
  refine .takes (.of_carries carries_importKind) fun kind rest left => ?_
  refine .takes (.of_carries carries_text) fun path last leftLast => ?_
  refine .terminator fun semicolon last ends => .pure ?_
  exact .single (found_of_taken (leftLast.trans left) ends _)

/-- A field starts with the next token, whatever that is. -/
theorem notes_field {context : FieldContext} :
    Notes atEnd lexemes (field context) fun found rest =>
      Noted atEnd lexemes rest (found.toList.map Field.remark) := by
  refine .leadingComments (.here fun start starts => ?_)
  refine .takes (.of_carries carries_fieldLabel) fun (label, labelSpan) rest left => ?_
  refine .stays stays_ahead fun tokens => ?_
  split
  · exact .here fun _ _ => .stop
  · refine .takes (.of_carries carries_fieldType) fun type afterType leftType => ?_
    refine .takes (.of_carries carries_name) fun name afterName leftName => ?_
    refine .takes takes_expect fun _ afterEquals leftEquals => ?_
    refine .takes (.of_carries carries_fieldNumber) fun number afterNumber leftNumber => ?_
    refine .takes (.of_carries carries_optionalSettings) fun options behind leftOptions => ?_
    refine .stays stays_edition fun declared => .stays stays_report fun _ => ?_
    refine .terminator fun semicolon last ends => .pure ?_
    have leftAll : semicolon :: last <:+ lexemes :=
      ends ▸ (leftOptions.trans leftNumber).trans
        ((leftEquals.trans leftName).trans (leftType.trans left))
    cases type with
    | none => exact .nil ((List.suffix_cons _ _).trans leftAll)
    | some type =>
      refine .single ⟨⟨semicolon, leftAll⟩, ?_, rfl⟩
      cases lexemes with
      | nil => exact absurd (List.suffix_nil.mp leftAll) (List.cons_ne_nil _ _)
      | cons first tail =>
        rw [starts first tail rfl]
        rfl

/-! ### Enums -/

theorem notes_enumValue : Notes atEnd lexemes enumValue fun value rest =>
    Noted atEnd lexemes rest [value.remark] := by
  refine .leadingComments (.name fun name first tail split named => ?_)
  subst split
  refine .takes takes_expect fun _ rest left => ?_
  refine .takes (.of_carries carries_signedInt) fun number afterNumber leftNumber => ?_
  refine .stays stays_report fun _ => ?_
  refine .takes (.of_carries carries_optionalSettings) fun options behind leftOptions => ?_
  refine .terminator fun semicolon last ends => .pure (.single ?_)
  rw [EnumValue.remark, named]
  exact found_of_taken ((leftOptions.trans leftNumber).trans left) ends _

theorem noting_enumMember {comments : Comments} {first : List Lexeme} :
    Noting atEnd enumMember (Collected atEnd RemarkShape.enumeration comments first) where
  later := Collected.later
  member := by
    intro state next parser lexemes found collected
    unfold enumMember at found
    split at found
    · split_ifs at found with isOption isReserved
      all_goals obtain rfl := Option.some.inj found
      · exact collected.add notes_optionStatement 1 (by decide) (fun _ => rfl)
          (by simp [RemarkShape.enumeration, Enumeration.memberRemarks, Enumeration.addOption])
      · exact collected.add notes_reserved 2 (by decide) (fun _ => rfl)
          (by simp [RemarkShape.enumeration, Enumeration.memberRemarks])
      · exact collected.add notes_enumValue 0 (by decide) (fun _ => rfl)
          (by simp [RemarkShape.enumeration, Enumeration.memberRemarks])
    · cases found

theorem notes_enumeration : Notes atEnd lexemes enumeration fun enumeration rest =>
    Noted atEnd lexemes rest enumeration.remarks :=
  .block .enumeration (fun comments start name => ⟨name, [], [], [], false, comments, start⟩)
    (.of_carries carries_name) (fun _ _ _ => rfl)
    (by simp [RemarkShape.enumeration, Enumeration.memberRemarks]) noting_enumMember
    fun _ _ _ _ noted => .stays stays_report fun _ => .pure noted

/-! ### Services -/

theorem noting_methodOptions {first : List Lexeme} :
    Noting atEnd
      (fun options next =>
        if next = .word "option" then some do return options ++ [← optionStatement] else none)
      (Collected atEnd RemarkShape.methodOptions .none first) where
  later := Collected.later
  member := by
    intro state next parser lexemes found collected
    split_ifs at found with isOption
    obtain rfl := Option.some.inj found
    exact collected.add notes_optionStatement 0 (by decide) (fun _ => rfl)
      (by simp [RemarkShape.methodOptions])

/-- The comment that trails a method was sorted behind its semicolon, or behind the brace in front
of its options. -/
theorem notes_methodEnd : Notes atEnd lexemes methodEnd fun found rest => ∃ token behind,
    lexemes = token :: behind ∧ found.2.2 = (around atEnd behind).trailing ∧
      Noted atEnd behind rest (found.1.map OptionStatement.remark) := by
  refine .look ?_
  split
  · refine .terminator fun semicolon behind ends => .pure ?_
    exact ⟨semicolon, behind, ends, rfl, .nil (List.suffix_refl _)⟩
  · refine .openBrace fun brace behind opened => ?_
    have opening : Collected atEnd RemarkShape.methodOptions .none behind [] behind :=
      .opening rfl (by simp [RemarkShape.methodOptions])
    refine (notes_body noting_methodOptions opening).bind
      fun (options, stop) last _ collected => .pure ⟨brace, behind, opened, rfl, ?_⟩
    simpa [RemarkShape.methodOptions] using collected.noted
  · exact .unexpected

theorem notes_method : Notes atEnd lexemes method fun method rest =>
    Noted atEnd lexemes rest method.remarks := by
  refine .leadingComments (.expect fun first tail split => ?_)
  subst split
  refine .takes (.of_carries carries_name) fun name afterName leftName => ?_
  refine .takes (.of_carries carries_methodType) fun (_, input) afterInput leftInput => ?_
  refine .takes takes_expect fun _ afterReturns leftReturns => ?_
  refine .takes (.of_carries carries_methodType) fun (_, output) rest leftOutput => ?_
  refine notes_methodEnd.bind fun (options, stop, trailing) last _ found => .pure ?_
  obtain ⟨token, behind, ends, rfl, noted⟩ := found
  have left : rest <:+ tail := (leftOutput.trans leftReturns).trans (leftInput.trans leftName)
  exact .block (found_of_taken left ends stop) noted

theorem noting_serviceMember {comments : Comments} {first : List Lexeme} :
    Noting atEnd serviceMember (Collected atEnd RemarkShape.service comments first) where
  later := Collected.later
  member := by
    intro state next parser lexemes found collected
    unfold serviceMember at found
    split_ifs at found with isMethod isOption
    all_goals obtain rfl := Option.some.inj found
    · exact collected.add notes_method 0 (by decide) (fun _ => rfl)
        (by simp [RemarkShape.service, Service.memberRemarks])
    · exact collected.add notes_optionStatement 1 (by decide) (fun _ => rfl)
        (by simp [RemarkShape.service, Service.memberRemarks])

theorem notes_service : Notes atEnd lexemes service fun service rest =>
    Noted atEnd lexemes rest service.remarks :=
  .block .service (fun comments start name => ⟨name, [], [], comments, start⟩)
    (.of_carries carries_name) (fun _ _ _ => rfl)
    (by simp [RemarkShape.service, Service.memberRemarks]) noting_serviceMember
    fun _ _ _ _ noted => .stays stays_report fun _ => .pure noted

end Parser

end ProtoSchema
