/-
This file places oneofs and extension blocks and says what is found in them. Their
checks find what is wrong with fields in such a group, of which nothing is found
while a field is read.
-/

import ProtoSchema.Grammar.Messages
import ProtoSchema.Proofs.Layout.Services
import ProtoSchema.Proofs.Tracking.Faults

namespace ProtoSchema

open Outline (Placed Laid WellPlaced leaf)

variable {source : List Char} {stream lexemes : List Lexeme}

/-! ### Fields -/

/-- The places of what checks of a field look at. -/
structure Field.Interior (field : Field) : Prop where
  label : ∀ span ∈ field.labelSpan, span.Between field.span.start field.span.stop
  type : field.type.span.Between field.span.start field.span.stop
  name : field.name.span.Between field.span.start field.span.stop
  number : field.number.span.Between field.span.start field.span.stop

theorem Field.Interior.of_placed {field : Field} (placed : field.outline.WellPlaced source) :
    field.Interior := by
  have between := placed.parts.arranged.between _ List.mem_cons_self
  refine ⟨fun span member => between (leaf span) ?_, field.type.span_outline ▸ between _ ?_,
    between field.name.outline ?_, between field.number.outline ?_⟩
  · exact List.mem_append_left _ (List.mem_append_left _
      (List.mem_map_of_mem (Option.mem_toList.mpr member)))
  all_goals simp

/-- The fields that have numbers are among the fields, in their order. -/
theorem NumberedField.inOrder {fields : List Field}
    (inOrder : fields.Pairwise fun first second => first.span.stop ≤ second.span.start) :
    (fields.filterMap ofField?).Pairwise
      fun first second => first.field.span.stop ≤ second.field.span.start := by
  refine inOrder.filterMap _ fun first second ahead numbered found other otherFound => ?_
  obtain ⟨_, -, rfl⟩ := Option.map_eq_some_iff.mp found
  obtain ⟨_, -, rfl⟩ := Option.map_eq_some_iff.mp otherFound
  exact ahead

/-! ### Oneofs -/

/-- The places of what the check of a oneof looks at. -/
structure Oneof.Interior (oneof : Oneof) : Prop where
  ordered : oneof.span.start ≤ oneof.span.stop
  name : oneof.name.span.Between oneof.span.start oneof.span.stop
  fields : ∀ field ∈ oneof.fields, field.span.Between oneof.span.start oneof.span.stop
  fieldsInOrder : oneof.fields.Pairwise fun first second => first.span.stop ≤ second.span.start
  inFields : ∀ field ∈ oneof.fields, field.Interior
  behindName : ∀ field ∈ oneof.fields, oneof.name.span.stop ≤ field.span.start

namespace Oneof

variable {oneof : Oneof}

theorem Interior.of_placed (placed : oneof.outline.WellPlaced source) : oneof.Interior := by
  obtain ⟨middle, parts, members⟩ := placed.laid
  have name := parts.arranged.between _ List.mem_cons_self oneof.name.outline List.mem_cons_self
  obtain ⟨fields, fieldsInOrder⟩ := members.entries
    (show oneof.fields.map Field.outline ∈ _ from List.mem_cons_self)
  exact
    { ordered := Nat.le_of_lt placed.some
      name := name.widen (Nat.le_refl _) members.arranged.ordered
      fields := fun field member =>
        (fields field member).2.widen parts.arranged.ordered (Nat.le_refl _)
      fieldsInOrder
      inFields := fun field member => Field.Interior.of_placed (fields field member).1
      behindName := fun field member => Nat.le_trans name.2.2 (fields field member).2.1 }

/-- Faults of some kinds that a part of the check finds. -/
abbrev Finds (stream : List Lexeme) (oneof : Oneof) (kinds : List SemanticCause)
    (faults : List SemanticFault) : Prop :=
  Checks stream oneof.span.start oneof.span.stop (Shape.oneof.sites oneof) kinds faults

theorem field_site {field : Field} (member : field ∈ oneof.fields) :
    (.group, field.span) ∈ Shape.oneof.sites oneof :=
  List.mem_cons_of_mem _ (List.mem_map_of_mem member)

theorem checks_memberFaults {field : Field} (interior : field.Interior)
    (member : field ∈ oneof.fields) :
    Checks stream field.span.start field.span.stop (Shape.oneof.sites oneof)
      [.labelInOneof, .mapInOneof] (memberFaults field) := by
  have ordered := interior.name.ordered
  have label : Checks stream field.span.start field.span.stop (Shape.oneof.sites oneof)
      [.labelInOneof] (field.labelSpan.toList.map fun span => ⟨.labelInOneof, span⟩) := by
    cases found : field.labelSpan with
    | none => exact .nil ordered
    | some span =>
      exact .single (field_site member) (interior.label span found) rfl List.mem_cons_self
  have map : Checks stream field.span.start field.span.stop (Shape.oneof.sites oneof) [.mapInOneof]
      (if field.type.isMap then [⟨.mapInOneof, field.type.span⟩] else []) := by
    split
    · exact .single (field_site member) interior.type rfl List.mem_cons_self
    · exact .nil ordered
  exact label.append map (by decide)

theorem checks_repeatedNumbers (interior : oneof.Interior) :
    oneof.Finds stream [.repeatedFieldNumber 0 default]
      ((clashes NumberedField.number (oneof.fields.filterMap NumberedField.ofField?)).map
        fun (first, second) => first.repeatedNumber second) := by
  have between : ∀ entry ∈ oneof.fields.filterMap NumberedField.ofField?,
      entry.field.span.Between oneof.span.start oneof.span.stop :=
    fun entry member => interior.fields entry.field (NumberedField.mem_of_mem member)
  have inside : ∀ entry ∈ oneof.fields.filterMap NumberedField.ofField?,
      entry.field.number.span.Between entry.field.span.start entry.field.span.stop :=
    fun entry member => (interior.inFields entry.field (NumberedField.mem_of_mem member)).number
  exact .clashes NumberedField.repeatedNumber interior.ordered between inside
    (NumberedField.inOrder interior.fieldsInOrder) (List.Sublist.refl _) (fun _ _ => rfl)
    (fun _ _ => rfl) (fun _ _ => rfl) (.inl rfl)

theorem checks_faults (placed : oneof.outline.WellPlaced source) :
    oneof.Finds stream
      [.emptyOneof, .labelInOneof, .mapInOneof, .repeatedName "" default,
        .repeatedFieldNumber 0 default] oneof.faults := by
  have inside := Interior.of_placed placed
  have empty : oneof.Finds stream [.emptyOneof]
      (if oneof.fields.isEmpty then [⟨.emptyOneof, oneof.name.span⟩] else []) := by
    split
    · exact .widen (.single List.mem_cons_self inside.name.whole rfl List.mem_cons_self)
        inside.name.1 inside.name.2.2
    · exact .nil inside.ordered
  have members : oneof.Finds stream [.labelInOneof, .mapInOneof]
      (oneof.fields.flatMap memberFaults) :=
    .each inside.ordered inside.fields (inside.fieldsInOrder.imp .inl) fun field member =>
      checks_memberFaults (inside.inFields field member) member
  have names : oneof.Finds stream [.repeatedName "" default]
      (repeatedNames (oneof.fields.map (·.name))) :=
    checks_memberNames inside.ordered inside.fields
      (fun field member => (inside.inFields field member).name) inside.fieldsInOrder
  exact ((empty.append members (by decide)).append names (by decide)).append
    (checks_repeatedNumbers inside) (by decide)

end Oneof

/-! ### Extension blocks -/

/-- The places of what the check of an extension block looks at. -/
structure Extension.Interior (extension : Extension) : Prop where
  ordered : extension.span.start ≤ extension.span.stop
  extendee : extension.extendee.span.Between extension.span.start extension.span.stop
  fields : ∀ field ∈ extension.fields,
    field.span.Between extension.span.start extension.span.stop
  fieldsInOrder : extension.fields.Pairwise fun first second => first.span.stop ≤ second.span.start
  inFields : ∀ field ∈ extension.fields, field.Interior

namespace Extension

variable {extension : Extension}

theorem Interior.of_placed (placed : extension.outline.WellPlaced source) : extension.Interior := by
  obtain ⟨middle, parts, members⟩ := placed.laid
  obtain ⟨fields, fieldsInOrder⟩ := members.entries
    (show extension.fields.map Field.outline ∈ _ from List.mem_cons_self)
  exact
    { ordered := Nat.le_of_lt placed.some
      extendee := (parts.arranged.between _ List.mem_cons_self _ List.mem_cons_self).widen
        (Nat.le_refl _) members.arranged.ordered
      fields := fun field member =>
        (fields field member).2.widen parts.arranged.ordered (Nat.le_refl _)
      fieldsInOrder
      inFields := fun field member => Field.Interior.of_placed (fields field member).1 }

theorem checks_faults (edition : Option Edition) (placed : extension.outline.WellPlaced source) :
    Checks stream extension.span.start extension.span.stop (Shape.extension.sites extension)
      [.badExtendee "", .mapInExtension] (extension.faults edition) := by
  have inside := Interior.of_placed placed
  have extendee : Checks stream extension.span.start extension.span.stop
      (Shape.extension.sites extension) [.badExtendee ""] (extension.extendeeFaults edition) := by
    rw [extendeeFaults]
    split
    · exact .widen (.single List.mem_cons_self inside.extendee.whole rfl List.mem_cons_self)
        inside.extendee.1 inside.extendee.2.2
    · exact .nil inside.ordered
  have maps : Checks stream extension.span.start extension.span.stop
      (Shape.extension.sites extension) [.mapInExtension] (extension.fields.flatMap fun field =>
        if field.type.isMap then [⟨.mapInExtension, field.type.span⟩] else []) := by
    refine .each inside.ordered inside.fields (inside.fieldsInOrder.imp .inl) fun field member => ?_
    have interior := inside.inFields field member
    split
    · exact .single (List.mem_cons_of_mem _ (List.mem_map_of_mem member)) interior.type rfl
        List.mem_cons_self
    · exact .nil interior.name.ordered
  exact extendee.append maps (by decide)

end Extension

namespace Parser

variable {start first index : Nat} {parts : List Outline}

/-- A field that is read is added; none is left of a statement that is dropped. -/
theorem surveys_addField {State : Type} {shape : Shape State} {state : State} {stages : List Stage}
    {found : List SemanticFault} {context : FieldContext} {update : Option Field → State}
    (body : Underway source stages first parts shape state found (offset source lexemes))
    (allowed : [.number, .phrase] ⊆ stages) (dropped : update none = state) (kind : Nat)
    (same : ∀ field, shape.parts (update (some field)) = shape.parts state)
    (added : ∀ field, shape.members (update (some field)) =
      (shape.members state).modify kind (· ++ [field.outline]))
    (stage : Stage) (never : stage ∉ [.number, .phrase])
    (sites : ∀ field, ∀ site ∈ shape.sites (update (some field)),
      site ∈ shape.sites state ∨ site = (stage, field.span)) :
    Surveys source stream start found lexemes
      (Parser.field context >>= fun field => pure (update field))
      (Underway source stages first parts shape) := by
  refine Surveys.known fun early _ => Surveys.fresh surveys_field
    fun field more rest _ late known => Surveys.pure ?_
  obtain ⟨own, placed⟩ := known
  cases field with
  | none =>
    rw [dropped]
    exact body.drop early late own allowed
  | some field =>
    refine body.add early late own allowed (placed field rfl) kind (same field) (added field)
      (some stage) (by simpa using never) fun site member => ?_
    rcases sites field site member with known | rfl
    · exact .inl known
    · exact .inr ⟨rfl, Nat.le_refl _, Nat.le_refl _⟩

theorem upheld_oneofMember : Upheld source stream start (oneofMember index)
    (Underway source [.number, .phrase] first parts Shape.oneof) where
  later := fun later body => body.later later
  member := by
    intro state next parser found lexemes result body
    unfold oneofMember at result
    split_ifs at result with isOption isField
    all_goals obtain rfl := Option.some.inj result
    · exact body.surveys_add (places_optionStatement.surveys []) (List.nil_subset _) 1
        (fun _ => rfl) (by simp [Shape.oneof]) none (by decide) fun _ _ _ known => .inl known
    · exact surveys_addField body (List.Subset.refl _) (by simp) 0 (fun _ => rfl)
        (by simp [Shape.oneof]) .group (by decide) (by grind [Shape.oneof])

theorem surveys_oneof : Surveys source stream (offset source lexemes) [] lexemes (oneof index)
    fun found faults after => FromStages [.repeatable, .number, .phrase, .group] faults ∧
      Placed source (offset source lexemes) after found.outline := by
  refine Surveys.leadingComments fun comments => ?_
  refine Surveys.places Places.expect_last fun start rest afterWord opened => ?_
  refine Surveys.places places_name fun name rest afterName named => ?_
  refine Surveys.places places_openBrace fun trailing rest afterBrace _ => ?_
  have opening : Underway source [.number, .phrase] (offset source rest) [name.outline] Shape.oneof
      ⟨name, [], [], { comments with trailing }, start⟩ [] (offset source rest) :=
    .opening rfl (by simp [Shape.oneof])
      (List.forall_mem_singleton.mpr (Nat.le_trans named.between.2.2 afterBrace))
  refine (surveys_body upheld_oneofMember opening).bind
    fun (read, stop) faults rest _ ⟨last, body, closed⟩ => Surveys.known fun before _ => ?_
  have placed : Placed source (offset source lexemes) (offset source rest)
      ({ read with span := start.through stop } : Oneof).outline :=
    body.enclose opened named.laid afterWord afterBrace closed
  have checks : Oneof.Finds stream _ _ _ := Oneof.checks_faults placed.wellPlaced
  exact body.surveys_report before placed checks (by decide) (by decide)

theorem upheld_extensionMember : Upheld source stream start extensionMember
    (Underway source [.number, .phrase] first parts Shape.extension) where
  later := fun later body => body.later later
  member := by
    intro state next parser found lexemes result body
    unfold extensionMember at result
    split_ifs at result with isOption isField
    all_goals obtain rfl := Option.some.inj result
    · exact body.surveys_add (places_optionStatement.surveys []) (List.nil_subset _) 1
        (fun _ => rfl) (by simp [Shape.extension]) none (by decide) fun _ _ _ known => .inl known
    · exact surveys_addField body (List.Subset.refl _) (by simp) 0 (fun _ => rfl)
        (by simp [Shape.extension]) .group (by decide) (by grind [Shape.extension])

theorem surveys_extension {parent : Option MessagePath} :
    Surveys source stream (offset source lexemes) [] lexemes (extension parent)
      fun found faults after => FromStages [.number, .phrase, .group] faults ∧
        Placed source (offset source lexemes) after found.outline := by
  refine Surveys.leadingComments fun comments => ?_
  refine Surveys.places Places.expect_last fun start rest afterWord opened => ?_
  refine Surveys.places places_typeName fun extendee rest afterName named => ?_
  refine Surveys.places places_openBrace fun trailing rest afterBrace _ => ?_
  have opening : Underway source [.number, .phrase] (offset source rest) [extendee.outline]
      Shape.extension
      ⟨extendee, [], [], parent, extendee.namesOptions, { comments with trailing }, start⟩ []
      (offset source rest) :=
    .opening rfl (by simp [Shape.extension])
      (List.forall_mem_singleton.mpr (Nat.le_trans named.between.2.2 afterBrace))
  refine (surveys_body upheld_extensionMember opening).bind
    fun (read, stop) faults rest _ ⟨last, body, closed⟩ => Surveys.known fun before _ => ?_
  have placed : Placed source (offset source lexemes) (offset source rest)
      ({ read with span := start.through stop } : Extension).outline :=
    body.enclose opened named.laid afterWord afterBrace closed
  refine Surveys.edition fun declared => ?_
  have checks : Checks stream _ _ _ _ _ := Extension.checks_faults declared placed.wellPlaced
  exact body.surveys_report before placed checks (by decide) (by decide)

end Parser

end ProtoSchema
