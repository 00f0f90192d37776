/-
This file says what resolving does to a tree, whether it was parsed or put
together in another way. Two trees are alike up to their references if they have
the same shape and the same parts but for the references, of which those in one
place are related. A tree and the resolved tree are alike in this way: each
reference that was undecided is decided, and one that was decided is kept, even if
a look at the names in the tree would decide it otherwise. As nothing is left to
decide, resolving once more changes nothing.
-/

import ProtoSchema.Proofs.Resolution.Fields
import ProtoSchema.Proofs.Resolution.Readings

namespace ProtoSchema

/-! ### Trees that are alike up to references -/

section

variable (related : TypeReference → TypeReference → Prop)

/-- Two types are the same scalar, or references that are related. -/
inductive ValueType.Alike : ValueType → ValueType → Prop
  | scalar (scalar : Scalar) (span : Span) : Alike (.scalar scalar span) (.scalar scalar span)
  | named {first second : TypeReference} :
    related first second → Alike (.named first) (.named second)

/-- Two types are alike at every depth of maps, with the same keys. -/
inductive FieldType.Alike : FieldType → FieldType → Prop
  | single {first second : ValueType} :
    first.Alike related second → Alike (.single first) (.single second)
  | map {key : Scalar} {keySpan span : Span} {first second : FieldType} :
    Alike first second →
    Alike (.map ⟨key, keySpan, first, span⟩) (.map ⟨key, keySpan, second, span⟩)

/-- Two fields differ at most in their types, which are alike. -/
structure Field.Alike (first second : Field) : Prop where
  type : first.type.Alike related second.type
  rest : second = { first with type := second.type }

/-- Two oneofs differ at most in the types of their fields. -/
structure Oneof.Alike (first second : Oneof) : Prop where
  fields : List.Forall₂ (Field.Alike related) first.fields second.fields
  rest : second = { first with fields := second.fields }

/-- Two extension blocks differ at most in the types of their fields. -/
structure Extension.Alike (first second : Extension) : Prop where
  fields : List.Forall₂ (Field.Alike related) first.fields second.fields
  rest : second = { first with fields := second.fields }

/-- Two messages differ at most in the types of fields, at every depth. -/
inductive Message.Alike : Message → Message → Prop
  | intro {first second : Message} :
    List.Forall₂ (Field.Alike related) first.fields second.fields →
    List.Forall₂ (Oneof.Alike related) first.oneofs second.oneofs →
    List.Forall₂ Alike first.messages second.messages →
    List.Forall₂ (Extension.Alike related) first.extensions second.extensions →
    second = { first with
      fields := second.fields
      oneofs := second.oneofs
      messages := second.messages
      extensions := second.extensions } →
    Alike first second

/-- Two files differ at most in the types of fields. -/
structure File.Alike (first second : File) : Prop where
  messages : List.Forall₂ (Message.Alike related) first.messages second.messages
  extensions : List.Forall₂ (Extension.Alike related) first.extensions second.extensions
  rest : second = { first with messages := second.messages, extensions := second.extensions }

end

/-! ### References -/

/-- The second reference is the first with its kind decided, if it was not. -/
structure TypeReference.Decided (before after : TypeReference) : Prop where
  name : after.name = before.name
  decided : after.kind ≠ .unresolved
  kept : before.kind ≠ .unresolved → after = before

/-- What a list relates to its image, entry by entry. -/
theorem forall₂_map_self {Entry : Type} {change : Entry → Entry} {relation : Entry → Entry → Prop}
    {entries : List Entry} (each : ∀ entry ∈ entries, relation entry (change entry)) :
    List.Forall₂ relation entries (entries.map change) :=
  List.forall₂_map_right_iff.mpr (List.forall₂_same.mpr each)

namespace SymbolTable

variable (table other : SymbolTable) (scopes otherScopes : List String)

/-- Whatever a name looks like, it is taken for a message or an enum. -/
theorem classify_ne_unresolved (name : TypeName) : table.classify scopes name ≠ .unresolved := by
  unfold classify
  split
  · have found (name : String) : table.get? name ≠ some .unresolved := by
      rcases table.get?_cases name with eq | eq | eq <;> simp [eq]
    have through (name : String) : table.getThrough? name ≠ some .unresolved := by
      unfold getThrough?
      dsimp only
      split
      · intro none
        cases none
      · rw [Option.bind_eq_bind, ne_eq, Option.bind_eq_some_iff]
        rintro ⟨message, -, kind⟩
        exact found _ kind
    unfold classifyQualified
    dsimp only
    cases direct : table.get? (table.relative name.path.text) with
    | some kind =>
      rintro rfl
      exact found _ direct
    | none =>
      cases indirect : table.getThrough? (table.relative name.path.text) with
      | some kind =>
        rintro rfl
        exact through _ indirect
      | none => exact ReferenceKind.noConfusion
  · unfold classifyBare
    split <;> exact ReferenceKind.noConfusion

theorem decided_resolveReference (reference : TypeReference) :
    reference.Decided (table.resolveReference scopes reference) := by
  refine ⟨table.name_resolveReference scopes reference, ?_, ?_⟩
  · unfold resolveReference
    split
    · exact table.classify_ne_unresolved scopes reference.name
    · next decided => exact decided
  · intro decided
    rw [resolveReference, if_neg decided]

/-! ### Resolving -/

theorem alike_resolveField (field : Field) :
    field.Alike TypeReference.Decided (table.resolveField scopes field) := by
  have value (reference : TypeReference) :
      (ValueType.named reference).Alike TypeReference.Decided
        (.named (table.resolveReference scopes reference)) :=
    .named (table.decided_resolveReference scopes reference)
  refine ⟨?_, rfl⟩
  unfold resolveField
  induction field.type with
  | scalar scalar span => exact .single (.scalar scalar span)
  | named reference => exact .single (value reference)
  | map key keySpan value span inductionHypothesis => exact .map inductionHypothesis

theorem alike_resolveOneof (oneof : Oneof) :
    oneof.Alike TypeReference.Decided (table.resolveOneof scopes oneof) :=
  ⟨forall₂_map_self fun field _ => table.alike_resolveField scopes field, rfl⟩

theorem alike_resolveExtension (extension : Extension) :
    extension.Alike TypeReference.Decided (table.resolveExtension scopes extension) :=
  ⟨forall₂_map_self fun field _ => table.alike_resolveField scopes field, rfl⟩

theorem alike_resolveMessage (message : Message) :
    message.Alike TypeReference.Decided (table.resolveMessage scopes message) := by
  induction message using Message.induction generalizing scopes with
  | step message inductionHypothesis =>
    rw [resolveMessage_eq]
    exact .intro (forall₂_map_self fun field _ => table.alike_resolveField _ field)
      (forall₂_map_self fun oneof _ => table.alike_resolveOneof _ oneof)
      (forall₂_map_self fun inner member => inductionHypothesis inner member _)
      (forall₂_map_self fun extension _ => table.alike_resolveExtension _ extension) rfl

/-! ### Resolving again -/

/-- A reference that was decided once is not decided again, whatever is known by then. -/
theorem resolveReference_twice (reference : TypeReference) :
    other.resolveReference otherScopes (table.resolveReference scopes reference) =
      table.resolveReference scopes reference :=
  (other.decided_resolveReference otherScopes _).kept
    (table.decided_resolveReference scopes reference).decided

theorem resolveField_twice (field : Field) :
    other.resolveField otherScopes (table.resolveField scopes field) =
      table.resolveField scopes field := by
  have type : (field.type.mapReference (table.resolveReference scopes)).mapReference
      (other.resolveReference otherScopes) =
        field.type.mapReference (table.resolveReference scopes) := by
    induction field.type with
    | scalar => rfl
    | named reference => simp only [FieldType.mapReference, table.resolveReference_twice other]
    | map key keySpan value span inductionHypothesis =>
      rw [FieldType.mapReference, FieldType.mapReference, inductionHypothesis]
  simp only [resolveField, type]

theorem resolveOneof_twice (oneof : Oneof) :
    other.resolveOneof otherScopes (table.resolveOneof scopes oneof) =
      table.resolveOneof scopes oneof := by
  simp [resolveOneof, Function.comp_def, table.resolveField_twice other]

theorem resolveExtension_twice (extension : Extension) :
    other.resolveExtension otherScopes (table.resolveExtension scopes extension) =
      table.resolveExtension scopes extension := by
  simp [resolveExtension, Function.comp_def, table.resolveField_twice other]

theorem resolveMessage_twice (message : Message) :
    other.resolveMessage otherScopes (table.resolveMessage scopes message) =
      table.resolveMessage scopes message := by
  induction message using Message.induction generalizing scopes otherScopes with
  | step message inductionHypothesis =>
    have inner (outer : List String) : message.messages.map (fun inner =>
        other.resolveMessage outer (table.resolveMessage (enter scopes message) inner)) =
        message.messages.map (table.resolveMessage (enter scopes message)) :=
      List.map_congr_left fun inner member => inductionHypothesis inner member _ _
    rw [table.resolveMessage_eq, other.resolveMessage_eq]
    simp [Function.comp_def, inner, table.resolveField_twice other,
      table.resolveOneof_twice other, table.resolveExtension_twice other]

end SymbolTable

/-! ### Files -/

namespace File

/-- The references in the fields of a resolved file are decided. -/
theorem HasField.decided {file : File} {context : FieldContext} {field : Field}
    (found : file.resolve.HasField context field) {reference : TypeReference}
    (written : field.type.reference? = some reference) : reference.kind ≠ .unresolved := by
  obtain ⟨scopes, original, -, rfl⟩ := found.exists_of_resolve
  rw [SymbolTable.resolveField, FieldType.reference?_mapReference] at written
  obtain ⟨before, -, rfl⟩ := Option.map_eq_some_iff.mp written
  exact (SymbolTable.decided_resolveReference _ scopes before).decided

theorem alike_resolve (file : File) : file.Alike TypeReference.Decided file.resolve := by
  refine ⟨?_, forall₂_map_self fun extension _ => SymbolTable.alike_resolveExtension _ _ extension,
    rfl⟩
  rw [resolve, SymbolTable.resolveMessages_eq]
  exact forall₂_map_self fun message _ => SymbolTable.alike_resolveMessage _ _ message

theorem resolve_resolve (file : File) : file.resolve.resolve = file.resolve := by
  have messages (other : SymbolTable) :
      other.resolveMessages [] file.resolve.messages = file.resolve.messages := by
    rw [resolve, SymbolTable.resolveMessages_eq, SymbolTable.resolveMessages_eq, List.map_map]
    exact List.map_congr_left fun message _ => SymbolTable.resolveMessage_twice _ other [] [] message
  have extensions (other : SymbolTable) :
      file.resolve.extensions.map (other.resolveExtension []) = file.resolve.extensions := by
    rw [resolve, List.map_map]
    exact List.map_congr_left fun extension _ =>
      SymbolTable.resolveExtension_twice _ other [] [] extension
  rw [resolve.eq_def file.resolve]
  simp only [messages, extensions]

/-- Resolving decides each reference of a tree, in whatever field it stands; it changes nothing in
the tree but references that were undecided, and of those only the kind; and what was resolved stays
as it is when it is resolved again. -/
theorem resolving_decides (file : File) :
    (∀ context field, file.resolve.HasField context field →
      ∀ reference, field.type.reference? = some reference → reference.kind ≠ .unresolved) ∧
    file.Alike TypeReference.Decided file.resolve ∧
    file.resolve.resolve = file.resolve :=
  ⟨fun _ _ found _ written => found.decided written, file.alike_resolve, file.resolve_resolve⟩

/-- In a tree that no source spells, an extension block may hold a map, and its values may be maps. -/
theorem resolving_decides_sample :
    let name : Name := ⟨"E", .point 0⟩
    let inner : FieldType := .single (.named ⟨⟨none, ⟨[name]⟩⟩, .unresolved⟩)
    let type : FieldType :=
      .map ⟨.string, .point 0, .map ⟨.int32, .point 0, inner, .point 0⟩, .point 0⟩
    let field : Field :=
      ⟨.singular, none, type, name, ⟨false, 1, .point 0⟩, [], none, Comments.none, .point 0⟩
    let extension : Extension :=
      ⟨⟨none, ⟨[name]⟩⟩, [field], [], none, false, Comments.none, .point 0⟩
    let file : File :=
      { extensions := [extension]
        enums := [⟨name, [], [], [], false, Comments.none, .point 0⟩] }
    ∃ resolved reference, file.resolve.HasField .extension resolved ∧
      resolved.type.reference? = some reference ∧ reference.kind = .enumeration ∧
      reference.kind ≠ .unresolved := by
  intro name inner type field extension file
  have found : file.resolve.HasField .extension
      ((SymbolTable.ofFile file).resolveField [] field) :=
    .extension .top List.mem_cons_self List.mem_cons_self
  have written : ((SymbolTable.ofFile file).resolveField [] field).type.reference? =
      some ⟨⟨none, ⟨[name]⟩⟩, .enumeration⟩ := by decide +kernel
  exact ⟨_, _, found, written, rfl, file.resolving_decides.1 _ _ found _ written⟩

end File

end ProtoSchema
