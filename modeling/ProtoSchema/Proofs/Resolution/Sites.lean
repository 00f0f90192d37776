/-
This file lists the references of a file with the messages that they stand in,
as parts of the tree, in the order in which references are listed by name.
Resolving keeps this order, and at each site it looks in the scopes of the
messages around that site. In a well-formed file every site is a place of the
file and its reference is undecided.
-/

import Mathlib.Data.List.Forall2
import ProtoSchema.Proofs.Resolution.Scopes
import ProtoSchema.Tree.References

namespace ProtoSchema

/-- A reference to a type where it stands. -/
structure Site where
  /-- The messages around the field, or around the extension block it is in, the innermost
  first. -/
  around : List Message
  field : String
  type : TypeReference

namespace Site

/-- The sites of fields whose types have a reference. -/
def ofFields (around : List Message) (fields : List Field) : List Site :=
  fields.filterMap fun field => field.type.reference?.map fun type => ⟨around, field.name.text, type⟩

/-- The sites of extension blocks declared in the same message. -/
def ofExtensions (around : List Message) (extensions : List Extension) : List Site :=
  extensions.flatMap fun extension => ofFields around extension.fields

mutual

/-- The fields of a message, those of the messages in it, then those of its extension blocks. -/
def ofMessage (around : List Message) : Message → List Site
  | message@⟨_, fields, oneofs, messages, _, extensions, _, _, _, _, _⟩ =>
    ofFields (message :: around) (fields ++ oneofs.flatMap Oneof.fields) ++
      ofMessages (message :: around) messages ++ ofExtensions (message :: around) extensions

/-- The sites of messages, one after the other. -/
def ofMessages (around : List Message) : List Message → List Site
  | [] => []
  | message :: rest => ofMessage around message ++ ofMessages around rest

end

theorem ofMessages_eq (around : List Message) (messages : List Message) :
    ofMessages around messages = messages.flatMap (ofMessage around) := by
  induction messages with
  | nil => rfl
  | cons message rest inductionHypothesis =>
    rw [ofMessages, inductionHypothesis, List.flatMap_cons]

theorem ofMessage_eq (around : List Message) (message : Message) :
    ofMessage around message =
      ofFields (message :: around) (message.fields ++ message.oneofs.flatMap Oneof.fields) ++
        message.messages.flatMap (ofMessage (message :: around)) ++
        ofExtensions (message :: around) message.extensions := by
  cases message
  rw [ofMessage, ofMessages_eq]

end Site

/-- Every site in a file, those in messages first. -/
def File.sites (file : File) : List Site :=
  file.messages.flatMap (Site.ofMessage []) ++ Site.ofExtensions [] file.extensions

/-! ### The references of a file -/

namespace FieldReference

theorem ofMessages_eq (scope : List String) (messages : List Message) :
    ofMessages scope messages = messages.flatMap (ofMessage scope) := by
  induction messages with
  | nil => rfl
  | cons message rest inductionHypothesis =>
    rw [ofMessages, inductionHypothesis, List.flatMap_cons]

theorem ofMessage_eq (scope : List String) (message : Message) :
    ofMessage scope message =
      ofFields (scope ++ [message.name.text])
          (message.fields ++ message.oneofs.flatMap Oneof.fields) ++
        message.messages.flatMap (ofMessage (scope ++ [message.name.text])) ++
        ofExtensions (scope ++ [message.name.text]) message.extensions := by
  cases message
  rw [ofMessage, ofMessages_eq]

/-- The field and the reference, without the place. -/
def entry (reference : FieldReference) : String × TypeReference :=
  (reference.field, reference.type)

end FieldReference

namespace Site

/-- The field and the reference, without the place. -/
def entry (site : Site) : String × TypeReference := (site.field, site.type)

theorem entries_ofFields (scope : List String) (around : List Message) (fields : List Field) :
    (FieldReference.ofFields scope fields).map FieldReference.entry =
      (ofFields around fields).map entry := by
  simp only [FieldReference.ofFields, ofFields, List.map_filterMap, Option.map_map]
  rfl

theorem entries_ofExtensions (scope : List String) (around : List Message)
    (extensions : List Extension) :
    (FieldReference.ofExtensions scope extensions).map FieldReference.entry =
      (ofExtensions around extensions).map entry := by
  simp only [FieldReference.ofExtensions, ofExtensions, List.map_flatMap,
    entries_ofFields _ around]

theorem entries_ofMessage (message : Message) (scope : List String) (around : List Message) :
    (FieldReference.ofMessage scope message).map FieldReference.entry =
      (ofMessage around message).map entry := by
  induction message using Message.induction generalizing scope around with
  | step message inductionHypothesis =>
    have inner : message.messages.flatMap (fun inner =>
        (FieldReference.ofMessage (scope ++ [message.name.text]) inner).map
          FieldReference.entry) =
        message.messages.flatMap fun inner => (ofMessage (message :: around) inner).map entry :=
      List.flatMap_congr fun inner member => inductionHypothesis inner member _ _
    rw [FieldReference.ofMessage_eq, ofMessage_eq]
    simp only [List.map_append, List.map_flatMap, entries_ofFields _ (message :: around),
      entries_ofExtensions _ (message :: around), inner]

end Site

/-- The sites of a file are those of its references, in the same order. -/
theorem File.entries_references (file : File) :
    file.references.map FieldReference.entry = file.sites.map Site.entry := by
  rw [references, sites, FieldReference.ofMessages_eq]
  simp only [List.map_append, List.map_flatMap, Site.entries_ofExtensions _ [],
    Site.entries_ofMessage _ _ []]

/-! ### Resolving -/

theorem FieldType.reference?_mapReference (change : TypeReference → TypeReference)
    (type : FieldType) : (type.mapReference change).reference? = type.reference?.map change := by
  induction type with
  | scalar | named => rfl
  | map key keySpan value span inductionHypothesis => exact inductionHypothesis

namespace Site

variable (table : SymbolTable)

/-- The field, and the reference resolved in the scopes of the site. -/
def resolvedEntry (site : Site) : String × TypeReference :=
  (site.field, table.resolveReference (scopesOf site.around) site.type)

theorem entries_resolveField (around others : List Message) (fields : List Field) :
    (ofFields others (fields.map (table.resolveField (scopesOf around)))).map entry =
      (ofFields around fields).map (resolvedEntry table) := by
  simp only [ofFields, List.map_filterMap, List.filterMap_map]
  congr 1
  funext field
  simp [SymbolTable.resolveField, FieldType.reference?_mapReference, Function.comp_def,
    entry, resolvedEntry]

theorem entries_resolveExtension (around others : List Message) (extensions : List Extension) :
    (ofExtensions others (extensions.map (table.resolveExtension (scopesOf around)))).map
        entry =
      (ofExtensions around extensions).map (resolvedEntry table) := by
  simp only [ofExtensions, List.map_flatMap, List.flatMap_map, SymbolTable.resolveExtension,
    entries_resolveField]

/-- At each site of a resolved message, the scopes that were looked in are those of the messages
around the site. -/
theorem entries_resolveMessage (message : Message) (around others : List Message) :
    (ofMessage others (table.resolveMessage (scopesOf around) message)).map entry =
      (ofMessage around message).map (resolvedEntry table) := by
  induction message using Message.induction generalizing around others with
  | step message inductionHypothesis =>
    have inner (others : List Message) : message.messages.flatMap (fun inner =>
        (ofMessage others (table.resolveMessage (scopesOf (message :: around)) inner)).map
          entry) =
        message.messages.flatMap fun inner =>
          (ofMessage (message :: around) inner).map (resolvedEntry table) :=
      List.flatMap_congr fun inner member => inductionHypothesis inner member _ _
    have members (others : List Message) : (ofFields others
        (message.fields.map (table.resolveField (scopesOf (message :: around))) ++
          message.oneofs.flatMap fun oneof =>
            (table.resolveOneof (scopesOf (message :: around)) oneof).fields)).map entry =
        (ofFields (message :: around)
          (message.fields ++ message.oneofs.flatMap Oneof.fields)).map (resolvedEntry table) := by
      rw [← entries_resolveField table _ others, List.map_append, List.map_flatMap]
      rfl
    have scopes : SymbolTable.enter (scopesOf around) message = scopesOf (message :: around) := rfl
    rw [SymbolTable.resolveMessage_eq, ofMessage_eq, ofMessage_eq, scopes]
    simp only [List.map_append, List.map_flatMap, List.flatMap_map, members, inner,
      entries_resolveExtension]

end Site

/-- A resolved file has the sites of the file, with each reference resolved in the scopes of its
site. -/
theorem File.entries_resolve (file : File) :
    file.resolve.sites.map Site.entry =
      file.sites.map (Site.resolvedEntry (.ofFile file)) := by
  have top : [] = scopesOf [] := rfl
  rw [sites, sites, resolve, SymbolTable.resolveMessages_eq, top]
  simp only [List.map_append, List.map_flatMap, List.flatMap_map, Site.entries_resolveMessage,
    Site.entries_resolveExtension]

/-! ### Sites of well-formed files -/

theorem FieldType.WellFormed.reference {type : FieldType} (wellFormed : type.WellFormed)
    {reference : TypeReference} (found : type.reference? = some reference) :
    reference.WellFormed := by
  have value : type.valueType.WellFormed := by
    match type with
    | .single type => exact wellFormed
    | .map ⟨_, _, _, _⟩ => exact wellFormed.2.2
  rw [FieldType.reference?] at found
  split at found
  · next other eq =>
    rw [eq] at value
    obtain rfl := Option.some.inj found
    exact value
  · cases found

namespace Site

/-- The site is a place of the file, and its reference is well formed and so undecided. -/
structure WellFormed (file : File) (site : Site) : Prop where
  place : file.Place site.around
  type : site.type.WellFormed

variable {file : File} {around : List Message}

theorem wellFormed_ofFields (place : file.Place around) {fields : List Field}
    (wellFormed : ∀ field ∈ fields, field.type.WellFormed) :
    ∀ site ∈ ofFields around fields, site.WellFormed file := by
  intro site member
  obtain ⟨field, fieldMember, eq⟩ := List.mem_filterMap.mp member
  obtain ⟨reference, found, rfl⟩ := Option.map_eq_some_iff.mp eq
  exact ⟨place, (wellFormed field fieldMember).reference found⟩

theorem wellFormed_ofExtensions (place : file.Place around) {edition : Option Edition}
    {parent : Option MessagePath} {extensions : List Extension}
    (wellFormed : ∀ extension ∈ extensions, extension.WellFormed edition parent) :
    ∀ site ∈ ofExtensions around extensions, site.WellFormed file := by
  intro site member
  obtain ⟨extension, extensionMember, member⟩ := List.mem_flatMap.mp member
  have fields := (wellFormed extension extensionMember).members.fields
  exact wellFormed_ofFields place (fun field member => (fields field member).type) site member

theorem wellFormed_ofMessage {depth : Nat} {path : MessagePath} {message : Message}
    (wellFormed : message.WellFormed file.declaredEdition depth path) (place : file.Place around)
    (member : message ∈ file.messagesAt around) :
    ∀ site ∈ ofMessage around message, site.WellFormed file := by
  induction depth generalizing path message around with
  | zero => cases wellFormed
  | succ depth inductionHypothesis =>
    obtain ⟨-, members, -⟩ := wellFormed
    have inside := place.inside member
    intro site siteMember
    rw [ofMessage_eq, List.mem_append, List.mem_append] at siteMember
    rcases siteMember with (siteMember | siteMember) | siteMember
    · refine wellFormed_ofFields inside (fun field fieldMember => ?_) site siteMember
      rw [List.mem_append, List.mem_flatMap] at fieldMember
      rcases fieldMember with fieldMember | ⟨oneof, oneofMember, fieldMember⟩
      · exact (members.fields field fieldMember).type
      · obtain ⟨index, found⟩ := List.mem_iff_getElem?.mp oneofMember
        exact ((members.oneofs index oneof found).members.fields field fieldMember).type
    · obtain ⟨inner, innerMember, siteMember⟩ := List.mem_flatMap.mp siteMember
      obtain ⟨index, found⟩ := List.mem_iff_getElem?.mp innerMember
      exact inductionHypothesis (members.messages index inner found) inside innerMember site
        siteMember
    · exact wellFormed_ofExtensions inside members.extensions site siteMember

end Site

theorem File.WellFormed.sites {file : File} (wellFormed : file.WellFormed) :
    ∀ site ∈ file.sites, site.WellFormed file := by
  intro site member
  rw [File.sites, List.mem_append, List.mem_flatMap] at member
  rcases member with ⟨message, messageMember, member⟩ | member
  · obtain ⟨index, found⟩ := List.mem_iff_getElem?.mp messageMember
    exact Site.wellFormed_ofMessage (wellFormed.members.messages index message found) .top
      messageMember site member
  · exact Site.wellFormed_ofExtensions .top wellFormed.members.extensions site member

/-- What a site of a file is resolved to. A bare name is that of an enum exactly if an enum of that
name can be seen from the site, and otherwise that of a message. -/
structure Site.ResolvedIn (file : File) (site resolved : Site) : Prop where
  field : resolved.field = site.field
  name : resolved.type.name = site.type.name
  enumeration : ∀ name : Name, site.type.name = ⟨none, ⟨[name]⟩⟩ →
    (resolved.type.kind = .enumeration ↔ file.SeesEnum site.around name.text)
  message : ∀ name : Name, site.type.name = ⟨none, ⟨[name]⟩⟩ →
    (resolved.type.kind = .message ↔ ¬ file.SeesEnum site.around name.text)

namespace File

variable {file : File}

/-- A bare name is looked up among the enums that can be seen from its site. -/
theorem WellFormed.kind_resolveReference (wellFormed : file.WellFormed) {site : Site}
    (member : site ∈ file.sites) {name : Name} (bare : site.type.name = ⟨none, ⟨[name]⟩⟩) :
    ((SymbolTable.ofFile file).resolveReference (scopesOf site.around) site.type).kind =
        (SymbolTable.ofFile file).classifyBare (scopesOf site.around) name.text ∧
      ((SymbolTable.ofFile file).classifyBare (scopesOf site.around) name.text = .enumeration ↔
        file.SeesEnum site.around name.text) := by
  obtain ⟨place, type⟩ := wellFormed.sites site member
  have identifier : isIdentifier name.text = true := by
    have parts := type.name.parts
    rw [bare] at parts
    exact parts name List.mem_cons_self
  refine ⟨?_, wellFormed.classifyBare_eq_iff place identifier⟩
  have unqualified : (⟨none, ⟨[name]⟩⟩ : TypeName).isQualified = false := rfl
  have text : (⟨[name]⟩ : DottedName).text = name.text := by
    simp [DottedName.text]
  rw [SymbolTable.resolveReference, if_pos type.undecided, bare, SymbolTable.classify,
    unqualified, if_neg Bool.false_ne_true, text]

/-- Resolving a well-formed file decides its sites one by one by the enums that can be seen. -/
theorem WellFormed.resolved_sites (wellFormed : file.WellFormed) :
    List.Forall₂ (Site.ResolvedIn file) file.sites file.resolve.sites := by
  have entries := file.entries_resolve.symm
  rw [← List.forall₂_eq_eq_eq, List.forall₂_map_left_iff, List.forall₂_map_right_iff] at entries
  have members := (List.forall₂_and_left file.sites _).mpr ⟨fun site member => member, entries⟩
  refine members.imp fun site resolved ⟨member, same⟩ => ?_
  obtain ⟨field, type⟩ := Prod.mk.inj same
  refine ⟨field.symm, ?_, fun name bare => ?_, fun name bare => ?_⟩
  · rw [← type, SymbolTable.name_resolveReference]
  · obtain ⟨kind, seen⟩ := wellFormed.kind_resolveReference member bare
    rw [← type, kind]
    exact seen
  · obtain ⟨kind, seen⟩ := wellFormed.kind_resolveReference member bare
    rw [← type, kind, SymbolTable.classifyBare_eq_message_iff]
    exact not_congr seen

end File

end ProtoSchema
