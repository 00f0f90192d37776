/-
This file goes through all fields of a file, those written directly in a message,
the members of oneofs and those of extension blocks, each at the place where it
stands. Resolving decides references and changes nothing else in a field, so the
rule for fields holds of a resolved file if it holds of the file.
-/

import ProtoSchema.Proofs.Canonical.Messages
import ProtoSchema.Proofs.Resolution.Places
import ProtoSchema.Proofs.Validation.FieldRules
import ProtoSchema.Proofs.Validation.Legality

namespace ProtoSchema

namespace File

variable {file : File} {around : List Message} {context : FieldContext} {field : Field}

/-- The extension blocks directly in the innermost of the given messages, or else at the top. -/
def extensionsAt (file : File) : List Message → List Extension
  | [] => file.extensions
  | parent :: _ => parent.extensions

/-- The field stands somewhere in the file, at a place of the given kind. -/
inductive HasField (file : File) : FieldContext → Field → Prop
  | direct {around : List Message} {message : Message} {field : Field} :
    file.Place around → message ∈ file.messagesAt around → field ∈ message.fields →
    HasField file .message field
  | member {around : List Message} {message : Message} {index : Nat} {oneof : Oneof}
      {field : Field} :
    file.Place around → message ∈ file.messagesAt around → message.oneofs[index]? = some oneof →
    field ∈ oneof.fields → HasField file (.oneof index) field
  | extension {around : List Message} {extension : Extension} {field : Field} :
    file.Place around → extension ∈ file.extensionsAt around → field ∈ extension.fields →
    HasField file .extension field

/-! ### Resolving -/

theorem extensionsAt_resolve (file : File) (around : List Message) :
    file.resolve.extensionsAt ((SymbolTable.ofFile file).resolveAround around) =
      (file.extensionsAt around).map
        ((SymbolTable.ofFile file).resolveExtension (scopesOf around)) := by
  cases around with
  | nil => rfl
  | cons parent around =>
    rw [SymbolTable.resolveAround, extensionsAt, SymbolTable.resolveMessage_eq]
    rfl

/-- The fields of a resolved file are those of the file, with their references resolved. -/
theorem HasField.exists_of_resolve (found : file.resolve.HasField context field) :
    ∃ scopes original, file.HasField context original ∧
      field = (SymbolTable.ofFile file).resolveField scopes original := by
  cases found with
  | direct place messageMember fieldMember =>
    obtain ⟨around, originalPlace, rfl⟩ := place.exists_of_resolve
    rw [messagesAt_resolve] at messageMember
    obtain ⟨message, member, rfl⟩ := List.mem_map.mp messageMember
    rw [SymbolTable.resolveMessage_eq] at fieldMember
    obtain ⟨original, originalMember, rfl⟩ := List.mem_map.mp fieldMember
    exact ⟨_, original, .direct originalPlace member originalMember, rfl⟩
  | @member _ _ index _ _ place messageMember oneofFound fieldMember =>
    obtain ⟨around, originalPlace, rfl⟩ := place.exists_of_resolve
    rw [messagesAt_resolve] at messageMember
    obtain ⟨message, member, rfl⟩ := List.mem_map.mp messageMember
    rw [SymbolTable.resolveMessage_eq, List.getElem?_map] at oneofFound
    obtain ⟨oneof, originalFound, rfl⟩ := Option.map_eq_some_iff.mp oneofFound
    obtain ⟨original, originalMember, rfl⟩ := List.mem_map.mp fieldMember
    exact ⟨_, original, .member originalPlace member originalFound originalMember, rfl⟩
  | extension place extensionMember fieldMember =>
    obtain ⟨around, originalPlace, rfl⟩ := place.exists_of_resolve
    rw [extensionsAt_resolve] at extensionMember
    obtain ⟨extension, member, rfl⟩ := List.mem_map.mp extensionMember
    obtain ⟨original, originalMember, rfl⟩ := List.mem_map.mp fieldMember
    exact ⟨_, original, .extension originalPlace member originalMember, rfl⟩

end File

/-- A map whose reference was resolved was a map before, of the same keys, and of maps if it is. -/
theorem FieldType.exists_map_of_mapReference {change : TypeReference → TypeReference}
    {type : FieldType} {resolved : MapType} (eq : type.mapReference change = .map resolved) :
    ∃ original, type = .map original ∧ original.key = resolved.key ∧
      original.value.isMap = resolved.value.isMap := by
  induction type with
  | scalar | named => cases eq
  | map key keySpan value span =>
    cases eq
    exact ⟨_, rfl, rfl, (value.isMap_mapReference change).symm⟩

/-- Resolving changes nothing that the rule for fields is about. -/
theorem SymbolTable.legal_resolveField (table : SymbolTable) (scopes : List String)
    {edition : Option Edition} {context : FieldContext} {field : Field}
    (legal : field.Legal edition context) :
    (table.resolveField scopes field).Legal edition context where
  number := legal.number
  map := by
    intro type eq
    obtain ⟨original, originalEq, key, value⟩ := FieldType.exists_map_of_mapReference eq
    have map := legal.map original originalEq
    exact
      { direct := map.direct
        singular := map.singular
        unlabelled := map.unlabelled
        key := key ▸ map.key
        value := value ▸ map.value }
  notRequired := legal.notRequired
  noDefault := legal.noDefault

/-! ### Well-formed files -/

namespace File

variable {file : File} {around : List Message} {context : FieldContext} {field : Field}

/-- In a well-formed file the members of every message are well formed. -/
theorem WellFormed.membersAt (wellFormed : file.WellFormed) (place : file.Place around)
    {message : Message} (member : message ∈ file.messagesAt around) :
    ∃ nested path, message.Members file.declaredEdition nested path ∧ message.faults = [] := by
  obtain ⟨depth, path, messageWellFormed⟩ := wellFormed.messageAt place message member
  cases depth with
  | zero => cases messageWellFormed
  | succ depth => exact ⟨_, path, messageWellFormed.2⟩

theorem WellFormed.extensionAt (wellFormed : file.WellFormed) (place : file.Place around)
    {extension : Extension} (member : extension ∈ file.extensionsAt around) :
    ∃ parent, extension.WellFormed file.declaredEdition parent := by
  cases place with
  | top => exact ⟨none, wellFormed.members.extensions extension member⟩
  | @inside parent _ outer parentMember =>
    obtain ⟨nested, path, members, -⟩ := wellFormed.membersAt outer parentMember
    exact ⟨some path, members.extensions extension member⟩

/-- In a well-formed file every field keeps the rule. What the parser leaves to the declaration
around the field is found there: a message checks the labels of its maps, and oneofs and extension
blocks have no maps. -/
theorem WellFormed.legal_field (wellFormed : file.WellFormed) (found : file.HasField context field) :
    field.Legal file.declaredEdition context := by
  cases found with
  | direct place messageMember fieldMember =>
    obtain ⟨nested, path, members, sound⟩ := wellFormed.membersAt place messageMember
    have valid := (Message.faults_eq_nil_iff members.placed members.validOneofs).mp sound
    have rule := members.placed.legal_iff.mpr ⟨valid, members.validOneofs⟩
    exact (members.fields field fieldMember).legal
      { direct := fun _ => rfl
        unlabelled := rule.mapLabels field fieldMember }
  | @member _ _ index oneof _ place messageMember oneofFound fieldMember =>
    obtain ⟨nested, path, members, -⟩ := wellFormed.membersAt place messageMember
    have oneofWellFormed := members.oneofs index oneof oneofFound
    have valid := oneof.faults_eq_nil_iff.mp oneofWellFormed.sound
    have noMap := valid.noMaps field fieldMember
    exact (oneofWellFormed.members.fields field fieldMember).legal
      { direct := fun isMap => absurd (noMap.symm.trans isMap) Bool.false_ne_true
        unlabelled := fun _ => valid.unlabelled field fieldMember }
  | @extension _ extension _ place extensionMember fieldMember =>
    obtain ⟨parent, extensionWellFormed⟩ := wellFormed.extensionAt place extensionMember
    have valid := (extension.faults_eq_nil_iff _).mp extensionWellFormed.sound
    have noMap := valid.noMaps field fieldMember
    exact (extensionWellFormed.members.fields field fieldMember).legal
      { direct := fun isMap => absurd (noMap.symm.trans isMap) Bool.false_ne_true
        unlabelled := fun isMap => absurd (noMap.symm.trans isMap) Bool.false_ne_true }

theorem WellFormed.legal_field_resolve (wellFormed : file.WellFormed)
    (found : file.resolve.HasField context field) :
    field.Legal file.resolve.declaredEdition context := by
  obtain ⟨scopes, original, originalFound, rfl⟩ := found.exists_of_resolve
  exact SymbolTable.legal_resolveField _ _ (wellFormed.legal_field originalFound)

/-- In a well-formed file of the newer edition only the messages that hold options are extended. -/
theorem WellFormed.extendee_mem (wellFormed : file.WellFormed)
    (newer : file.declaredEdition = some .proto3) (place : file.Place around)
    {extension : Extension} (member : extension ∈ file.extensionsAt around) :
    extension.extendee.path.text ∈ optionMessages := by
  obtain ⟨parent, extensionWellFormed⟩ := wellFormed.extensionAt place member
  have valid := (extension.faults_eq_nil_iff _).mp extensionWellFormed.sound
  have known := valid.extendee newer
  rw [extensionWellFormed.members.extendsOptions, TypeName.namesOptions, decide_eq_true_eq] at known
  exact known

theorem WellFormed.extendee_mem_resolve (wellFormed : file.WellFormed)
    (newer : file.resolve.declaredEdition = some .proto3) (place : file.resolve.Place around)
    {extension : Extension} (member : extension ∈ file.resolve.extensionsAt around) :
    extension.extendee.path.text ∈ optionMessages := by
  obtain ⟨around, originalPlace, rfl⟩ := place.exists_of_resolve
  rw [extensionsAt_resolve] at member
  obtain ⟨original, originalMember, rfl⟩ := List.mem_map.mp member
  have known := wellFormed.extendee_mem newer originalPlace originalMember
  exact known

end File

end ProtoSchema
