/-
This file says what holds of every message in an accepted file, at whatever depth
it is nested, and of every field, wherever it stands: the rule for messages and the
rule for fields. The checks that the grammar makes of each message find nothing just
in case the rule is kept, and resolving changes nothing that the rules are about.
The samples are messages with several fields, which are sorted; they are evaluated
with equations that stand all over the library.
-/

import Mathlib
import ProtoSchema.Proofs.Canonical.Messages
import ProtoSchema.Proofs.Frontend.Accepted
import ProtoSchema.Proofs.Resolution.Fields
import ProtoSchema.Proofs.Resolution.Places
import ProtoSchema.Proofs.Validation.Legality

namespace ProtoSchema

namespace SymbolTable

variable (table : SymbolTable) (scopes : List String)

theorem isMap_resolveField (field : Field) :
    (table.resolveField scopes field).type.isMap = field.type.isMap :=
  field.type.isMap_mapReference _

theorem allFields_resolveMessage (message : Message) :
    (table.resolveMessage scopes message).allFields =
      message.allFields.map (table.resolveField (enter scopes message)) := by
  rw [resolveMessage_eq, Message.allFields, Message.allFields, List.map_append, List.map_flatMap,
    List.flatMap_map]
  rfl

theorem numbersOf_resolveField (fields : List Field) :
    numbersOf (fields.map (table.resolveField scopes)) = numbersOf fields := by
  rw [numbersOf, numbersOf, List.filter_map, List.map_map]
  rfl

/-- Resolving changes nothing that the rule for messages is about. -/
theorem legal_resolveMessage (message : Message) :
    (table.resolveMessage scopes message).Legal ↔ message.Legal := by
  have nested : (message.messages.map (table.resolveMessage (enter scopes message))).map
      (·.name.text) = message.messages.map (·.name.text) := by
    rw [List.map_map]
    exact List.map_congr_left fun inner _ => by
      rw [Function.comp_apply, name_resolveMessage]
  have names (fields : List Field) : (fields.map (table.resolveField (enter scopes message))).map
      (·.name.text) = fields.map (·.name.text) := by
    rw [List.map_map]
    rfl
  have oneofs (oneof : Oneof) :
      (table.resolveOneof (enter scopes message) oneof).Legal ↔ oneof.Legal := by
    simp only [Oneof.legal_iff, resolveOneof, List.forall_mem_map, isMap_resolveField, ne_eq,
      List.map_eq_nil_iff]
    rfl
  simp only [Message.legal_iff, allFields_resolveMessage, names, numbersOf_resolveField,
    List.forall_mem_map]
  simp only [resolveMessage_eq, nested, List.forall_mem_map, isMap_resolveField, oneofs]
  rfl

end SymbolTable

namespace File

variable {file : File} {around : List Message}

/-- In a well-formed file every message keeps the rule. -/
theorem WellFormed.legal_messageAt (wellFormed : file.WellFormed) (place : file.Place around) :
    ∀ message ∈ file.messagesAt around, message.Legal := by
  intro message member
  obtain ⟨depth, path, messageWellFormed⟩ := wellFormed.messageAt place message member
  cases depth with
  | zero => cases messageWellFormed
  | succ depth =>
    obtain ⟨-, members, sound⟩ := messageWellFormed
    have oneofs := members.validOneofs
    have valid := (Message.faults_eq_nil_iff members.placed oneofs).mp sound
    exact members.placed.legal_iff.mpr ⟨valid, oneofs⟩

theorem WellFormed.legal_resolve (wellFormed : file.WellFormed) {resolved : List Message}
    (place : file.resolve.Place resolved) :
    ∀ message ∈ file.resolve.messagesAt resolved, message.Legal := by
  obtain ⟨around, originalPlace, rfl⟩ := place.exists_of_resolve
  rw [messagesAt_resolve, List.forall_mem_map]
  intro message member
  rw [SymbolTable.legal_resolveMessage]
  exact wellFormed.legal_messageAt originalPlace message member

end File

/-- Every message of an accepted file, at whatever depth, keeps the rule. -/
theorem ParseOptions.legal_messages {options : ParseOptions} {source : String} {file : File}
    (accepted : options.parse source = .ok file) {around : List Message}
    (place : file.Place around) : ∀ message ∈ file.messagesAt around, message.Legal := by
  obtain ⟨parsed, wellFormed, rfl⟩ := ParseOptions.wellFormed_of_parse accepted
  rw [ParseOptions.finish] at place ⊢
  split at place
  · next resolves =>
    rw [if_pos resolves]
    exact wellFormed.legal_resolve place
  · next unresolved =>
    rw [if_neg unresolved]
    exact wellFormed.legal_messageAt place

/-- The checks of a message as the grammar builds it, with those of its oneofs, find nothing just in
case the rule for messages is kept; so every message in an accepted file keeps it. -/
theorem message_checks_exact :
    (∀ message : Message, message.Placed →
      ((message.faults = [] ∧ ∀ oneof ∈ message.oneofs, oneof.faults = []) ↔ message.Legal)) ∧
    ∀ (options : ParseOptions) (source : String) (file : File), options.parse source = .ok file →
      ∀ around, file.Place around → ∀ message ∈ file.messagesAt around, message.Legal := by
  refine ⟨fun message placed => placed.faults_eq_nil_iff_legal, ?_⟩
  intro options source file accepted around place
  exact ParseOptions.legal_messages accepted place

/-- A message with two oneofs whose members have names of their own but share a number. -/
def sharedNumber : Message :=
  let member (name : String) (index : Nat) : Field :=
    ⟨.singular, none, .single (.scalar .int32 (.point 0)), ⟨name, .point 0⟩,
      ⟨false, 1, .point 0⟩, [], some index, .none, .point 0⟩
  let oneof (name : String) (field : Field) : Oneof :=
    ⟨⟨name, .point 0⟩, [field], [], .none, .point 0⟩
  ⟨⟨"M", .point 0⟩, [], [oneof "o" (member "a" 0), oneof "p" (member "b" 1)], [], [], [], [], [],
    [], .none, .point 0⟩

/-- Neither oneof can tell that a number is shared between them, but the message can; and a message
inside another may reserve what the outer one uses. -/
theorem message_checks_exact_sample :
    (sharedNumber.Placed ∧ sharedNumber.oneofs.flatMap Oneof.faults = [] ∧
      sharedNumber.faults ≠ [] ∧ ¬ sharedNumber.Legal) ∧
    ∃ file : File,
      parse "message M { message N { reserved 1, 4 to max; oneof o { M a = 2; } } N a = 1; }" =
        .ok file ∧
      ∃ around, file.Place around ∧ (file.messagesAt around).map (·.name.text) = ["N"] ∧
        ∀ message ∈ file.messagesAt around, message.Legal := by
  refine ⟨?_, ?_⟩
  · have placed : sharedNumber.Placed := by
      refine ⟨fun field member => absurd member List.not_mem_nil, ?_⟩
      intro index oneof found field member
      rcases index with _ | _ | index
      · obtain rfl := Option.some.inj found
        rw [List.mem_singleton.mp member]
      · obtain rfl := Option.some.inj found
        rw [List.mem_singleton.mp member]
      · cases found
    have oneofs : ∀ oneof ∈ sharedNumber.oneofs, oneof.faults = [] := by decide +kernel
    have illegal : ¬ sharedNumber.Legal := fun legal =>
      absurd legal.fieldNumbers (by decide +kernel)
    refine ⟨placed, List.flatMap_eq_nil_iff.mpr oneofs, fun none => illegal ?_, illegal⟩
    exact (message_checks_exact.1 sharedNumber placed).mp ⟨none, oneofs⟩
  · obtain ⟨file, accepted, checked⟩ := exists_of_check
      (parse "message M { message N { reserved 1, 4 to max; oneof o { M a = 2; } } N a = 1; }")
      (fun file => file.messages.map (fun message => message.messages.map (·.name.text)) =
        [["N"]]) (by decide +kernel)
    rw [decide_eq_true_eq, List.map_eq_singleton_iff] at checked
    obtain ⟨message, messages, inner⟩ := checked
    have place : file.Place [message] :=
      .inside .top (by rw [File.messagesAt, messages]; exact List.mem_singleton_self _)
    exact ⟨file, accepted, [message], place, inner,
      message_checks_exact.2 {} _ file accepted [message] place⟩

/-! ### Names of oneofs -/

namespace Message

/-- The message with other names for its oneofs. -/
def renameOneofs (rename : Oneof → Name) (message : Message) : Message :=
  { message with
    oneofs := message.oneofs.map fun oneof => { oneof with name := rename oneof } }

theorem allFields_renameOneofs (rename : Oneof → Name) (message : Message) :
    (message.renameOneofs rename).allFields = message.allFields := by
  rw [allFields, allFields, renameOneofs, List.flatMap_map]

variable {message : Message} {rename : Oneof → Name}

theorem Placed.renameOneofs (placed : message.Placed) :
    (message.renameOneofs rename).Placed := by
  refine ⟨placed.fields, ?_⟩
  intro index oneof found
  rw [Message.renameOneofs, List.getElem?_map] at found
  obtain ⟨original, originalFound, rfl⟩ := Option.map_eq_some_iff.mp found
  exact placed.oneofs index original originalFound

/-- The rule asks of the names of oneofs that they are not those of fields, and nothing else. -/
theorem Legal.renameOneofs_iff (legal : message.Legal) :
    (message.renameOneofs rename).Legal ↔
      ∀ oneof ∈ message.oneofs, ∀ field ∈ message.allFields,
        field.name.text ≠ (rename oneof).text := by
  have fields := allFields_renameOneofs rename message
  constructor
  · intro renamed
    have apart := renamed.oneofNames
    rw [fields] at apart
    exact List.forall_mem_map.mp apart
  · intro apart
    exact
      { name := legal.name
        nestedNames := legal.nestedNames
        fieldNames := fields ▸ legal.fieldNames
        fieldNumbers := fields ▸ legal.fieldNumbers
        oneofNames := fields ▸ List.forall_mem_map.mpr apart
        mapLabels := legal.mapLabels
        oneofs := List.forall_mem_map.mpr fun oneof member =>
          ⟨(legal.oneofs oneof member).some, (legal.oneofs oneof member).unlabelled,
            (legal.oneofs oneof member).noMaps⟩
        reservedRanges := legal.reservedRanges
        extensionRanges := legal.extensionRanges
        unreservedNumbers := fields ▸ legal.unreservedNumbers
        unreservedNames := fields ▸ legal.unreservedNames }

end Message

/-- In every message of an accepted file, at whatever depth, the names of fields are distinct and no
oneof has one of them. No check compares oneofs: if a message passes, then it does with other names
for its oneofs, just in case none of these is the name of a field. -/
theorem oneof_names_exact (options : ParseOptions) (source : String) (file : File) :
    (options.parse source = .ok file → ∀ around, file.Place around →
      ∀ message ∈ file.messagesAt around,
        (message.allFields.map (·.name.text)).Nodup ∧
          ∀ oneof ∈ message.oneofs, ∀ field ∈ message.allFields,
            field.name.text ≠ oneof.name.text) ∧
    ∀ message : Message, message.Placed →
      message.faults = [] → (∀ oneof ∈ message.oneofs, oneof.faults = []) →
      ∀ rename : Oneof → Name,
        ((message.renameOneofs rename).faults = [] ∧
            ∀ oneof ∈ (message.renameOneofs rename).oneofs, oneof.faults = []) ↔
          ∀ oneof ∈ message.oneofs, ∀ field ∈ message.allFields,
            field.name.text ≠ (rename oneof).text := by
  refine ⟨?_, ?_⟩
  · intro accepted around place message member
    have legal := ParseOptions.legal_messages accepted place message member
    exact ⟨legal.fieldNames, legal.oneofNames⟩
  · intro message placed none members rename
    have legal := placed.faults_eq_nil_iff_legal.mp ⟨none, members⟩
    rw [placed.renameOneofs.faults_eq_nil_iff_legal, legal.renameOneofs_iff]

/-- A message with two oneofs of one member each. -/
def pairedOneofs : Message :=
  let oneof (name member : String) (index : Nat) (number : UInt64) : Oneof :=
    ⟨⟨name, .point 0⟩, [⟨.singular, none, .single (.scalar .int32 (.point 0)), ⟨member, .point 0⟩,
      ⟨false, number, .point 0⟩, [], some index, .none, .point 0⟩], [], .none, .point 0⟩
  ⟨⟨"M", .point 0⟩, [], [oneof "o" "a" 0 1, oneof "p" "b" 1 2], [], [], [], [], [], [], .none, .point 0⟩

/-- A message inside another may use the names of the outer one; and two oneofs that get the name of
one of them pass, but not if they get that of a field. -/
theorem oneof_names_exact_sample :
    (∃ file : File,
      parse "message M { oneof a { M x = 1; } message N { oneof x { M a = 1; } oneof y { M b = 2; } } }" =
        .ok file ∧
      ∃ around, file.Place around ∧
        (file.messagesAt around).map (fun message => message.oneofs.map (·.name.text)) =
          [["x", "y"]] ∧
        ∀ message ∈ file.messagesAt around,
          (message.oneofs.map (·.name.text) ++ message.allFields.map (·.name.text)).Nodup) ∧
    (pairedOneofs.renameOneofs fun _ => ⟨"p", .point 0⟩).faults = [] ∧
    (pairedOneofs.renameOneofs fun _ => ⟨"b", .point 0⟩).faults ≠ [] := by
  refine ⟨?_, ?_⟩
  · obtain ⟨file, accepted, checked⟩ := exists_of_check
      (parse
        "message M { oneof a { M x = 1; } message N { oneof x { M a = 1; } oneof y { M b = 2; } } }")
      (fun file => file.messages.map (fun message =>
          message.messages.map fun inner => inner.oneofs.map (·.name.text)) = [[["x", "y"]]])
      (by cbv)
    rw [decide_eq_true_eq, List.map_eq_singleton_iff] at checked
    obtain ⟨message, messages, inner⟩ := checked
    have place : file.Place [message] :=
      .inside .top (by rw [File.messagesAt, messages]; exact List.mem_singleton_self _)
    refine ⟨file, accepted, [message], place, inner, fun found member => ?_⟩
    obtain ⟨fields, apart⟩ := (oneof_names_exact {} _ file).1 accepted [message] place found member
    have names : found.oneofs.map (·.name.text) ∈ [["x", "y"]] := by
      rw [← inner]
      exact List.mem_map_of_mem member
    refine List.nodup_append.mpr ⟨?_, fields, ?_⟩
    · rw [List.mem_singleton.mp names]
      decide
    · simp only [List.forall_mem_map]
      exact fun oneof oneofMember field fieldMember same =>
        apart oneof oneofMember field fieldMember same.symm
  · have placed : pairedOneofs.Placed := by
      refine ⟨fun field member => absurd member List.not_mem_nil, ?_⟩
      intro index oneof found field member
      rcases index with _ | _ | index
      · obtain rfl := Option.some.inj found
        rw [List.mem_singleton.mp member]
      · obtain rfl := Option.some.inj found
        rw [List.mem_singleton.mp member]
      · cases found
    have renamed :=
      (oneof_names_exact {} "" .empty).2 pairedOneofs placed (by cbv) (by decide +kernel)
    refine ⟨((renamed fun _ => ⟨"p", .point 0⟩).mpr (by decide +kernel)).1, fun none => ?_⟩
    exact absurd ((renamed fun _ => ⟨"b", .point 0⟩).mp ⟨none, by decide +kernel⟩)
      (by decide +kernel)

/-- Two oneofs of a message may have one name. -/
theorem oneofs_share_name : ∃ file : File,
    parse "message M { oneof a { int32 x = 1; } oneof a { int32 y = 2; } }" = .ok file ∧
      ∃ message ∈ file.messagesAt [],
        ¬ (message.oneofs.map (·.name.text) ++ message.allFields.map (·.name.text)).Nodup := by
  obtain ⟨file, accepted, checked⟩ := exists_of_check
    (parse "message M { oneof a { int32 x = 1; } oneof a { int32 y = 2; } }")
    (fun file => file.messages.map (fun message =>
      (message.oneofs.map (·.name.text), message.allFields.map (·.name.text))) =
        [(["a", "a"], ["x", "y"])]) (by cbv)
  rw [decide_eq_true_eq, List.map_eq_singleton_iff] at checked
  obtain ⟨message, messages, names⟩ := checked
  obtain ⟨oneofs, fields⟩ := Prod.mk.inj names
  refine ⟨file, accepted, message, ?_, ?_⟩
  · rw [File.messagesAt, messages]
    exact List.mem_singleton_self _
  · rw [oneofs, fields]
    decide

/-! ### Fields -/

/-- Every field of an accepted file keeps the rule for fields at its place, and in the newer edition
every extension block, at whatever depth, extends one of the messages that hold options. -/
theorem legal_fields_of_parse (options : ParseOptions) (source : String) (file : File)
    (accepted : options.parse source = .ok file) :
    (∀ context field, file.HasField context field → field.Legal file.declaredEdition context) ∧
      (file.declaredEdition = some .proto3 → ∀ around, file.Place around →
        ∀ extension ∈ file.extensionsAt around,
          extension.extendee.path.text ∈ optionMessages) := by
  obtain ⟨parsed, wellFormed, rfl⟩ := ParseOptions.wellFormed_of_parse accepted
  unfold ParseOptions.finish
  by_cases resolves : options.resolves = true
  · rw [if_pos resolves]
    constructor
    · intro context field found
      exact wellFormed.legal_field_resolve found
    · intro newer around place extension member
      exact wellFormed.extendee_mem_resolve newer place member
  · rw [if_neg resolves]
    constructor
    · intro context field found
      exact wellFormed.legal_field found
    · intro newer around place extension member
      exact wellFormed.extendee_mem newer place member

/-- The numbers next to those set aside may be used, and fields of the newer edition may be declared
in blocks that stand in messages. -/
theorem legal_fields_sample : ∃ file : File,
    parse ("syntax = \"proto3\"; message M { map<string, M> a = 18999; } " ++
      "message N { oneof o { M b = 20000; } extend .google.protobuf.FieldOptions { M c = 1; } }") =
        .ok file ∧
      (∃ field, file.HasField .message field ∧ field.type.isMap = true ∧
        field.Legal (some .proto3) .message) ∧
      ∃ message extension, file.Place [message] ∧ extension ∈ file.extensionsAt [message] ∧
        extension.extendee.path.text ∈ optionMessages := by
  obtain ⟨file, accepted, checked⟩ := exists_of_check
    (parse ("syntax = \"proto3\"; message M { map<string, M> a = 18999; } " ++
      "message N { oneof o { M b = 20000; } extend .google.protobuf.FieldOptions { M c = 1; } }"))
    (fun file => file.declaredEdition = some .proto3 &&
      file.messages.map (fun message => (message.fields.map (·.type.isMap),
        message.extensions.length)) = [([true], 0), ([], 1)])
    (by decide +kernel)
  simp only [Bool.and_eq_true, decide_eq_true_eq, List.map_eq_cons_iff, List.map_eq_nil_iff,
    Prod.mk.injEq] at checked
  obtain ⟨newer, first, _, messages, ⟨⟨field, _, fields, isMap, rfl⟩, -⟩, second, _, rfl,
    ⟨-, length⟩, rfl⟩ := checked
  obtain ⟨extension, extensions⟩ := List.length_eq_one_iff.mp length
  have legal := legal_fields_of_parse {} _ file accepted
  have members : file.messagesAt [] = [first, second] := messages
  have firstMember : first ∈ file.messagesAt [] := by rw [members]; simp
  have secondMember : second ∈ file.messagesAt [] := by rw [members]; simp
  have found : file.HasField .message field := .direct .top firstMember (by rw [fields]; simp)
  have place : file.Place [second] := .inside .top secondMember
  have extensionMember : extension ∈ file.extensionsAt [second] := by
    rw [File.extensionsAt, extensions]
    exact List.mem_singleton_self _
  refine ⟨file, accepted, ⟨field, found, isMap, ?_⟩, second, extension, place,
    extensionMember, legal.2 newer _ place extension extensionMember⟩
  rw [← newer]
  exact legal.1 _ field found

end ProtoSchema
