/-
This file renames one field of a tree, wherever it stands: directly in a message,
in a oneof or in an extension block. A message is still without a fault if the new
name is not that of another field or of a oneof and is not reserved. An extension
block asks nothing of the names of its fields, and neither does what stands around
the message or the block.
-/

import ProtoSchema.Proofs.Resolution.Fields

namespace ProtoSchema

/-! ### Replacing an entry of a list -/

/-- One entry of a list is replaced by another. -/
inductive Replaces {Entry : Type} (entry other : Entry) : List Entry → List Entry → Prop where
  | intro (before after : List Entry) :
      Replaces entry other (before ++ entry :: after) (before ++ other :: after)

namespace Replaces

variable {Entry Image : Type} {entry other last : Entry} {first second : List Entry}

theorem of_mem (member : entry ∈ first) (other : Entry) :
    ∃ second, Replaces entry other first second := by
  obtain ⟨before, after, rfl⟩ := List.append_of_mem member
  exact ⟨_, .intro before after⟩

theorem split (replaces : Replaces entry other first second) :
    ∃ before after, first = before ++ entry :: after ∧ second = before ++ other :: after := by
  obtain ⟨before, after⟩ := replaces
  exact ⟨before, after, rfl, rfl⟩

theorem symm (replaces : Replaces entry other first second) : Replaces other entry second first := by
  obtain ⟨before, after⟩ := replaces
  exact .intro before after

theorem mem (replaces : Replaces entry other first second) : entry ∈ first := by
  obtain ⟨before, after⟩ := replaces
  exact List.mem_append_right _ List.mem_cons_self

theorem length_eq (replaces : Replaces entry other first second) :
    second.length = first.length := by
  obtain ⟨before, after⟩ := replaces
  rw [List.length_append, List.length_append, List.length_cons, List.length_cons]

/-- What is the same of both entries is the same of both lists. -/
theorem map_eq (replaces : Replaces entry other first second) {view : Entry → Image}
    (same : view other = view entry) : second.map view = first.map view := by
  obtain ⟨before, after⟩ := replaces
  rw [List.map_append, List.map_append, List.map_cons, List.map_cons, same]

theorem flatMap_eq (replaces : Replaces entry other first second) {view : Entry → List Image}
    (same : view other = view entry) : second.flatMap view = first.flatMap view := by
  obtain ⟨before, after⟩ := replaces
  rw [List.flatMap_append, List.flatMap_append, List.flatMap_cons, List.flatMap_cons, same]

/-- What holds of all entries still does if it holds of the new one. -/
theorem forall_mem (replaces : Replaces entry other first second) {holds : Entry → Prop}
    (each : ∀ found ∈ first, holds found) (same : holds entry → holds other) :
    ∀ found ∈ second, holds found := by
  obtain ⟨before, after⟩ := replaces
  simp only [List.forall_mem_append, List.forall_mem_cons] at each ⊢
  exact ⟨each.1, same each.2.1, each.2.2⟩

/-- What stands at an index is what stood there, but for the entry that is replaced. -/
theorem getElem?_cases (replaces : Replaces entry other first second) {index : Nat} {found : Entry}
    (isFound : second[index]? = some found) :
    first[index]? = some found ∨ first[index]? = some entry ∧ found = other := by
  obtain ⟨before, after⟩ := replaces
  rcases Nat.lt_or_ge index before.length with inside | behind
  · rw [List.getElem?_append_left inside] at isFound ⊢
    exact .inl isFound
  · rw [List.getElem?_append_right behind] at isFound ⊢
    generalize index - before.length = index at isFound ⊢
    cases index with
    | zero => exact .inr ⟨rfl, (Option.some.inj isFound).symm⟩
    | succ index => exact .inl isFound

theorem append (replaces : Replaces entry other first second) (before after : List Entry) :
    Replaces entry other (before ++ first ++ after) (before ++ second ++ after) := by
  obtain ⟨front, back⟩ := replaces
  simpa using Replaces.intro (before ++ front) (back ++ after)

/-- An entry of a longer list is one of the shorter list, or the last one. -/
theorem concat_iff : Replaces entry other (first ++ [last]) second ↔
    (∃ found, Replaces entry other first found ∧ second = found ++ [last]) ∨
      entry = last ∧ second = first ++ [other] := by
  constructor
  · intro replaces
    generalize whole : first ++ [last] = all at replaces
    obtain ⟨before, after⟩ := replaces
    rcases List.eq_nil_or_concat after with rfl | ⟨more, final, rfl⟩
    · obtain ⟨rfl, same⟩ := List.append_inj' whole rfl
      exact .inr ⟨(List.singleton_inj.mp same).symm, rfl⟩
    · rw [List.concat_eq_append, ← List.cons_append, ← List.append_assoc] at whole
      obtain ⟨rfl, same⟩ := List.append_inj' whole rfl
      refine .inl ⟨before ++ other :: more, .intro before more, ?_⟩
      rw [List.singleton_inj.mp same]
      simp
  · rintro (⟨found, ⟨before, after⟩, rfl⟩ | ⟨rfl, rfl⟩)
    · simpa using Replaces.intro before (after ++ [last])
    · exact .intro first []

/-- The same if there may be no last one. -/
theorem append_toList {found : Option Entry}
    (replaces : Replaces entry other (first ++ found.toList) second) :
    (∃ before, Replaces entry other first before ∧ second = before ++ found.toList) ∨
      found = some entry ∧ second = first ++ [other] := by
  cases found with
  | none =>
    rw [Option.toList_none, List.append_nil] at replaces
    exact .inl ⟨second, replaces, (List.append_nil _).symm⟩
  | some last =>
    obtain before | ⟨rfl, rfl⟩ := concat_iff.mp replaces
    · exact .inl before
    · exact .inr ⟨rfl, rfl⟩

end Replaces

/-! ### Renaming a field -/

/-- The field with another name at the same place. -/
def Field.renamed (field : Field) (word : String) : Field :=
  { field with name := { field.name with text := word } }

section Renames

variable (field : Field) (word : String)

/-- A field of the oneof is renamed. -/
inductive Oneof.Renames : Oneof → Oneof → Prop where
  | intro {oneof : Oneof} {fields : List Field}
      (replaces : Replaces field (field.renamed word) oneof.fields fields) :
      Renames oneof { oneof with fields }

/-- A field of the extension block is renamed. -/
inductive Extension.Renames : Extension → Extension → Prop where
  | intro {extension : Extension} {fields : List Field}
      (replaces : Replaces field (field.renamed word) extension.fields fields) :
      Renames extension { extension with fields }

/-- A field in the message, at whatever depth, is renamed. What it is renamed in, inside the message,
is without a fault. -/
inductive Message.Renames : Message → Message → Prop where
  | direct {message : Message} {fields : List Field}
      (replaces : Replaces field (field.renamed word) message.fields fields) :
      Renames message { message with fields }
  | member {message : Message} {oneof other : Oneof} {oneofs : List Oneof}
      (renames : oneof.Renames field word other) (sound : other.faults = [])
      (replaces : Replaces oneof other message.oneofs oneofs) :
      Renames message { message with oneofs }
  | extension {message : Message} {extension other : Extension} {extensions : List Extension}
      (renames : extension.Renames field word other)
      (replaces : Replaces extension other message.extensions extensions) :
      Renames message { message with extensions }
  | nested {message inner other : Message} {messages : List Message}
      (renames : Renames inner other) (sound : other.faults = [])
      (replaces : Replaces inner other message.messages messages) :
      Renames message { message with messages }

/-- A field in the file, at whatever depth, is renamed, and nothing else is changed. -/
inductive File.Renames : File → File → Prop where
  | message {file : File} {message other : Message} {messages : List Message}
      (renames : message.Renames field word other) (sound : other.faults = [])
      (replaces : Replaces message other file.messages messages) :
      Renames file { file with messages }
  | extension {file : File} {extension other : Extension} {extensions : List Extension}
      (renames : extension.Renames field word other)
      (replaces : Replaces extension other file.extensions extensions) :
      Renames file { file with extensions }

end Renames

/-! ### What does not depend on names of fields -/

section Same

variable {field : Field} {word : String}

theorem Message.Renames.name_eq {message other : Message}
    (renames : message.Renames field word other) : other.name = message.name := by
  cases renames <;> rfl

theorem Extension.Renames.faults_eq {extension other : Extension}
    (renames : extension.Renames field word other) (edition : Option Edition) :
    other.faults edition = extension.faults edition := by
  obtain ⟨replaces⟩ := renames
  exact congrArg (Extension.extendeeFaults edition extension ++ ·) (replaces.flatMap_eq rfl)

/-- Neither fields nor what is declared in extension blocks is a definition. -/
theorem Message.Renames.definitions_eq {message other : Message}
    (renames : message.Renames field word other) (scope : String) (isNested : Bool) :
    Definition.ofMessage scope isNested other = Definition.ofMessage scope isNested message := by
  induction renames generalizing scope isNested with
  | direct => rw [Definition.ofMessage_eq, Definition.ofMessage_eq]
  | member => rw [Definition.ofMessage_eq, Definition.ofMessage_eq]
  | extension => rw [Definition.ofMessage_eq, Definition.ofMessage_eq]
  | nested _ _ replaces inductionHypothesis =>
    rw [Definition.ofMessage_eq, Definition.ofMessage_eq]
    dsimp only
    rw [replaces.flatMap_eq (inductionHypothesis _ _)]

theorem File.Renames.faults_eq {file other : File} (renames : file.Renames field word other) :
    other.faults = file.faults := by
  have definitions : other.definitions = file.definitions := by
    cases renames with
    | message renames _ replaces =>
      simp only [File.definitions, Definition.ofMessages_eq]
      rw [replaces.flatMap_eq (renames.definitions_eq _ _)]
      rfl
    | extension => rfl
  have rest : other.importFaults = file.importFaults ∧ other.packageFaults = file.packageFaults := by
    cases renames <;> exact ⟨rfl, rfl⟩
  rw [File.faults, File.faults, rest.1, rest.2, File.definitionFaults, File.definitionFaults,
    definitions]

/-- What is renamed in an extension block or a nested message is no matter of the message. -/
theorem Message.faults_eq_of_nested {message inner other : Message} {messages : List Message}
    (same : other.name = inner.name) (replaces : Replaces inner other message.messages messages) :
    { message with messages }.faults = message.faults := by
  have names : messages.map Message.name = message.messages.map Message.name :=
    replaces.map_eq same
  simp only [Message.faults, Message.nestedNameFaults, names]
  rfl

end Same

/-! ### Messages without a fault -/

/-- The word is the name of no other field and of no oneof of the message, and is not reserved
there. -/
structure Message.Free (message : Message) (field : Field) (word : String) : Prop where
  fields : ∀ other ∈ message.allFields, other ≠ field → other.name.text ≠ word
  oneofs : ∀ oneof ∈ message.oneofs, oneof.name.text ≠ word
  reserved : ∀ name ∈ Reserved.namesOf message.reserved, name.text ≠ word

namespace Message

variable {message : Message} {field : Field} {word : String} {fields : List Field}
variable {oneofs : List Oneof}

/-- Of a name, the rule for messages asks that it is free. -/
theorem Legal.of_renamed (legal : message.Legal) (free : message.Free field word)
    (replaces : Replaces field (field.renamed word) message.allFields
      { message with fields, oneofs }.allFields)
    (mapLabels : ∀ found ∈ fields, found.type.isMap = true → found.labelSpan = none)
    (names : oneofs.map (·.name) = message.oneofs.map (·.name))
    (each : ∀ oneof ∈ oneofs, oneof.Legal) :
    { message with fields, oneofs }.Legal := by
  have sameNumbers : numbersOf { message with fields, oneofs }.allFields =
      numbersOf message.allFields := by
    rw [numbersOf_eq, numbersOf_eq, replaces.map_eq rfl]
  exact
    { name := legal.name
      nestedNames := legal.nestedNames
      fieldNames := by
        have nodup := legal.fieldNames
        obtain ⟨before, after, split, other⟩ := replaces.split
        rw [split, List.map_append, List.map_cons, List.nodup_middle, List.nodup_cons,
          ← List.map_append] at nodup
        rw [other, List.map_append, List.map_cons, List.nodup_middle, List.nodup_cons,
          ← List.map_append]
        refine ⟨fun taken => ?_, nodup.2⟩
        obtain ⟨found, inRest, same⟩ := List.mem_map.mp taken
        refine free.fields found ?_ ?_ same
        · rw [split]
          exact List.mem_append.mpr ((List.mem_append.mp inRest).imp_right (List.mem_cons_of_mem _))
        · rintro rfl
          exact nodup.1 (List.mem_map_of_mem inRest)
      fieldNumbers := sameNumbers ▸ legal.fieldNumbers
      oneofNames := by
        intro oneof oneofMember
        have known : oneof.name ∈ message.oneofs.map (·.name) :=
          names ▸ List.mem_map_of_mem oneofMember
        obtain ⟨original, originalMember, same⟩ := List.mem_map.mp known
        rw [← same]
        exact replaces.forall_mem (legal.oneofNames original originalMember)
          fun _ => (free.oneofs original originalMember).symm
      mapLabels := mapLabels
      oneofs := each
      reservedRanges := legal.reservedRanges
      extensionRanges := legal.extensionRanges
      unreservedNumbers := replaces.forall_mem legal.unreservedNumbers id
      unreservedNames := replaces.forall_mem legal.unreservedNames fun _ => free.reserved }

/-- A direct field of a message without a fault may get any name that is free. -/
theorem sound_of_direct (placed : message.Placed) (legal : message.Legal)
    (free : message.Free field word)
    (replaces : Replaces field (field.renamed word) message.fields fields) :
    { message with fields }.faults = [] := by
  have placedStill : { message with fields }.Placed :=
    ⟨replaces.forall_mem placed.fields id, placed.oneofs⟩
  refine (placedStill.faults_eq_nil_iff_legal.mpr
    (Legal.of_renamed legal free ?_ ?_ rfl legal.oneofs)).1
  · exact replaces.append [] _
  · exact replaces.forall_mem legal.mapLabels id

/-- So may a member of a oneof, which is still without a fault itself. -/
theorem sound_of_member {oneof other : Oneof} (placed : message.Placed) (legal : message.Legal)
    (free : message.Free field word) (renames : oneof.Renames field word other)
    (replaces : Replaces oneof other message.oneofs oneofs) :
    { message with oneofs }.faults = [] ∧ other.faults = [] := by
  obtain @⟨members, inside⟩ := renames
  have allFields : Replaces field (field.renamed word) message.allFields
      { message with oneofs }.allFields := by
    obtain ⟨before, after, split, rfl⟩ := replaces.split
    simp only [allFields, split, List.flatMap_append, List.flatMap_cons]
    simpa only [List.append_assoc] using
      inside.append (message.fields ++ before.flatMap (·.fields)) (after.flatMap (·.fields))
  have placedStill : { message with oneofs }.Placed := by
    refine ⟨placed.fields, fun index found isFound => ?_⟩
    obtain same | ⟨same, rfl⟩ := replaces.getElem?_cases isFound
    · exact placed.oneofs index found same
    · exact inside.forall_mem (placed.oneofs index oneof same) id
  have rule : { message with oneofs }.Legal := by
    refine Legal.of_renamed legal free allFields legal.mapLabels (replaces.map_eq rfl) ?_
    refine replaces.forall_mem legal.oneofs fun known => ?_
    exact ⟨List.ne_nil_of_mem inside.symm.mem, inside.forall_mem known.unlabelled id,
      inside.forall_mem known.noMaps id⟩
  obtain ⟨sound, each⟩ := placedStill.faults_eq_nil_iff_legal.mpr rule
  exact ⟨sound, each _ replaces.symm.mem⟩

end Message

/-! ### Files -/

namespace File

variable {file : File} {around : List Message} {field : Field} {word : String}

/-- What is renamed in a message at some place is renamed in the file. -/
theorem Place.exists_renames {message other : Message} (place : file.Place around)
    (wellFormed : file.WellFormed) (member : message ∈ file.messagesAt around)
    (renames : message.Renames field word other) (sound : other.faults = []) :
    ∃ renamed, file.Renames field word renamed := by
  induction place generalizing message other with
  | top =>
    obtain ⟨messages, replaces⟩ := Replaces.of_mem member other
    exact ⟨_, .message renames sound replaces⟩
  | @inside parent around outer parentMember inductionHypothesis =>
    obtain ⟨messages, replaces⟩ := Replaces.of_mem member other
    obtain ⟨_, _, -, parentSound⟩ := wellFormed.membersAt outer parentMember
    refine inductionHypothesis parentMember (.nested renames sound replaces) ?_
    rw [Message.faults_eq_of_nested renames.name_eq replaces, parentSound]

/-- Every field of a message, members of its oneofs included, may get a name that is free. -/
theorem WellFormed.exists_renames (wellFormed : file.WellFormed) (place : file.Place around)
    {message : Message} (member : message ∈ file.messagesAt around)
    (fieldMember : field ∈ message.allFields) (free : message.Free field word) :
    ∃ renamed, file.Renames field word renamed := by
  obtain ⟨_, _, members, sound⟩ := wellFormed.membersAt place member
  have valid := (Message.faults_eq_nil_iff members.placed members.validOneofs).mp sound
  have legal := members.placed.legal_iff.mpr ⟨valid, members.validOneofs⟩
  rcases List.mem_append.mp fieldMember with direct | inOneof
  · obtain ⟨fields, replaces⟩ := Replaces.of_mem direct (field.renamed word)
    exact place.exists_renames wellFormed member (.direct replaces)
      (Message.sound_of_direct members.placed legal free replaces)
  · obtain ⟨oneof, oneofMember, direct⟩ := List.mem_flatMap.mp inOneof
    obtain ⟨fields, inside⟩ := Replaces.of_mem direct (field.renamed word)
    have renames : oneof.Renames field word { oneof with fields } := .intro inside
    obtain ⟨oneofs, replaces⟩ := Replaces.of_mem oneofMember { oneof with fields }
    obtain ⟨messageSound, oneofSound⟩ :=
      Message.sound_of_member members.placed legal free renames replaces
    exact place.exists_renames wellFormed member (.member renames oneofSound replaces) messageSound

/-- Every field of an extension block may get any name. -/
theorem WellFormed.exists_renames_extension (wellFormed : file.WellFormed)
    (place : file.Place around) {extension : Extension}
    (member : extension ∈ file.extensionsAt around) (fieldMember : field ∈ extension.fields) :
    ∃ renamed, file.Renames field word renamed := by
  obtain ⟨fields, inside⟩ := Replaces.of_mem fieldMember (field.renamed word)
  have renames : extension.Renames field word { extension with fields } := .intro inside
  obtain ⟨extensions, replaces⟩ := Replaces.of_mem member { extension with fields }
  cases place with
  | top => exact ⟨_, .extension renames replaces⟩
  | @inside parent around outer parentMember =>
    obtain ⟨_, _, -, parentSound⟩ := wellFormed.membersAt outer parentMember
    exact outer.exists_renames wellFormed parentMember (.extension renames replaces) parentSound

end File

end ProtoSchema
