/-
This file compares the places of a resolved file with those of the file itself.
Around a place, each message is resolved in the scopes of the messages around it;
names stay, so the scopes do, and with them the places and what is declared there.
-/

import ProtoSchema.Proofs.Resolution.Scopes

namespace ProtoSchema

namespace SymbolTable

variable (table : SymbolTable)

theorem name_resolveMessage (scopes : List String) (message : Message) :
    (table.resolveMessage scopes message).name = message.name := by
  rw [resolveMessage_eq]

/-- The messages around a place, each resolved in the scopes of those around it. -/
def resolveAround : List Message → List Message
  | [] => []
  | message :: around => table.resolveMessage (scopesOf around) message :: resolveAround around

theorem map_name_resolveAround (around : List Message) :
    (table.resolveAround around).map Message.name = around.map Message.name := by
  induction around with
  | nil => rfl
  | cons message around inductionHypothesis =>
    rw [resolveAround, List.map_cons, List.map_cons, name_resolveMessage, inductionHypothesis]

end SymbolTable

namespace File

variable {file : File} {around : List Message}

theorem messagesAt_resolve (file : File) (around : List Message) :
    file.resolve.messagesAt ((SymbolTable.ofFile file).resolveAround around) =
      (file.messagesAt around).map ((SymbolTable.ofFile file).resolveMessage (scopesOf around)) := by
  cases around with
  | nil =>
    rw [messagesAt, ← SymbolTable.resolveMessages_eq]
    rfl
  | cons parent around =>
    rw [SymbolTable.resolveAround, messagesAt, SymbolTable.resolveMessage_eq]
    rfl

theorem enumsAt_resolve (file : File) (around : List Message) :
    file.resolve.enumsAt ((SymbolTable.ofFile file).resolveAround around) =
      file.enumsAt around := by
  cases around with
  | nil => rfl
  | cons parent around =>
    rw [SymbolTable.resolveAround, enumsAt, SymbolTable.resolveMessage_eq]
    rfl

theorem Place.resolve (place : file.Place around) :
    file.resolve.Place ((SymbolTable.ofFile file).resolveAround around) := by
  induction place with
  | top => exact .top
  | @inside message around _ member inductionHypothesis =>
    refine inductionHypothesis.inside ?_
    rw [messagesAt_resolve]
    exact List.mem_map_of_mem member

/-- The places of a resolved file are those of the file, resolved. -/
theorem Place.exists_of_resolve {resolved : List Message} (place : file.resolve.Place resolved) :
    ∃ around, file.Place around ∧ resolved = (SymbolTable.ofFile file).resolveAround around := by
  induction place with
  | top => exact ⟨[], .top, rfl⟩
  | @inside message resolved _ member inductionHypothesis =>
    obtain ⟨around, place, rfl⟩ := inductionHypothesis
    rw [messagesAt_resolve] at member
    obtain ⟨original, originalMember, rfl⟩ := List.mem_map.mp member
    exact ⟨original :: around, place.inside originalMember, rfl⟩

/-! ### Paths of names -/

/-- The names of the messages around a place, the outermost first. -/
def namesOf (around : List Message) : List String :=
  (around.map fun message => message.name.text).reverse

/-- A message of the last name is declared in the messages of the other names. -/
def DeclaresMessage (file : File) (path : List String) : Prop :=
  ∃ around, file.Place around ∧
    ∃ message ∈ file.messagesAt around, path = namesOf around ++ [message.name.text]

/-- An enum of the last name is declared in the messages of the other names. -/
def DeclaresEnum (file : File) (path : List String) : Prop :=
  ∃ around, file.Place around ∧
    ∃ enumeration ∈ file.enumsAt around, path = namesOf around ++ [enumeration.name.text]

theorem namesOf_cons (message : Message) (around : List Message) :
    namesOf (message :: around) = namesOf around ++ [message.name.text] := by
  rw [namesOf, List.map_cons, List.reverse_cons, namesOf]

/-- An enum of a message at the top has a path of two names. -/
theorem declaresEnum_of_mem {message : Message} {enumeration : Enumeration}
    (member : message ∈ file.messages) (declared : enumeration ∈ message.enums) :
    file.DeclaresEnum [message.name.text, enumeration.name.text] :=
  ⟨[message], .inside .top member, enumeration, declared, by rw [namesOf_cons]; rfl⟩

theorem namesOf_resolveAround (table : SymbolTable) (around : List Message) :
    namesOf (table.resolveAround around) = namesOf around := by
  have names := congrArg (List.map Name.text) (table.map_name_resolveAround around)
  rw [List.map_map, List.map_map] at names
  exact congrArg List.reverse names

/-- Resolving neither adds nor takes away a message. -/
theorem declaresMessage_resolve {path : List String} :
    file.resolve.DeclaresMessage path ↔ file.DeclaresMessage path := by
  constructor
  · rintro ⟨_, place, message, member, rfl⟩
    obtain ⟨around, originalPlace, rfl⟩ := place.exists_of_resolve
    rw [messagesAt_resolve] at member
    obtain ⟨original, originalMember, rfl⟩ := List.mem_map.mp member
    refine ⟨around, originalPlace, original, originalMember, ?_⟩
    rw [namesOf_resolveAround, SymbolTable.name_resolveMessage]
  · rintro ⟨around, place, message, member, rfl⟩
    refine ⟨_, place.resolve,
      (SymbolTable.ofFile file).resolveMessage (scopesOf around) message, ?_, ?_⟩
    · rw [messagesAt_resolve]
      exact List.mem_map_of_mem member
    · rw [namesOf_resolveAround, SymbolTable.name_resolveMessage]

/-- Resolving neither adds nor takes away an enum. -/
theorem declaresEnum_resolve {path : List String} :
    file.resolve.DeclaresEnum path ↔ file.DeclaresEnum path := by
  constructor
  · rintro ⟨_, place, enumeration, member, rfl⟩
    obtain ⟨around, originalPlace, rfl⟩ := place.exists_of_resolve
    rw [enumsAt_resolve] at member
    exact ⟨around, originalPlace, enumeration, member, by rw [namesOf_resolveAround]⟩
  · rintro ⟨around, place, enumeration, member, rfl⟩
    refine ⟨_, place.resolve, enumeration, ?_, by rw [namesOf_resolveAround]⟩
    rw [enumsAt_resolve]
    exact member

end File

end ProtoSchema
