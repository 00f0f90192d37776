/-
This file shows that what is declared in a place of a file has its place in the
source, and follows the paths to messages. A path that leads to a message is the
path that the message was parsed with. The message at a path starts inside the
message at each shorter one and the messages beside each other do not overlap, so
that no two paths lead to one place. Every message is at some path, and resolving
changes what is at a path but not where the paths lead.
-/

import ProtoSchema.Proofs.Layout.Files
import ProtoSchema.Proofs.Resolution.Places

namespace ProtoSchema

section Places

open Outline (Laid WellPlaced)

variable {source : List Char} {start stop : Nat} {file : File} {around : List Message}

namespace File

theorem wellPlaced_messageAt (laid : Laid source start stop file.outlines)
    (place : file.Place around) :
    ∀ message ∈ file.messagesAt around, message.outline.WellPlaced source := by
  induction place with
  | top => exact fun message member => ((Interior.of_laid laid).messages message member).1
  | inside _ parentMember inductionHypothesis =>
    have parent := Message.Interior.of_placed (inductionHypothesis _ parentMember)
    exact fun message member => (parent.messages message member).1

theorem wellPlaced_enumAt (laid : Laid source start stop file.outlines)
    (place : file.Place around) :
    ∀ enumeration ∈ file.enumsAt around, enumeration.outline.WellPlaced source := by
  cases place with
  | top => exact fun enumeration member => ((Interior.of_laid laid).enums enumeration member).1
  | inside outer parentMember =>
    have parent := Message.Interior.of_placed (wellPlaced_messageAt laid outer _ parentMember)
    exact fun enumeration member => (parent.enums enumeration member).1

end File

/-- The option statements of an enum stand in their order. -/
theorem Enumeration.optionsInOrder {enumeration : Enumeration}
    (placed : enumeration.outline.WellPlaced source) :
    enumeration.options.Pairwise fun first second => first.span.stop ≤ second.span.start := by
  obtain ⟨middle, -, members⟩ := placed.laid
  exact (members.entries (show enumeration.options.map OptionStatement.outline ∈ _ from
    List.mem_cons_of_mem _ List.mem_cons_self)).2

end Places

variable {source : List Char} {messages : List Message} {message inner : Message}
variable {index : Nat} {path rest : MessagePath}

namespace File

/-! ### Going along a path -/

/-- A path leads to a message by its first index, or from there on. -/
theorem descend_cons (found : descend messages (index :: rest) = some message) :
    ∃ outer, messages[index]? = some outer ∧
      (rest = [] ∧ message = outer ∨ descend outer.messages rest = some message) := by
  cases rest with
  | nil => exact ⟨message, found, .inl ⟨rfl, rfl⟩⟩
  | cons next rest =>
    obtain ⟨outer, outerFound, innerFound⟩ := Option.bind_eq_some_iff.mp found
    exact ⟨outer, outerFound, .inr innerFound⟩

/-- One may go on from the message at a path to a message in it. -/
theorem descend_append (found : descend messages path = some message)
    (innerFound : message.messages[index]? = some inner) :
    descend messages (path ++ [index]) = some inner := by
  induction path generalizing messages with
  | nil => cases found
  | cons first rest inductionHypothesis =>
    obtain ⟨outer, outerFound, ⟨rfl, rfl⟩ | found⟩ := descend_cons found
    · exact Option.bind_eq_some_iff.mpr ⟨message, outerFound, innerFound⟩
    · cases rest with
      | nil => cases found
      | cons next rest =>
        exact Option.bind_eq_some_iff.mpr ⟨outer, outerFound, inductionHypothesis found⟩

/-- Each message in a place is at some path. -/
theorem Place.exists_path {file : File} {around : List Message} (place : file.Place around) :
    ∀ message ∈ file.messagesAt around, ∃ path, file.messageAt? path = some message := by
  induction place with
  | top =>
    intro message member
    obtain ⟨index, found⟩ := List.mem_iff_getElem?.mp member
    exact ⟨[index], found⟩
  | inside _ parentMember inductionHypothesis =>
    intro message member
    obtain ⟨path, parentFound⟩ := inductionHypothesis _ parentMember
    obtain ⟨index, found⟩ := List.mem_iff_getElem?.mp member
    exact ⟨path ++ [index], descend_append parentFound found⟩

/-! ### Well-formed messages -/

/-- The message at a path is well formed as the message at that path, in which others may nest to
the depth that the path leaves. -/
theorem wellFormed_descend {edition : Option Edition} {depth : Nat} (ahead : MessagePath)
    (each : ∀ (index : Nat) (message : Message), messages[index]? = some message →
      message.WellFormed edition depth (ahead ++ [index]))
    (found : descend messages path = some message) :
    ∃ left, message.WellFormed edition left (ahead ++ path) ∧ path.length + left = depth + 1 := by
  induction path generalizing messages depth ahead with
  | nil => cases found
  | cons index rest inductionHypothesis =>
    obtain ⟨outer, outerFound, ⟨rfl, rfl⟩ | found⟩ := descend_cons found
    · exact ⟨depth, each index message outerFound, Nat.add_comm 1 depth⟩
    · have wellFormed := each index outer outerFound
      cases depth with
      | zero => cases wellFormed
      | succ depth =>
        obtain ⟨left, inner, total⟩ := inductionHypothesis _ wellFormed.2.1.messages found
        refine ⟨left, List.append_cons ahead index rest ▸ inner, ?_⟩
        rw [List.length_cons, Nat.add_right_comm, total]

/-! ### Places in the source -/

/-- A message in another starts inside it: the name of the outer one stands in between. -/
theorem starts_inside (placed : message.outline.WellPlaced source)
    (member : inner ∈ message.messages) :
    message.span.start < inner.span.start ∧ inner.span.start < message.span.stop ∧
      inner.span.stop ≤ message.span.stop := by
  have interior := Message.Interior.of_placed placed
  obtain ⟨-, -, some, within⟩ := interior.messages inner member
  have name := interior.name
  have behind := interior.behindName.1 inner member
  exact ⟨Nat.lt_of_le_of_lt name.1 (Nat.lt_of_lt_of_le name.2.1 behind),
    Nat.lt_of_lt_of_le some within, within⟩

theorem descend_starts_inside (placed : message.outline.WellPlaced source)
    (found : descend message.messages path = some inner) :
    message.span.start < inner.span.start ∧ inner.span.start < message.span.stop := by
  induction path generalizing message with
  | nil => cases found
  | cons index rest inductionHypothesis =>
    obtain ⟨outer, outerFound, ⟨rfl, rfl⟩ | found⟩ := descend_cons found
    all_goals
      have member := List.mem_of_getElem? outerFound
      obtain ⟨behind, inside, within⟩ := starts_inside placed member
    · exact ⟨behind, inside⟩
    · obtain ⟨later, earlier⟩ :=
        inductionHypothesis ((Message.Interior.of_placed placed).messages outer member).1 found
      exact ⟨Nat.lt_trans behind later, Nat.lt_of_lt_of_le earlier within⟩

/-- A message that a path leads to through another starts within that one. -/
theorem starts_within (placed : message.outline.WellPlaced source)
    (found : rest = [] ∧ inner = message ∨ descend message.messages rest = some inner) :
    message.span.start ≤ inner.span.start ∧ inner.span.start < message.span.stop := by
  rcases found with ⟨-, rfl⟩ | found
  · have some := placed.some
    rw [Message.span_outline] at some
    exact ⟨Nat.le_refl _, some⟩
  · obtain ⟨later, earlier⟩ := descend_starts_inside placed found
    exact ⟨Nat.le_of_lt later, earlier⟩

/-- Of messages in order, only one is around a given position. -/
theorem index_unique {first second : Nat} {other : Message} {position : Nat}
    (inOrder : messages.Pairwise fun first second => first.span.stop ≤ second.span.start)
    (found : messages[first]? = some message) (otherFound : messages[second]? = some other)
    (inside : message.span.start ≤ position ∧ position < message.span.stop)
    (otherInside : other.span.start ≤ position ∧ position < other.span.stop) :
    first = second := by
  obtain ⟨bound, rfl⟩ := List.getElem?_eq_some_iff.mp found
  obtain ⟨otherBound, rfl⟩ := List.getElem?_eq_some_iff.mp otherFound
  have ordered := List.pairwise_iff_getElem.mp inOrder
  rcases Nat.lt_trichotomy first second with before | same | behind
  · have apart := ordered first second bound otherBound before
    omega
  · exact same
  · have apart := ordered second first otherBound bound behind
    omega

/-- Only one path leads to a message that starts at a given position. -/
theorem descend_injective {first second : MessagePath} {other : Message}
    (placed : ∀ message ∈ messages, message.outline.WellPlaced source)
    (inOrder : messages.Pairwise fun first second => first.span.stop ≤ second.span.start)
    (found : descend messages first = some message)
    (otherFound : descend messages second = some other)
    (same : message.span.start = other.span.start) : first = second := by
  induction first generalizing messages second with
  | nil => cases found
  | cons index rest inductionHypothesis =>
    cases second with
    | nil => cases otherFound
    | cons otherIndex otherRest =>
      obtain ⟨outer, outerFound, found⟩ := descend_cons found
      obtain ⟨otherOuter, otherOuterFound, otherFound⟩ := descend_cons otherFound
      have outerPlaced := placed outer (List.mem_of_getElem? outerFound)
      have otherPlaced := placed otherOuter (List.mem_of_getElem? otherOuterFound)
      obtain rfl : index = otherIndex :=
        index_unique inOrder outerFound otherOuterFound (starts_within outerPlaced found)
          (same ▸ starts_within otherPlaced otherFound)
      obtain rfl := Option.some.inj (outerFound.symm.trans otherOuterFound)
      rcases found with ⟨rfl, rfl⟩ | found <;> rcases otherFound with ⟨rfl, rfl⟩ | otherFound
      · rfl
      · exact absurd same (Nat.ne_of_lt (descend_starts_inside outerPlaced otherFound).1)
      · exact absurd same.symm (Nat.ne_of_lt (descend_starts_inside outerPlaced found).1)
      · have interior := Message.Interior.of_placed outerPlaced
        exact congrArg (index :: ·) (inductionHypothesis
          (fun message member => (interior.messages message member).1) interior.messagesInOrder
          found otherFound)

/-! ### Resolving -/

/-- At a path among resolved messages is what was there, resolved in some scopes. -/
theorem exists_of_descend_resolve {table : SymbolTable} {scopes : List String}
    (found : descend (messages.map (table.resolveMessage scopes)) path = some message) :
    ∃ original inner, descend messages path = some original ∧
      message = table.resolveMessage inner original := by
  induction path generalizing messages scopes with
  | nil => cases found
  | cons index rest inductionHypothesis =>
    obtain ⟨outer, outerFound, found⟩ := descend_cons found
    rw [List.getElem?_map] at outerFound
    obtain ⟨original, originalFound, rfl⟩ := Option.map_eq_some_iff.mp outerFound
    rcases found with ⟨rfl, rfl⟩ | found
    · exact ⟨original, scopes, originalFound, rfl⟩
    · rw [SymbolTable.resolveMessage_eq] at found
      obtain ⟨nested, inner, nestedFound, rfl⟩ := inductionHypothesis found
      refine ⟨nested, inner, ?_, rfl⟩
      cases rest with
      | nil => cases nestedFound
      | cons next rest => exact Option.bind_eq_some_iff.mpr ⟨original, originalFound, nestedFound⟩

end File

end ProtoSchema
