/-
This file lists the messages of a file by their paths: a message before the
messages in it, and messages beside each other in order. Every message of the tree
is in the list once, since the paths in it increase, and what is put together for
the whole tree, message by message, is put together along the list.
-/

import Mathlib.Data.List.Enum
import Mathlib.Data.List.Lex
import Mathlib.Data.List.Perm.Basic
import ProtoSchema.Proofs.Tree.Definitions

namespace ProtoSchema

namespace Message

/-! ### Paths from a message -/

/-- The message at a path from a message; the empty path leads to that message. -/
def at? (message : Message) : MessagePath → Option Message
  | [] => some message
  | index :: rest => message.messages[index]?.bind fun inner => inner.at? rest

/-- The names of the messages along a path from a message, its own in front. -/
def namesTo (message : Message) : MessagePath → List String
  | [] => [message.name.text]
  | index :: rest =>
    message.name.text :: message.messages[index]?.elim [] fun inner => inner.namesTo rest

mutual

/-- The paths from a message to itself and to the messages in it. -/
def positions : Message → List MessagePath
  | ⟨_, _, _, messages, _, _, _, _, _, _, _⟩ => [] :: positionsFrom 0 messages

/-- The paths to the messages of a list, and in them, whose first has the given index. -/
def positionsFrom (index : Nat) : List Message → List MessagePath
  | [] => []
  | message :: rest => message.positions.map (index :: ·) ++ positionsFrom (index + 1) rest

end

theorem positionsFrom_eq (index : Nat) (messages : List Message) :
    positionsFrom index messages =
      (messages.zipIdx index).flatMap fun indexed =>
        indexed.1.positions.map (indexed.2 :: ·) := by
  induction messages generalizing index with
  | nil => rfl
  | cons message rest inductionHypothesis =>
    rw [positionsFrom, inductionHypothesis, List.zipIdx_cons, List.flatMap_cons]

theorem positions_eq (message : Message) :
    message.positions = [] :: positionsFrom 0 message.messages := by
  cases message
  rw [positions]

variable {messages : List Message} {message : Message} {path : MessagePath}

/-! ### What the paths lead to -/

/-- The paths of a list lead into one of its messages. -/
theorem mem_positionsFrom :
    path ∈ positionsFrom 0 messages ↔
      ∃ index message rest, messages[index]? = some message ∧ rest ∈ message.positions ∧
        index :: rest = path := by
  rw [positionsFrom_eq, List.mem_flatMap]
  constructor
  · rintro ⟨⟨message, index⟩, indexed, member⟩
    obtain ⟨rest, restMember, eq⟩ := List.mem_map.mp member
    exact ⟨index, message, rest, List.mem_zipIdx_iff_getElem?.mp indexed, restMember, eq⟩
  · rintro ⟨index, message, rest, found, member, eq⟩
    exact ⟨(message, index), List.mem_zipIdx_iff_getElem?.mpr found,
      List.mem_map.mpr ⟨rest, member, eq⟩⟩

/-- The paths from a message are those that lead somewhere. -/
theorem mem_positions_iff (message : Message) :
    ∀ path, path ∈ message.positions ↔ (message.at? path).isSome := by
  induction message using Message.induction with
  | step message inductionHypothesis =>
    intro path
    cases path with
    | nil => simp [positions_eq, at?]
    | cons first rest =>
      rw [positions_eq, List.mem_cons, mem_positionsFrom, at?]
      constructor
      · rintro (eq | ⟨index, inner, others, found, member, eq⟩)
        · cases eq
        · cases eq
          rw [found, Option.bind_some]
          exact (inductionHypothesis inner (List.mem_of_getElem? found) _).mp member
      · intro leads
        obtain ⟨reached, leads⟩ := Option.isSome_iff_exists.mp leads
        obtain ⟨inner, found, leads⟩ := Option.bind_eq_some_iff.mp leads
        refine .inr ⟨first, inner, rest, found, ?_, rfl⟩
        rw [inductionHypothesis inner (List.mem_of_getElem? found), leads]
        rfl

/-! ### Their order -/

/-- If the paths from each message increase, so do those to a list of messages: those into one
message start with its index. -/
theorem pairwise_positionsFrom
    (each : ∀ message ∈ messages, message.positions.Pairwise (· < ·)) (index : Nat) :
    (positionsFrom index messages).Pairwise (· < ·) := by
  induction messages generalizing index with
  | nil => exact List.Pairwise.nil
  | cons message rest inductionHypothesis =>
    obtain ⟨first, others⟩ := List.forall_mem_cons.mp each
    rw [positionsFrom, List.pairwise_append, List.pairwise_map]
    refine ⟨first.imp fun smaller => List.cons_lt_cons_iff.mpr (.inr ⟨rfl, smaller⟩),
      inductionHypothesis others (index + 1), ?_⟩
    intro path member other otherMember
    obtain ⟨inside, -, rfl⟩ := List.mem_map.mp member
    rw [positionsFrom_eq, List.mem_flatMap] at otherMember
    obtain ⟨⟨next, nextIndex⟩, indexed, otherMember⟩ := otherMember
    obtain ⟨otherInside, -, rfl⟩ := List.mem_map.mp otherMember
    have behind : index + 1 ≤ nextIndex := (List.mem_zipIdx indexed).1
    exact List.cons_lt_cons_iff.mpr (.inl behind)

theorem pairwise_positions (message : Message) : message.positions.Pairwise (· < ·) := by
  induction message using Message.induction with
  | step message inductionHypothesis =>
    rw [positions_eq, List.pairwise_cons]
    refine ⟨fun path member => ?_, pairwise_positionsFrom inductionHypothesis 0⟩
    obtain ⟨index, -, rest, -, -, rfl⟩ := mem_positionsFrom.mp member
    exact List.nil_lt_cons _ _

/-! ### Going through a tree along its paths -/

variable {Entry : Type} {entries : MessagePath → List Entry}

/-- Along the paths to a list of messages go, in order, those into each message. -/
theorem flatMap_positionsFrom (messages : List Message) :
    (positionsFrom 0 messages).flatMap entries =
      messages.zipIdx.flatMap fun indexed =>
        indexed.1.positions.flatMap fun rest => entries (indexed.2 :: rest) := by
  simp only [positionsFrom_eq, List.flatMap_assoc, List.flatMap_map]

theorem flatMap_eq_zipIdx (entriesOf : Message → List Entry) (messages : List Message) :
    messages.flatMap entriesOf =
      messages.zipIdx.flatMap fun indexed => entriesOf indexed.1 := by
  conv_lhs => rw [← List.zipIdx_map_fst 0 messages, List.flatMap_map]

/-- What is put together along the paths to a list of messages, if that of each message is put
together along the paths into it. -/
theorem flatMap_eq_of_positions {entriesOf : Message → List Entry}
    (each : ∀ index message, messages[index]? = some message →
      entriesOf message = message.positions.flatMap fun rest => entries (index :: rest)) :
    messages.flatMap entriesOf = (positionsFrom 0 messages).flatMap entries := by
  rw [flatMap_positionsFrom, flatMap_eq_zipIdx]
  exact List.flatMap_congr fun indexed member =>
    each indexed.2 indexed.1 (List.mem_zipIdx_iff_getElem?.mp member)

theorem flatMap_perm_of_positions {entriesOf : Message → List Entry}
    (each : ∀ index message, messages[index]? = some message →
      (entriesOf message).Perm (message.positions.flatMap fun rest => entries (index :: rest))) :
    (messages.flatMap entriesOf).Perm ((positionsFrom 0 messages).flatMap entries) := by
  rw [flatMap_positionsFrom, flatMap_eq_zipIdx]
  exact List.Perm.flatMap_left _ fun indexed member =>
    each indexed.2 indexed.1 (List.mem_zipIdx_iff_getElem?.mp member)

end Message

namespace File

/-- The names of the messages along a path. -/
def namesTo (file : File) : MessagePath → List String
  | [] => []
  | index :: rest => file.messages[index]?.elim [] fun message => message.namesTo rest

/-- The paths to the messages of a file, each before those to the messages in it. -/
def positions (file : File) : List MessagePath := Message.positionsFrom 0 file.messages

variable {file : File} {path : MessagePath}

theorem descend_cons_eq (messages : List Message) (index : Nat) (rest : MessagePath) :
    descend messages (index :: rest) =
      messages[index]?.bind fun message => message.at? rest := by
  induction rest generalizing messages index with
  | nil => simp [descend, Message.at?]
  | cons next rest inductionHypothesis =>
    simp only [descend, Message.at?, inductionHypothesis]

/-- The paths to the messages are those that lead somewhere. -/
theorem mem_positions_iff : path ∈ file.positions ↔ (file.messageAt? path).isSome := by
  rw [positions, Message.mem_positionsFrom, messageAt?]
  constructor
  · rintro ⟨index, message, rest, found, member, rfl⟩
    rw [descend_cons_eq, found, Option.bind_some]
    exact (message.mem_positions_iff rest).mp member
  · intro leads
    obtain ⟨reached, leads⟩ := Option.isSome_iff_exists.mp leads
    cases path with
    | nil => cases leads
    | cons index rest =>
      rw [descend_cons_eq] at leads
      obtain ⟨message, found, leads⟩ := Option.bind_eq_some_iff.mp leads
      refine ⟨index, message, rest, found, ?_, rfl⟩
      rw [message.mem_positions_iff, leads]
      rfl

theorem pairwise_positions (file : File) : file.positions.Pairwise (· < ·) :=
  Message.pairwise_positionsFrom (fun message _ => message.pairwise_positions) 0

end File

end ProtoSchema
