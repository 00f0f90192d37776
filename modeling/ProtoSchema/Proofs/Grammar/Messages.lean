/-
This file shows what the parser of messages answers. Every member of the body
keeps the message well formed, and the depth to which messages nest is that to
which the parser lets them. A field whose label was the word `required` is
counted wherever it stands in the message.
-/

import Mathlib.Algebra.GroupWithZero.Nat
import ProtoSchema.Proofs.Canonical.Messages
import ProtoSchema.Proofs.Grammar.Declarations

namespace ProtoSchema

namespace Message

/-- How many fields in the message were written with a label that is not printed. -/
def droppedLabels (message : Message) : Nat :=
  (message.everyField.map Field.droppedLabels).sum

theorem droppedLabels_eq (message : Message) :
    message.droppedLabels = (message.fields.map Field.droppedLabels).sum +
      (message.messages.map droppedLabels).sum := by
  rw [droppedLabels, everyField_eq, List.map_append, List.sum_append]
  induction message.messages with
  | nil => rfl
  | cons first others inductionHypothesis =>
    simp only [List.flatMap_cons, List.map_append, List.sum_append, List.map_cons, List.sum_cons]
    simp only [droppedLabels] at inductionHypothesis ⊢
    omega

/-- The words that a message costs, those of its dropped labels included. -/
def cost (message : Message) : Nat := requiredWords message.tokens + message.droppedLabels

theorem cost_eq (message : Message) :
    message.cost = (if message.name.text = "required" then 1 else 0) +
      (requiredWords (message.options.flatMap OptionStatement.tokens) +
        requiredWords (message.reserved.flatMap Reserved.tokens) +
        requiredWords (message.extensionRanges.flatMap ExtensionRanges.tokens) +
        requiredWords (message.fields.flatMap Field.tokens) +
        requiredWords (message.oneofs.flatMap Oneof.tokens) +
        requiredWords (message.messages.flatMap Message.tokens) +
        requiredWords (message.enums.flatMap Enumeration.tokens) +
        requiredWords (message.extensions.flatMap Extension.tokens)) +
      (message.fields.map Field.droppedLabels).sum + (message.messages.map droppedLabels).sum := by
  rw [cost, tokens_eq, droppedLabels_eq]
  simp
  omega

end Message

namespace Parser

variable {declared : Option Edition} {input : List Token}

/-- What is asked of the parser of nested messages. -/
def EnsuresNested (declared : Option Edition) (nested : MessagePath → Parser Message)
    (isNested : MessagePath → Message → Prop) : Prop :=
  ∀ path input, Ensures declared input (nested path) fun found rest =>
    isNested path found ∧ found.cost + requiredWords rest ≤ requiredWords input

theorem ensuresMember_message {nested : MessagePath → Parser Message}
    {isNested : MessagePath → Message → Prop} (inner : EnsuresNested declared nested isNested)
    (path : MessagePath) :
    EnsuresMember declared (messageMember nested path)
      (fun message => message.name.WellFormed ∧ message.Members declared isNested path)
      Message.cost := by
  rintro message next rest parser ⟨name, members⟩ found
  have field : (∀ word, (next :: rest).head? = some (.word word) →
      word ∉ FieldContext.message.memberWords) →
      Ensures declared (next :: rest) (Parser.field .message >>= fun field =>
        pure { message with fields := message.fields ++ field.toList }) fun following left =>
          (following.name.WellFormed ∧ following.Members declared isNested path) ∧
            following.cost + requiredWords left ≤ message.cost + requiredWords (next :: rest) := by
    intro leads
    refine (ensures_field leads).bind ?_
    rintro _ left ⟨field, rfl, wellFormed, words⟩
    refine Ensures.pure ⟨⟨name, ?_⟩, ?_⟩
    · exact { members with fields := forall_mem_concat members.fields wellFormed }
    · simp [Message.cost_eq] at words ⊢
      omega
  unfold messageMember at found
  split at found
  · next text =>
    split_ifs at found with isMessage isEnum isOneof isReserved isExtensions isOption isExtend
    all_goals obtain rfl := Option.some.inj found
    · refine (inner _ _).bind ?_
      rintro nestedMessage left ⟨wellFormed, words⟩
      refine Ensures.pure ⟨⟨name, ?_⟩, ?_⟩
      · exact { members with messages := forall_getElem?_concat members.messages wellFormed }
      · rw [Message.cost] at words
        simp [Message.cost_eq] at words ⊢
        omega
    · refine ensures_enumeration.bind ?_
      rintro enumeration left ⟨wellFormed, words⟩
      refine Ensures.pure ⟨⟨name, ?_⟩, ?_⟩
      · exact { members with enums := forall_mem_concat members.enums wellFormed }
      · simp [Message.cost_eq] at words ⊢
        omega
    · refine (ensures_oneof _).bind ?_
      rintro oneof left ⟨wellFormed, words⟩
      refine Ensures.pure ⟨⟨name, ?_⟩, ?_⟩
      · exact { members with oneofs := forall_getElem?_concat members.oneofs wellFormed }
      · simp [Message.cost_eq] at words ⊢
        omega
    · refine ensures_reserved.bind ?_
      rintro reserved left ⟨wellFormed, words⟩
      refine Ensures.pure ⟨⟨name, ?_⟩, ?_⟩
      · exact { members with reserved := forall_mem_concat members.reserved wellFormed }
      · simp [Message.cost_eq] at words ⊢
        omega
    · refine ensures_extensionRanges.bind ?_
      rintro ranges left ⟨wellFormed, words⟩
      refine Ensures.pure ⟨⟨name, ?_⟩, ?_⟩
      · exact { members with
          extensionRanges := forall_mem_concat members.extensionRanges wellFormed }
      · simp [Message.cost_eq] at words ⊢
        omega
    · refine ensures_optionStatement.bind ?_
      rintro option left ⟨wellFormed, words⟩
      refine Ensures.pure ⟨⟨name, ?_⟩, ?_⟩
      · exact { members with options := forall_mem_concat members.options wellFormed }
      · simp [Message.cost_eq] at words ⊢
        omega
    · refine (ensures_extension _).bind ?_
      rintro extension left ⟨wellFormed, words⟩
      refine Ensures.pure ⟨⟨name, ?_⟩, ?_⟩
      · exact { members with extensions := forall_mem_concat members.extensions wellFormed }
      · simp [Message.cost_eq] at words ⊢
        omega
    · refine field ?_
      rintro word head
      obtain rfl : text = word := by simpa using head
      simp [FieldContext.memberWords, *]
  · obtain rfl := Option.some.inj found
    exact field (by simp)
  · cases found

theorem ensures_message (depth : Nat) :
    EnsuresNested declared (Parser.message depth) (Message.WellFormed declared depth) := by
  induction depth with
  | zero =>
    intro path input
    exact Ensures.expect fun _ _ _ => Ensures.stop
  | succ depth inductionHypothesis =>
    intro path input
    refine ensures_header ?_
    rintro comments start name trailing rest rfl wellFormed
    refine (ensures_body (ensuresMember_message inductionHypothesis path) ⟨wellFormed, ?_⟩).bind ?_
    · constructor <;> simp
    · rintro ⟨read, stop⟩ left ⟨⟨name, members⟩, words⟩
      refine Ensures.report fun sound => Ensures.pure ⟨⟨name, ?_, sound⟩, ?_⟩
      · exact ⟨members.fields, members.oneofs, members.messages, members.enums,
          members.extensions, members.extensionRanges, members.options, members.reserved⟩
      · simp [Message.cost_eq] at words ⊢
        omega

end Parser

end ProtoSchema
