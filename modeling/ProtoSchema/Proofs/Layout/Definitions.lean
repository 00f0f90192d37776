/-
This file compares the order in which definitions are listed with that of the
source. A definition listed earlier stands earlier, unless declarations of another
kind are written between: then it is the name of a message behind that of an enum
beside it, or of a message or an enum behind that of a service. The parts of a
package may stand anywhere, but no other definition has their names.
-/

import ProtoSchema.Proofs.Layout.Messages
import ProtoSchema.Proofs.Tree.Definitions

namespace ProtoSchema

variable {source : List Char} {stream : List Lexeme}

/-! ### Places -/

/-- The first definition stands before the second, or it is listed in another order. -/
def Definition.Listed (stream : List Lexeme) (first second : Definition) : Prop :=
  first.span.Before second.span.start ∨ Inverted stream first.span second.span

namespace Definition

variable {scope : String} {nested : Bool} {definition first second : Definition}

theorem listed_of_behind {place other : Span} (here : first.span.Between place.start place.stop)
    (there : second.span.Between other.start other.stop) (ahead : place.stop ≤ other.start) :
    first.Listed stream second :=
  .inl ⟨here.2.1, Nat.le_trans here.2.2 (Nat.le_trans ahead there.1)⟩

/-- Definitions in declarations one behind another. -/
theorem listed_flatMap {Entry : Type} {entries : List Entry} {spanOf : Entry → Span}
    {definitionsOf : Entry → List Definition}
    (inOrder : entries.Pairwise fun entry other => (spanOf entry).stop ≤ (spanOf other).start)
    (between : ∀ entry ∈ entries, ∀ definition ∈ definitionsOf entry,
      definition.span.Between (spanOf entry).start (spanOf entry).stop)
    (each : ∀ entry ∈ entries, (definitionsOf entry).Pairwise (Listed stream)) :
    (entries.flatMap definitionsOf).Pairwise (Listed stream) := by
  refine List.pairwise_flatMap.mpr ⟨each, inOrder.imp_of_mem ?_⟩
  exact fun {entry other} member otherMember ahead definition definitionMember another
    anotherMember => listed_of_behind (between entry member definition definitionMember)
      (between other otherMember another anotherMember) ahead

/-- A name in front of definitions that stand behind it in their order. -/
theorem listed_cons {Entry : Type} {entries : List Entry} {spanOf : Entry → Span}
    {definitionOf : Entry → Definition} {start stop : Nat}
    (here : definition.span.Between start stop)
    (behind : ∀ entry ∈ entries, definition.span.stop ≤ (spanOf entry).start)
    (inOrder : entries.Pairwise fun entry other => (spanOf entry).stop ≤ (spanOf other).start)
    (between : ∀ entry ∈ entries,
      (definitionOf entry).span.Between (spanOf entry).start (spanOf entry).stop) :
    (definition :: entries.map definitionOf).Pairwise (Listed stream) := by
  refine List.pairwise_cons.mpr ⟨List.forall_mem_map.mpr fun entry member => ?_,
    List.pairwise_map.mpr (inOrder.imp_of_mem fun {entry other} member otherMember ahead => ?_)⟩
  · exact listed_of_behind here.whole (between entry member) (behind entry member)
  · exact listed_of_behind (between entry member) (between other otherMember) ahead

/-! ### Enums and services -/

theorem between_ofEnum {enumeration : Enumeration} (interior : enumeration.Interior source) :
    ∀ definition ∈ ofEnum scope nested enumeration,
      definition.span.Between enumeration.span.start enumeration.span.stop := by
  refine List.forall_mem_cons.mpr ⟨interior.name, List.forall_mem_map.mpr fun value member => ?_⟩
  have whole := interior.values value member
  exact (interior.inValues value member).1.widen whole.1 whole.2.2

theorem listed_ofEnum {enumeration : Enumeration} (interior : enumeration.Interior source) :
    (ofEnum scope nested enumeration).Pairwise (Listed stream) :=
  listed_cons interior.name interior.behindName interior.valuesInOrder
    fun value member => (interior.inValues value member).1

theorem between_ofService {service : Service} (interior : service.Interior) :
    ∀ definition ∈ ofService scope service,
      definition.span.Between service.span.start service.span.stop := by
  refine List.forall_mem_cons.mpr ⟨interior.name, List.forall_mem_map.mpr fun method member => ?_⟩
  have whole := interior.methods method member
  exact (interior.inMethods method member).name.widen whole.1 whole.2.2

theorem listed_ofService {service : Service} (interior : service.Interior) :
    (ofService scope service).Pairwise (Listed stream) :=
  listed_cons interior.name interior.behindName interior.methodsInOrder
    fun method member => (interior.inMethods method member).name

/-! ### Messages -/

theorem between_ofMessage {message : Message} (placed : message.outline.WellPlaced source) :
    ∀ definition ∈ ofMessage scope nested message,
      definition.span.Between message.span.start message.span.stop := by
  induction message using Message.induction generalizing scope nested with
  | step message inductionHypothesis =>
    have interior := Message.Interior.of_placed placed
    rw [ofMessage_eq]
    refine List.forall_mem_cons.mpr ⟨interior.name, List.forall_mem_append.mpr
      ⟨List.forall_mem_flatMap.mpr fun inner member definition inside => ?_,
        List.forall_mem_flatMap.mpr fun enumeration member definition inside => ?_⟩⟩
    · obtain ⟨innerPlaced, whole⟩ := interior.messages inner member
      exact (inductionHypothesis inner member innerPlaced definition inside).widen whole.1 whole.2.2
    · obtain ⟨enumPlaced, whole⟩ := interior.enums enumeration member
      exact (between_ofEnum (Enumeration.Interior.of_placed enumPlaced) definition inside).widen whole.1
        whole.2.2

/-- The definitions in the messages and the enums of one block. -/
theorem listed_block {messages : List Message} {enums : List Enumeration}
    (block : Siblings stream messages enums)
    (placedMessages : ∀ message ∈ messages, message.outline.WellPlaced source)
    (placedEnums : ∀ enumeration ∈ enums, enumeration.outline.WellPlaced source)
    (messagesInOrder : messages.Pairwise fun first second => first.span.stop ≤ second.span.start)
    (enumsInOrder : enums.Pairwise fun first second => first.span.stop ≤ second.span.start)
    (apart : ∀ message ∈ messages, ∀ enumeration ∈ enums, message.span.Apart enumeration.span)
    (each : ∀ message ∈ messages, (ofMessage scope nested message).Pairwise (Listed stream)) :
    (messages.flatMap (ofMessage scope nested) ++
      enums.flatMap (ofEnum scope nested)).Pairwise (Listed stream) := by
  have inMessages : ∀ message ∈ messages, ∀ definition ∈ ofMessage scope nested message,
      definition.span.Between message.span.start message.span.stop :=
    fun message member => between_ofMessage (placedMessages message member)
  have inEnums : ∀ enumeration ∈ enums, ∀ definition ∈ ofEnum scope nested enumeration,
      definition.span.Between enumeration.span.start enumeration.span.stop :=
    fun enumeration member => between_ofEnum (Enumeration.Interior.of_placed (placedEnums enumeration member))
  refine List.pairwise_append.mpr ⟨listed_flatMap messagesInOrder inMessages each,
    listed_flatMap enumsInOrder inEnums fun enumeration member =>
      listed_ofEnum (Enumeration.Interior.of_placed (placedEnums enumeration member)), ?_⟩
  refine List.forall_mem_flatMap.mpr fun message member first firstMember =>
    List.forall_mem_flatMap.mpr fun enumeration enumMember second secondMember => ?_
  have here := inMessages message member first firstMember
  have there := inEnums enumeration enumMember second secondMember
  rcases apart message member enumeration enumMember with ahead | behind
  · exact listed_of_behind here there ahead
  · exact .inr (.enum block member enumMember here there behind)

theorem listed_ofMessage {message : Message} (placed : message.outline.WellPlaced source)
    (block : Siblings stream message.messages message.enums) :
    (ofMessage scope nested message).Pairwise (Listed stream) := by
  induction message using Message.induction generalizing scope nested with
  | step message inductionHypothesis =>
    have interior := Message.Interior.of_placed placed
    rw [ofMessage_eq]
    refine List.pairwise_cons.mpr ⟨List.forall_mem_append.mpr
      ⟨List.forall_mem_flatMap.mpr fun inner member definition inside => ?_,
        List.forall_mem_flatMap.mpr fun enumeration member definition inside => ?_⟩,
      listed_block block (fun inner member => (interior.messages inner member).1)
        (fun enumeration member => (interior.enums enumeration member).1)
        interior.messagesInOrder interior.enumsInOrder interior.enumsApart fun inner member => ?_⟩
    · exact listed_of_behind interior.name.whole
        (between_ofMessage (interior.messages inner member).1 definition inside)
        (interior.behindName.1 inner member)
    · exact listed_of_behind interior.name.whole
        (between_ofEnum (Enumeration.Interior.of_placed (interior.enums enumeration member).1) definition
          inside)
        (interior.behindName.2 enumeration member)
    · exact inductionHypothesis inner member (interior.messages inner member).1
        (.nested block member)

end Definition

/-! ### Names in a scope -/

theorem length_le_length_qualify (scope name : String) :
    scope.length ≤ (qualify scope name).length := by
  rw [qualify]
  split
  · next none =>
    rw [none]
    exact Nat.zero_le _
  · rw [String.length_append, String.length_append]
    omega

/-- What is named in a scope has a longer name than the scope. -/
theorem length_lt_length_qualify {scope : String} (some : scope ≠ "") (name : String) :
    scope.length < (qualify scope name).length := by
  have dot : ".".length = 1 := rfl
  rw [qualify, if_neg some, String.length_append, String.length_append]
  omega

theorem qualify_ne_empty {scope : String} (some : scope ≠ "") (name : String) :
    qualify scope name ≠ "" := by
  intro none
  have longer := length_lt_length_qualify some name
  rw [none] at longer
  exact absurd longer (Nat.not_lt_zero _)

namespace Definition

variable {scope : String} {nested : Bool}

theorem longer_ofEnum {enumeration : Enumeration} (some : scope ≠ "") :
    ∀ definition ∈ ofEnum scope nested enumeration,
      scope.length < definition.fullName.length :=
  List.forall_mem_cons.mpr ⟨length_lt_length_qualify some _,
    List.forall_mem_map.mpr fun _ _ => length_lt_length_qualify some _⟩

theorem longer_ofService {service : Service} (some : scope ≠ "") :
    ∀ definition ∈ ofService scope service, scope.length < definition.fullName.length := by
  have longer := length_lt_length_qualify some service.name.text
  refine List.forall_mem_cons.mpr ⟨longer, List.forall_mem_map.mpr fun method _ => ?_⟩
  exact Nat.lt_of_lt_of_le longer (length_le_length_qualify _ _)

theorem longer_ofMessage {message : Message} (some : scope ≠ "") :
    ∀ definition ∈ ofMessage scope nested message,
      scope.length < definition.fullName.length := by
  induction message using Message.induction generalizing scope nested with
  | step message inductionHypothesis =>
    have longer := length_lt_length_qualify some message.name.text
    have inner := qualify_ne_empty some message.name.text
    rw [ofMessage_eq]
    refine List.forall_mem_cons.mpr ⟨longer, List.forall_mem_append.mpr
      ⟨List.forall_mem_flatMap.mpr fun nested member definition inside => ?_,
        List.forall_mem_flatMap.mpr fun enumeration _ definition inside => ?_⟩⟩
    · exact Nat.lt_trans longer (inductionHypothesis nested member inner definition inside)
    · exact Nat.lt_trans longer (longer_ofEnum inner definition inside)

/-! ### Packages -/

/-- The name that parts make up behind a scope. -/
theorem length_le_length_foldl (scope : String) (parts : List Name) :
    scope.length ≤ (parts.foldl (fun scope part => qualify scope part.text) scope).length := by
  induction parts generalizing scope with
  | nil => exact Nat.le_refl _
  | cons part rest inductionHypothesis =>
    exact Nat.le_trans (length_le_length_qualify scope part.text) (inductionHypothesis _)

/-- The names of the parts of a package are no longer than the whole, and none is empty. -/
theorem shorter_ofParts {parts : List Name} (some : ∀ part ∈ parts, part.text ≠ "") (start : Nat)
    (scope : String) :
    ∀ definition ∈ ofParts start scope parts, definition.fullName ≠ "" ∧
      definition.fullName.length ≤
        (parts.foldl (fun scope part => qualify scope part.text) scope).length := by
  induction parts generalizing scope with
  | nil => exact fun _ member => absurd member List.not_mem_nil
  | cons part rest inductionHypothesis =>
    obtain ⟨first, others⟩ := List.forall_mem_cons.mp some
    refine List.forall_mem_cons.mpr ⟨⟨?_, length_le_length_foldl _ rest⟩,
      inductionHypothesis others _⟩
    by_cases empty : scope = ""
    · rwa [empty, qualify_empty]
    · exact qualify_ne_empty empty part.text

end Definition

/-- A name that stands in a source has letters. -/
theorem Name.text_ne_empty {name : Name} (placed : name.outline.WellPlaced source) :
    name.text ≠ "" := by
  intro none
  have some := placed.some
  cases placed with
  | node _ _ spelled =>
    obtain ⟨before, behind, -, place⟩ := spelled name.text rfl
    rw [span_outline, place, none] at some
    exact absurd some (Nat.lt_irrefl _)

/-- The places of what the checks of a file look at in a package. -/
structure Package.Interior (package : Package) : Prop where
  name : package.name.span.Between package.span.start package.span.stop
  parts : ∀ part ∈ package.name.parts, part.text ≠ "" ∧
    part.span.Between package.name.span.start package.name.span.stop
  partsInOrder : package.name.parts.Pairwise fun first second =>
    first.span.stop ≤ second.span.start

theorem Package.Interior.of_placed {package : Package} (placed : package.outline.WellPlaced source) :
    package.Interior := by
  have laid := placed.parts
  have named : package.name.outline.WellPlaced source :=
    laid.each _ List.mem_cons_self _ List.mem_cons_self
  obtain ⟨parts, partsInOrder⟩ := named.parts.entries List.mem_cons_self
  exact ⟨laid.arranged.between _ List.mem_cons_self package.name.outline List.mem_cons_self,
    fun part member => ⟨Name.text_ne_empty (parts part member).1, (parts part member).2⟩,
    partsInOrder⟩

namespace Definition

theorem between_ofPackage {package : Package} (interior : package.Interior) :
    ∀ definition ∈ ofPackage package,
      definition.span.Between package.span.start package.span.stop := by
  suffices parts : ∀ (parts : List Name) (scope : String), parts ⊆ package.name.parts →
      ∀ definition ∈ ofParts package.name.span.start scope parts,
        definition.span.Between package.span.start package.span.stop from
    parts package.name.parts "" (List.Subset.refl _)
  intro parts
  induction parts with
  | nil => exact fun _ _ _ member => absurd member List.not_mem_nil
  | cons part rest inductionHypothesis =>
    intro scope subset
    obtain ⟨member, others⟩ := List.cons_subset.mp subset
    refine List.forall_mem_cons.mpr ⟨?_, inductionHypothesis _ others⟩
    have whole := interior.name
    have inside := (interior.parts part member).2
    exact ⟨whole.1, Nat.lt_of_le_of_lt inside.1 inside.2.1, Nat.le_trans inside.2.2 whole.2.2⟩

end Definition

end ProtoSchema
