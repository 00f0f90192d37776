/-
This file compares the names that types are looked up under with the tree they
stand in. A place in a file is given by the messages around it. In a well-formed
file the name of a place, relative to the package, determines the place, so an
enum is found under a name in a place exactly if it is declared there.
-/

import Mathlib.Data.List.Flatten
import Mathlib.Data.List.Nodup
import ProtoSchema.Proofs.Resolution.Resolve
import ProtoSchema.Proofs.Validation.FullNames

namespace ProtoSchema

/-! ### Names in a scope -/

theorem dot_notMem_of_isIdentifier {word : String} (identifier : isIdentifier word = true) :
    '.' ∉ word.toList := by
  rw [isIdentifier] at identifier
  split at identifier
  · next empty =>
    rw [empty]
    exact List.not_mem_nil
  · next first rest eq =>
    rw [Bool.and_eq_true, List.all_eq_true] at identifier
    rw [eq, List.mem_cons]
    rintro (rfl | member)
    · exact absurd identifier.1 (by decide)
    · exact absurd (identifier.2 '.' member) (by decide)

/-- What stands before and after the last dot is determined. -/
theorem append_dot_injective {first second firstRest secondRest : List Char}
    (firstPlain : '.' ∉ firstRest) (secondPlain : '.' ∉ secondRest)
    (same : first ++ '.' :: firstRest = second ++ '.' :: secondRest) :
    first = second ∧ firstRest = secondRest := by
  rcases List.append_eq_append_iff.mp same with ⟨between, rfl, eq⟩ | ⟨between, rfl, eq⟩
  · cases between with
    | nil => exact ⟨(List.append_nil _).symm, (List.cons.inj eq).2⟩
    | cons character between =>
      refine absurd ?_ firstPlain
      rw [(List.cons.inj eq).2]
      exact List.mem_append_right _ List.mem_cons_self
  · cases between with
    | nil => exact ⟨List.append_nil _, (List.cons.inj eq).2.symm⟩
    | cons character between =>
      refine absurd ?_ secondPlain
      rw [(List.cons.inj eq).2]
      exact List.mem_append_right _ List.mem_cons_self

/-- An identifier in a scope determines the scope and the identifier. -/
theorem qualify_injective {firstScope secondScope first second : String}
    (firstIdentifier : isIdentifier first = true) (secondIdentifier : isIdentifier second = true)
    (same : qualify firstScope first = qualify secondScope second) :
    firstScope = secondScope ∧ first = second := by
  have firstPlain := dot_notMem_of_isIdentifier firstIdentifier
  have secondPlain := dot_notMem_of_isIdentifier secondIdentifier
  have dotted (scope name : String) : '.' ∈ (scope ++ "." ++ name).toList := by
    simp
  rw [qualify, qualify] at same
  split at same
  · next firstEmpty =>
    split at same
    · next secondEmpty => exact ⟨firstEmpty.trans secondEmpty.symm, same⟩
    · exact absurd (same ▸ dotted secondScope second) firstPlain
  · split at same
    · exact absurd (same ▸ dotted firstScope first) secondPlain
    · have characters := congrArg String.toList same
      simp only [String.toList_append, List.append_assoc] at characters
      obtain ⟨scopes, names⟩ := append_dot_injective firstPlain secondPlain characters
      exact ⟨String.toList_inj.mp scopes, String.toList_inj.mp names⟩

/-! ### Bare names -/

/-- A bare name is classified as a message exactly if it is not classified as an enum. -/
theorem SymbolTable.classifyBare_eq_message_iff (table : SymbolTable) (scopes : List String)
    (name : String) :
    table.classifyBare scopes name = .message ↔
      ¬ table.classifyBare scopes name = .enumeration := by
  rw [classifyBare]
  split <;> simp

/-! ### Places -/

/-- The names that resolving looks in inside the given messages, the innermost first. -/
def scopesOf : List Message → List String
  | [] => []
  | message :: around => SymbolTable.enter (scopesOf around) message

/-- The name of a place, relative to the package. -/
def pathOf (around : List Message) : String := (scopesOf around).headD ""

theorem pathOf_cons (message : Message) (around : List Message) :
    pathOf (message :: around) = qualify (pathOf around) message.name.text := rfl

namespace File

variable {file : File} {around : List Message}

/-- The messages declared directly in the innermost of the given messages, or else at the top. -/
def messagesAt (file : File) : List Message → List Message
  | [] => file.messages
  | parent :: _ => parent.messages

/-- The enums declared directly in the innermost of the given messages, or else at the top. -/
def enumsAt (file : File) : List Message → List Enumeration
  | [] => file.enums
  | parent :: _ => parent.enums

/-- The given messages are those around a place of the file, the innermost first. -/
inductive Place (file : File) : List Message → Prop
  | top : Place file []
  | inside {message : Message} {around : List Message} :
    Place file around → message ∈ file.messagesAt around → Place file (message :: around)

/-! ### Well-formed places -/

theorem WellFormed.messageAt (wellFormed : file.WellFormed) (place : file.Place around) :
    ∀ message ∈ file.messagesAt around,
      ∃ depth path, message.WellFormed file.declaredEdition depth path := by
  induction place with
  | top =>
    intro message member
    obtain ⟨index, found⟩ := List.mem_iff_getElem?.mp member
    exact ⟨_, _, wellFormed.members.messages index message found⟩
  | @inside parent _ _ parentMember inductionHypothesis =>
    intro message member
    obtain ⟨index, found⟩ := List.mem_iff_getElem?.mp member
    obtain ⟨depth, path, parentWellFormed⟩ := inductionHypothesis parent parentMember
    cases depth with
    | zero => cases parentWellFormed
    | succ depth => exact ⟨_, _, parentWellFormed.2.1.messages index message found⟩

theorem WellFormed.isIdentifier_messageAt (wellFormed : file.WellFormed)
    (place : file.Place around) {message : Message} (member : message ∈ file.messagesAt around) :
    isIdentifier message.name.text = true := by
  obtain ⟨depth, path, messageWellFormed⟩ := wellFormed.messageAt place message member
  cases depth with
  | zero => cases messageWellFormed
  | succ depth => exact messageWellFormed.1

theorem WellFormed.isIdentifier_enumAt (wellFormed : file.WellFormed)
    (place : file.Place around) {enumeration : Enumeration}
    (member : enumeration ∈ file.enumsAt around) :
    isIdentifier enumeration.name.text = true := by
  cases place with
  | top => exact (wellFormed.members.enums enumeration member).name
  | @inside parent _ outer parentMember =>
    obtain ⟨depth, path, parentWellFormed⟩ := wellFormed.messageAt outer parent parentMember
    cases depth with
    | zero => cases parentWellFormed
    | succ depth => exact (parentWellFormed.2.1.enums enumeration member).name

/-- The messages and enums at the top have names of their own, for their full names are. -/
theorem WellFormed.distinct_top (wellFormed : file.WellFormed) :
    Distinct (file.messages.map Message.name ++ file.enums.map Enumeration.name) := by
  have messages : (file.messages.map fun message =>
      qualify file.scope message.name.text).Sublist
      ((file.messages.flatMap (Definition.ofMessage file.scope false)).map
        Definition.fullName) := by
    rw [List.map_flatMap, List.map_eq_flatMap]
    refine List.Sublist.flatMap_right _ fun message _ => List.singleton_sublist.mpr ?_
    rw [Definition.ofMessage_eq]
    exact List.mem_cons_self
  have enums : (file.enums.map fun enumeration =>
      qualify file.scope enumeration.name.text).Sublist
      ((file.enums.flatMap (Definition.ofEnum file.scope false)).map Definition.fullName) := by
    rw [List.map_flatMap, List.map_eq_flatMap]
    exact List.Sublist.flatMap_right _ fun enumeration _ =>
      List.singleton_sublist.mpr List.mem_cons_self
  have all := wellFormed.nodup_fullNames
  rw [definitions, Definition.ofMessages_eq, List.map_append, List.map_append,
    List.map_append] at all
  have types := (List.nodup_append.mp all).1
  rw [List.append_assoc] at types
  have distinct := (List.nodup_append.mp types).2.1.sublist (messages.append enums)
  refine List.Nodup.of_map (qualify file.scope) ?_
  rw [List.map_map, List.map_append, List.map_map, List.map_map]
  exact distinct

/-- The messages and enums in a place have names of their own. -/
theorem WellFormed.distinct_at (wellFormed : file.WellFormed) (place : file.Place around) :
    Distinct ((file.messagesAt around).map Message.name ++
      (file.enumsAt around).map Enumeration.name) := by
  cases place with
  | top => exact wellFormed.distinct_top
  | @inside parent _ outer parentMember =>
    obtain ⟨depth, path, parentWellFormed⟩ := wellFormed.messageAt outer parent parentMember
    cases depth with
    | zero => cases parentWellFormed
    | succ depth => exact Message.distinct_nested parentWellFormed.2.2

/-- A message in a place is determined by its name. -/
theorem WellFormed.message_unique (wellFormed : file.WellFormed) (place : file.Place around)
    {first second : Message} (firstMember : first ∈ file.messagesAt around)
    (secondMember : second ∈ file.messagesAt around)
    (same : first.name.text = second.name.text) : first = second := by
  have distinct := wellFormed.distinct_at place
  rw [Distinct, List.map_append, List.map_map, List.nodup_append] at distinct
  exact List.inj_on_of_nodup_map distinct.1 firstMember secondMember same

/-- No message in a place has the name of an enum there. -/
theorem WellFormed.message_ne_enum (wellFormed : file.WellFormed) (place : file.Place around)
    {message : Message} {enumeration : Enumeration} (member : message ∈ file.messagesAt around)
    (enumMember : enumeration ∈ file.enumsAt around) :
    message.name.text ≠ enumeration.name.text := by
  have distinct := wellFormed.distinct_at place
  rw [Distinct, List.map_append, List.map_map, List.map_map, List.nodup_append] at distinct
  exact distinct.2.2 _ (List.mem_map_of_mem member) _ (List.mem_map_of_mem enumMember)

/-- The name of a place determines the place, by induction on the messages around it. -/
theorem WellFormed.pathOf_injective (wellFormed : file.WellFormed) {others : List Message}
    (first : file.Place around) (second : file.Place others)
    (same : pathOf around = pathOf others) : around = others := by
  induction first generalizing others with
  | top =>
    cases second with
    | top => rfl
    | @inside message others outer member =>
      have shorter := Name.WellFormed.length_lt (wellFormed.isIdentifier_messageAt outer member)
        (pathOf others)
      rw [← pathOf_cons, ← same] at shorter
      exact absurd shorter (Nat.not_lt_zero _)
  | @inside firstMessage around firstOuter firstMember inductionHypothesis =>
    have firstIdentifier := wellFormed.isIdentifier_messageAt firstOuter firstMember
    cases second with
    | top =>
      have shorter := Name.WellFormed.length_lt firstIdentifier (pathOf around)
      rw [← pathOf_cons, same] at shorter
      exact absurd shorter (Nat.not_lt_zero _)
    | @inside secondMessage others secondOuter secondMember =>
      obtain ⟨scopes, names⟩ := qualify_injective firstIdentifier
        (wellFormed.isIdentifier_messageAt secondOuter secondMember) same
      obtain rfl := inductionHypothesis secondOuter scopes
      rw [wellFormed.message_unique firstOuter firstMember secondMember names]

/-! ### The table -/

/-- The messages of the table stand in a place of the file under their names there. -/
theorem exists_place_of_mem_messages {declared : DeclaredMessage}
    (member : declared ∈ (SymbolTable.ofFile file).messages) :
    ∃ around, file.Place around ∧ ∃ message ∈ file.messagesAt around,
      declared.path = qualify (pathOf around) message.name.text := by
  have inside (message : Message) : ∀ {around : List Message}, file.Place around →
      message ∈ file.messagesAt around →
      declared ∈ SymbolTable.messagesOf (pathOf around) message →
      ∃ around, file.Place around ∧ ∃ message ∈ file.messagesAt around,
        declared.path = qualify (pathOf around) message.name.text := by
    induction message using Message.induction with
    | step message inductionHypothesis =>
      intro around place messageMember member
      rw [SymbolTable.messagesOf_eq, List.mem_cons, List.mem_flatMap] at member
      rcases member with rfl | ⟨inner, innerMember, member⟩
      · exact ⟨around, place, message, messageMember, rfl⟩
      · exact inductionHypothesis inner innerMember (place.inside messageMember) innerMember member
  rw [SymbolTable.ofFile, SymbolTable.messagesIn_eq, List.mem_flatMap] at member
  obtain ⟨message, messageMember, member⟩ := member
  exact inside message .top messageMember member

/-- The enums of the table stand in a place of the file under their names there. -/
theorem exists_place_of_mem_enums {name : String}
    (member : name ∈ (SymbolTable.ofFile file).enums) :
    ∃ around, file.Place around ∧ ∃ enumeration ∈ file.enumsAt around,
      name = qualify (pathOf around) enumeration.name.text := by
  have here {around : List Message} (place : file.Place around)
      (member : name ∈ SymbolTable.enumNames (pathOf around) (file.enumsAt around)) :
      ∃ around, file.Place around ∧ ∃ enumeration ∈ file.enumsAt around,
        name = qualify (pathOf around) enumeration.name.text := by
    obtain ⟨enumeration, enumMember, rfl⟩ := List.mem_map.mp member
    exact ⟨around, place, enumeration, enumMember, rfl⟩
  have inside (message : Message) : ∀ {around : List Message}, file.Place around →
      message ∈ file.messagesAt around → name ∈ SymbolTable.enumsOf (pathOf around) message →
      ∃ around, file.Place around ∧ ∃ enumeration ∈ file.enumsAt around,
        name = qualify (pathOf around) enumeration.name.text := by
    induction message using Message.induction with
    | step message inductionHypothesis =>
      intro around place messageMember member
      rw [SymbolTable.enumsOf_eq, List.mem_append, List.mem_flatMap] at member
      rcases member with ⟨inner, innerMember, member⟩ | member
      · exact inductionHypothesis inner innerMember (place.inside messageMember) innerMember member
      · exact here (place.inside messageMember) member
  rw [SymbolTable.ofFile, SymbolTable.enumsIn_eq, List.mem_append, List.mem_flatMap] at member
  rcases member with ⟨message, messageMember, member⟩ | member
  · exact inside message .top messageMember member
  · exact here .top member

/-- The enums in a place are in the table, with those in the messages there. -/
theorem Place.subset_enums (place : file.Place around) :
    (file.messagesAt around).flatMap (SymbolTable.enumsOf (pathOf around)) ++
        SymbolTable.enumNames (pathOf around) (file.enumsAt around) ⊆
      (SymbolTable.ofFile file).enums := by
  induction place with
  | top =>
    rw [SymbolTable.ofFile, SymbolTable.enumsIn_eq]
    exact List.Subset.refl _
  | @inside message around _ messageMember inductionHypothesis =>
    intro name member
    refine inductionHypothesis (List.mem_append_left _ ?_)
    rw [List.mem_flatMap]
    refine ⟨message, messageMember, ?_⟩
    rw [SymbolTable.enumsOf_eq]
    exact member

/-- A name in a place is found to be that of an enum exactly if an enum is declared there under
it. -/
theorem WellFormed.isEnum_iff (wellFormed : file.WellFormed) (place : file.Place around)
    {name : String} (identifier : isIdentifier name = true) :
    (SymbolTable.ofFile file).isEnum (qualify (pathOf around) name) = true ↔
      ∃ enumeration ∈ file.enumsAt around, enumeration.name.text = name := by
  rw [SymbolTable.isEnum, decide_eq_true_eq, SymbolTable.get?]
  constructor
  · intro found
    split at found
    · cases found
    · split at found
      · next member =>
        obtain ⟨others, otherPlace, enumeration, enumMember, same⟩ :=
          exists_place_of_mem_enums member
        obtain ⟨paths, rfl⟩ := qualify_injective identifier
          (wellFormed.isIdentifier_enumAt otherPlace enumMember) same
        obtain rfl := wellFormed.pathOf_injective place otherPlace paths
        exact ⟨enumeration, enumMember, rfl⟩
      · cases found
  · rintro ⟨enumeration, enumMember, rfl⟩
    have noMessage : ¬ ((SymbolTable.ofFile file).messages.any fun message =>
        message.path = qualify (pathOf around) enumeration.name.text) = true := by
      rw [List.any_eq_true]
      rintro ⟨declared, member, same⟩
      obtain ⟨others, otherPlace, message, messageMember, path⟩ :=
        exists_place_of_mem_messages member
      rw [path, decide_eq_true_eq] at same
      obtain ⟨paths, names⟩ := qualify_injective
        (wellFormed.isIdentifier_messageAt otherPlace messageMember) identifier same
      obtain rfl := wellFormed.pathOf_injective otherPlace place paths
      exact wellFormed.message_ne_enum place messageMember enumMember names
    rw [if_neg noMessage, if_pos (place.subset_enums
      (List.mem_append_right _ (List.mem_map_of_mem enumMember)))]

/-- Inside the given messages an enum of the name can be seen: one of them declares it, or the file
does. -/
def SeesEnum (file : File) (around : List Message) (name : String) : Prop :=
  (∃ message ∈ around, ∃ enumeration ∈ message.enums, enumeration.name.text = name) ∨
    ∃ enumeration ∈ file.enums, enumeration.name.text = name

/-- An identifier is classified by the enums that can be seen, by induction on the messages around
it. -/
theorem WellFormed.classifyBare_eq_iff (wellFormed : file.WellFormed) (place : file.Place around)
    {name : String} (identifier : isIdentifier name = true) :
    (SymbolTable.ofFile file).classifyBare (scopesOf around) name = .enumeration ↔
      file.SeesEnum around name := by
  have seen : ((scopesOf around ++ [""]).any fun scope =>
      (SymbolTable.ofFile file).isEnum (qualify scope name)) = true ↔
        file.SeesEnum around name := by
    induction place with
    | top =>
      rw [scopesOf, List.nil_append, List.any_cons, List.any_nil, Bool.or_false]
      refine (wellFormed.isEnum_iff .top identifier).trans ?_
      simp [SeesEnum, enumsAt]
    | @inside message around outer member inductionHypothesis =>
      have here := wellFormed.isEnum_iff (outer.inside member) identifier
      rw [scopesOf, SymbolTable.enter, List.cons_append, List.any_cons, Bool.or_eq_true,
        inductionHypothesis]
      refine (or_congr here Iff.rfl).trans ?_
      simp [SeesEnum, enumsAt, or_assoc]
  rw [SymbolTable.classifyBare, ← seen]
  split <;> simp [*]

end File

end ProtoSchema
