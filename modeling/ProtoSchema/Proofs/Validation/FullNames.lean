/-
This file shows that no two definitions of a well-formed file share a full name.
The check of a whole file lets pairs pass that are compared where they are
declared, and it knows that place by its name alone. So definitions are counted:
there are no more of one name in places of one name than there are such places,
and of a place there is one, by induction on the length of its name.
-/

import ProtoSchema.Proofs.Grammar.WellFormed
import ProtoSchema.Proofs.Tree.Definitions
import ProtoSchema.Proofs.Validation.Declarations

namespace ProtoSchema

/-! ### Counting -/

/-- What is counted in a list of lists is bounded part by part, but for what a test adds. -/
theorem countP_flatMap_le_add {Source Entry : Type} {entries : Source → List Entry}
    {counted others : Entry → Bool} {adds : Source → Bool} {sources : List Source}
    (each : ∀ source ∈ sources, (entries source).countP counted ≤
      (if adds source then 1 else 0) + (entries source).countP others) :
    (sources.flatMap entries).countP counted ≤
      sources.countP adds + (sources.flatMap entries).countP others := by
  induction sources with
  | nil => exact Nat.zero_le _
  | cons source rest inductionHypothesis =>
    rw [List.forall_mem_cons] at each
    have first := each.1
    have others := inductionHypothesis each.2
    simp only [List.flatMap_cons, List.countP_append, List.countP_cons]
    omega

theorem countP_flatMap_le {Source Entry : Type} {entries : Source → List Entry}
    {counted others : Entry → Bool} {sources : List Source}
    (each : ∀ source ∈ sources,
      (entries source).countP counted ≤ (entries source).countP others) :
    (sources.flatMap entries).countP counted ≤ (sources.flatMap entries).countP others := by
  have bound : (sources.flatMap entries).countP counted ≤
      sources.countP (fun _ => false) + (sources.flatMap entries).countP others :=
    countP_flatMap_le_add fun source member => by simpa using each source member
  simpa using bound

/-- If a test holds twice, it holds of an entry and of one before it. -/
theorem exists_split_of_countP {Entry : Type} {test : Entry → Bool} {entries : List Entry}
    (twice : 2 ≤ entries.countP test) :
    ∃ before second after, entries = before ++ second :: after ∧ test second = true ∧
      ∃ first ∈ before, test first = true := by
  induction entries with
  | nil => simp at twice
  | cons entry rest inductionHypothesis =>
    by_cases holds : test entry = true
    · rw [List.countP_cons, if_pos holds] at twice
      have positive : 0 < rest.countP test := by omega
      obtain ⟨second, member, secondHolds⟩ := List.countP_pos_iff.mp positive
      obtain ⟨between, after, rfl⟩ := List.append_of_mem member
      exact ⟨entry :: between, second, after, rfl, secondHolds, entry, List.mem_cons_self, holds⟩
    · rw [List.countP_cons, if_neg holds] at twice
      obtain ⟨before, second, after, rfl, secondHolds, first, member, firstHolds⟩ :=
        inductionHypothesis twice
      exact ⟨entry :: before, second, after, rfl, secondHolds, first,
        List.mem_cons_of_mem _ member, firstHolds⟩

/-- A test holds of one entry at most if keys are distinct and it holds of entries of one key
alone. -/
theorem countP_le_one {Entry Key : Type} {key : Entry → Key} {entries : List Entry}
    {test : Entry → Bool} (distinct : (entries.map key).Nodup)
    (same : ∀ first second, test first = true → test second = true → key first = key second) :
    entries.countP test ≤ 1 := by
  refine Nat.le_of_not_lt fun twice => ?_
  obtain ⟨before, second, after, rfl, secondHolds, first, member, firstHolds⟩ :=
    exists_split_of_countP twice
  rw [List.map_append, List.map_cons, List.nodup_append] at distinct
  exact distinct.2.2 _ (List.mem_map_of_mem member) _ List.mem_cons_self
    (same first second firstHolds secondHolds)

/-! ### Names in a scope -/

theorem qualify_right_injective {scope first second : String}
    (same : qualify scope first = qualify scope second) : first = second := by
  rw [qualify, qualify] at same
  split at same
  · exact same
  · exact (String.append_right_inj _).mp same

/-- A name in a scope is longer than the scope. -/
theorem Name.WellFormed.length_lt {name : Name} (wellFormed : name.WellFormed) (scope : String) :
    scope.length < (qualify scope name.text).length := by
  have some : 0 < name.text.length := by
    rw [← String.length_toList, List.length_pos_iff]
    intro none
    rw [Name.WellFormed, isIdentifier, none] at wellFormed
    cases wellFormed
  rw [qualify]
  split
  · next none =>
    rw [none]
    exact some
  · rw [String.length_append, String.length_append]
    omega

/-- The messages and enums in a message without fault have names of their own. -/
theorem Message.distinct_nested {message : Message} (sound : message.faults = []) :
    Distinct (message.messages.map Message.name ++ message.enums.map Enumeration.name) := by
  rw [← repeatedNames_eq_nil_iff]
  simp only [faults, nestedNameFaults, List.append_eq_nil_iff] at sound
  tauto

/-! ### Kinds of definitions -/

namespace Definition

/-- Whether the definition is of a message or an enum. -/
def isType (definition : Definition) : Bool :=
  definition.kind = .message || definition.kind = .enumeration

/-- Whether a definition is a message or an enum and has a full name. -/
def isTypeNamed (name : String) (definition : Definition) : Bool :=
  definition.isType && definition.fullName = name

/-- Whether a definition is of a kind and has a full name. -/
def isNamed (kind : DefinitionKind) (name : String) (definition : Definition) : Bool :=
  definition.kind = kind && definition.fullName = name

/-- Whether a definition is of a kind, belongs to a place and has a full name. -/
def isMember (kind : DefinitionKind) (place name : String) (definition : Definition) : Bool :=
  definition.kind = kind && definition.container = place && definition.fullName = name

/-- Whether a definition is a type inside a message, belongs to a place and has a full name. -/
def isNestedType (place name : String) (definition : Definition) : Bool :=
  definition.isType && definition.nested && definition.container = place &&
    definition.fullName = name

/-- The pairs of one full name that the check of a file lets pass. -/
theorem exempt_cases {first second : Definition} (exempt : first.conflicts second = false) :
    (first.kind = .package ∧ second.kind = .package) ∨
      (first.isType = true ∧ second.isType = true ∧ first.nested = true ∧ second.nested = true ∧
        first.container = second.container) ∨
      ((second.kind = .enumValue ∨ second.kind = .method) ∧ first.kind = second.kind ∧
        first.container = second.container) := by
  obtain ⟨firstName, firstKind, firstSpan, firstContainer, firstNested⟩ := first
  obtain ⟨secondName, secondKind, secondSpan, secondContainer, secondNested⟩ := second
  cases firstKind <;> cases secondKind <;> simp_all [conflicts, isType]

theorem kind_of_mem_ofParts {start : Nat} {scope : String} {parts : List Name}
    {definition : Definition} (member : definition ∈ ofParts start scope parts) :
    definition.kind ∈ [.package] := by
  induction parts generalizing scope with
  | nil => cases member
  | cons part rest inductionHypothesis =>
    rcases List.mem_cons.mp member with rfl | member
    · exact List.mem_cons_self
    · exact inductionHypothesis member

theorem kind_of_mem_ofPackage {package : Package} {definition : Definition}
    (member : definition ∈ ofPackage package) : definition.kind ∈ [.package] :=
  kind_of_mem_ofParts member

theorem kind_of_mem_ofEnum {scope : String} {nested : Bool} {enumeration : Enumeration}
    {definition : Definition} (member : definition ∈ ofEnum scope nested enumeration) :
    definition.kind ∈ [.enumeration, .enumValue] := by
  rcases List.mem_cons.mp member with rfl | member
  · exact List.mem_cons_self
  · obtain ⟨value, -, rfl⟩ := List.mem_map.mp member
    exact List.mem_cons_of_mem _ List.mem_cons_self

theorem kind_of_mem_ofService {scope : String} {service : Service} {definition : Definition}
    (member : definition ∈ ofService scope service) :
    definition.kind ∈ [.service, .method] := by
  rcases List.mem_cons.mp member with rfl | member
  · exact List.mem_cons_self
  · obtain ⟨method, -, rfl⟩ := List.mem_map.mp member
    exact List.mem_cons_of_mem _ List.mem_cons_self

theorem kind_of_mem_ofMessage {message : Message} {scope : String} {nested : Bool}
    {definition : Definition} (member : definition ∈ ofMessage scope nested message) :
    definition.kind ∈ [.message, .enumeration, .enumValue] := by
  induction message using Message.induction generalizing scope nested with
  | step message inductionHypothesis =>
    rw [ofMessage_eq, List.mem_cons, List.mem_append, List.mem_flatMap, List.mem_flatMap] at member
    rcases member with rfl | ⟨inner, innerMember, member⟩ | ⟨enumeration, -, member⟩
    · exact List.mem_cons_self
    · exact inductionHypothesis inner innerMember member
    · exact List.mem_cons_of_mem _ (kind_of_mem_ofEnum member)

theorem kind_of_isNamed {kind : DefinitionKind} {name : String} (definition : Definition)
    (holds : isNamed kind name definition = true) : definition.kind ∈ [kind] := by
  simp only [isNamed, Bool.and_eq_true, decide_eq_true_eq] at holds
  exact List.mem_singleton.mpr holds.1

theorem kind_of_isMember {kind : DefinitionKind} {place name : String} (definition : Definition)
    (holds : isMember kind place name definition = true) : definition.kind ∈ [kind] := by
  simp only [isMember, Bool.and_eq_true, decide_eq_true_eq] at holds
  exact List.mem_singleton.mpr holds.1.1

theorem kind_of_isNestedType {place name : String} (definition : Definition)
    (holds : isNestedType place name definition = true) :
    definition.kind ∈ [.message, .enumeration] := by
  simp only [isNestedType, isType, Bool.and_eq_true, Bool.or_eq_true, decide_eq_true_eq] at holds
  simpa using holds.1.1.1

theorem countP_isNamed_le_isTypeNamed {kind : DefinitionKind} (definitions : List Definition)
    (type : kind ∈ [DefinitionKind.message, .enumeration]) (name : String) :
    definitions.countP (isNamed kind name) ≤ definitions.countP (isTypeNamed name) := by
  refine List.countP_mono_left fun definition _ holds => ?_
  simp only [isNamed, Bool.and_eq_true, decide_eq_true_eq] at holds
  obtain ⟨rfl, rfl⟩ := holds
  simpa [isTypeNamed, isType] using type

/-- Nothing is counted among definitions of other kinds. -/
theorem countP_eq_zero_of_kinds {definitions : List Definition} {kinds others : List DefinitionKind}
    {test : Definition → Bool}
    (tested : ∀ definition, test definition = true → definition.kind ∈ others)
    (ofKinds : ∀ definition ∈ definitions, definition.kind ∈ kinds)
    (disjoint : ∀ kind ∈ others, kind ∉ kinds) : definitions.countP test = 0 :=
  List.countP_eq_zero.mpr fun definition member holds =>
    disjoint _ (tested definition holds) (ofKinds definition member)

/-! ### Members of a declaration -/

/-- Members with names of their own: there is one of a name in a place if the declaration they
belong to is that place. -/
theorem countP_members_le {declaration : Definition} {members : List Definition}
    {kind : DefinitionKind} (other : declaration.kind ≠ kind)
    (inside : ∀ definition ∈ members, definition.container = declaration.fullName)
    (distinct : (members.map fullName).Nodup) (place name : String) :
    (declaration :: members).countP (isMember kind place name) ≤
      (declaration :: members).countP (isNamed declaration.kind place) := by
  have head : isMember kind place name declaration = false := by
    simp [isMember, other]
  rw [List.countP_cons, List.countP_cons, head]
  by_cases same : declaration.fullName = place
  · have one : members.countP (isMember kind place name) ≤ 1 :=
      countP_le_one distinct fun first second firstHolds secondHolds => by
        simp only [isMember, Bool.and_eq_true, decide_eq_true_eq] at firstHolds secondHolds
        rw [firstHolds.2, secondHolds.2]
    have counted : isNamed declaration.kind place declaration = true := by
      simp [isNamed, same]
    rw [if_pos counted]
    exact Nat.le_trans one (Nat.le_add_left _ _)
  · have none : members.countP (isMember kind place name) = 0 := by
      rw [List.countP_eq_zero]
      intro definition member holds
      simp only [isMember, Bool.and_eq_true, decide_eq_true_eq] at holds
      exact same ((inside definition member).symm.trans holds.1.2)
    rw [none]
    exact Nat.zero_le _

theorem nodup_map_qualify {names : List Name} (distinct : Distinct names) (scope : String) :
    (names.map fun name => qualify scope name.text).Nodup := by
  have injective : ((names.map Name.text).map (qualify scope)).Nodup :=
    List.Pairwise.map _ (fun first second different same =>
      different (qualify_right_injective same)) distinct
  rwa [List.map_map] at injective

theorem countP_values_ofEnum {enumeration : Enumeration} (wellFormed : enumeration.WellFormed)
    (scope : String) (nested : Bool) (place name : String) :
    (ofEnum scope nested enumeration).countP (isMember .enumValue place name) ≤
      (ofEnum scope nested enumeration).countP (isNamed .enumeration place) := by
  have valid := enumeration.faults_eq_nil_iff.mp wellFormed.sound
  have distinct := nodup_map_qualify valid.distinct scope
  rw [List.map_map] at distinct
  refine countP_members_le (by simp) (fun definition member => ?_) ?_ place name
  · obtain ⟨value, -, rfl⟩ := List.mem_map.mp member
    rfl
  · rw [List.map_map]
    exact distinct

theorem countP_methods_ofService {service : Service} (wellFormed : service.WellFormed)
    (scope place name : String) :
    (ofService scope service).countP (isMember .method place name) ≤
      (ofService scope service).countP (isNamed .service place) := by
  have valid := service.faults_eq_nil_iff.mp wellFormed.sound
  have distinct := nodup_map_qualify valid.distinct (qualify scope service.name.text)
  rw [List.map_map] at distinct
  refine countP_members_le (by simp) (fun definition member => ?_) ?_ place name
  · obtain ⟨method, -, rfl⟩ := List.mem_map.mp member
    rfl
  · rw [List.map_map]
    exact distinct

/-! ### Types inside messages -/

/-- A name, declared in a scope, is the name sought in the place sought. -/
def declares (place name scope : String) (declared : Name) : Bool :=
  scope = place && qualify scope declared.text = name

theorem countP_values_ofMessage {edition : Option Edition} {depth : Nat} {path : MessagePath}
    {message : Message} (wellFormed : message.WellFormed edition depth path) (scope : String)
    (nested : Bool) (place name : String) :
    (ofMessage scope nested message).countP (isMember .enumValue place name) ≤
      (ofMessage scope nested message).countP (isNamed .enumeration place) := by
  induction depth generalizing path message scope nested with
  | zero => cases wellFormed
  | succ depth inductionHypothesis =>
    obtain ⟨-, members, -⟩ := wellFormed
    have inner := countP_flatMap_le fun inner member => by
      obtain ⟨index, found⟩ := List.mem_iff_getElem?.mp member
      exact inductionHypothesis (members.messages index inner found)
        (qualify scope message.name.text) true
    have enums := countP_flatMap_le fun enumeration member =>
      countP_values_ofEnum (members.enums enumeration member) (qualify scope message.name.text)
        true place name
    rw [ofMessage_eq]
    simp only [List.countP_cons, List.countP_append]
    rw [if_neg (by simp [isMember])]
    omega

/-- Of the messages and enums with names of their own, in a scope, one at most is that sought. -/
theorem countP_declares_le {names : List Name} (distinct : Distinct names)
    (place name scope : String) :
    names.countP (declares place name scope) ≤ if scope = place then 1 else 0 := by
  split
  · refine countP_le_one (nodup_map_qualify distinct scope) fun first second firstHolds
      secondHolds => ?_
    simp only [declares, Bool.and_eq_true, decide_eq_true_eq] at firstHolds secondHolds
    rw [firstHolds.2, secondHolds.2]
  · next other =>
    rw [Nat.le_zero, List.countP_eq_zero]
    intro declared _ holds
    simp only [declares, Bool.and_eq_true, decide_eq_true_eq] at holds
    exact other holds.1

theorem countP_types_ofEnum (enumeration : Enumeration) (scope : String) (nested : Bool)
    (place name : String) :
    (ofEnum scope nested enumeration).countP (isNestedType place name) ≤
      if nested && declares place name scope enumeration.name then 1 else 0 := by
  have values : (enumeration.values.map fun value =>
      (⟨qualify scope value.name.text, .enumValue, value.name.span,
        qualify scope enumeration.name.text, nested⟩ : Definition)).countP
      (isNestedType place name) = 0 := by
    simp [isNestedType, isType]
  have own : isNestedType place name
      ⟨qualify scope enumeration.name.text, .enumeration, enumeration.name.span, scope, nested⟩ =
        (nested && declares place name scope enumeration.name) := by
    simp [isNestedType, isType, declares, Bool.and_assoc]
  exact Nat.le_of_eq (by rw [ofEnum, List.countP_cons, values, own, Nat.zero_add])

/-- There are no more types of one name in messages of one name than there are such messages, the
message itself aside if it stands in one. -/
theorem countP_types_ofMessage {edition : Option Edition} {depth : Nat} {path : MessagePath}
    {message : Message} (wellFormed : message.WellFormed edition depth path) (scope : String)
    (nested : Bool) (place name : String) :
    (ofMessage scope nested message).countP (isNestedType place name) ≤
      (if nested && declares place name scope message.name then 1 else 0) +
        (ofMessage scope nested message).countP (isNamed .message place) := by
  induction depth generalizing path message scope nested with
  | zero => cases wellFormed
  | succ depth inductionHypothesis =>
    obtain ⟨-, members, sound⟩ := wellFormed
    have names := countP_declares_le (Message.distinct_nested sound) place name
      (qualify scope message.name.text)
    rw [List.countP_append, List.countP_map, List.countP_map] at names
    have inner : (message.messages.flatMap (ofMessage (qualify scope message.name.text) true)).countP
          (isNestedType place name) ≤
        message.messages.countP
            (declares place name (qualify scope message.name.text) ∘ Message.name) +
          (message.messages.flatMap (ofMessage (qualify scope message.name.text) true)).countP
            (isNamed .message place) := by
      refine countP_flatMap_le_add fun inner member => ?_
      obtain ⟨index, found⟩ := List.mem_iff_getElem?.mp member
      exact inductionHypothesis (members.messages index inner found) _ true
    have enums : (message.enums.flatMap (ofEnum (qualify scope message.name.text) true)).countP
          (isNestedType place name) ≤
        message.enums.countP
            (declares place name (qualify scope message.name.text) ∘ Enumeration.name) +
          (message.enums.flatMap (ofEnum (qualify scope message.name.text) true)).countP
            (isNamed .message place) := by
      refine countP_flatMap_le_add fun enumeration _ => ?_
      exact Nat.le_trans (countP_types_ofEnum enumeration _ true place name)
        (Nat.le_add_right _ _)
    have own : isNestedType place name
        ⟨qualify scope message.name.text, .message, message.name.span, scope, nested⟩ =
          (nested && declares place name scope message.name) := by
      simp [isNestedType, isType, declares, Bool.and_assoc]
    have named : isNamed .message place
        ⟨qualify scope message.name.text, .message, message.name.span, scope, nested⟩ =
          decide (qualify scope message.name.text = place) := by
      simp [isNamed]
    rw [ofMessage_eq]
    simp only [List.countP_cons, List.countP_append, own, named, decide_eq_true_eq]
    omega

/-- A type has a longer name than the place it belongs to. -/
theorem length_lt_of_mem_ofEnum {enumeration : Enumeration} (wellFormed : enumeration.WellFormed)
    {scope : String} {nested : Bool} {definition : Definition}
    (member : definition ∈ ofEnum scope nested enumeration) (type : definition.isType = true) :
    definition.container.length < definition.fullName.length := by
  rcases List.mem_cons.mp member with rfl | member
  · exact wellFormed.name.length_lt scope
  · obtain ⟨value, -, rfl⟩ := List.mem_map.mp member
    cases type

theorem length_lt_of_mem_ofMessage {edition : Option Edition} {depth : Nat} {path : MessagePath}
    {message : Message} (wellFormed : message.WellFormed edition depth path) {scope : String}
    {nested : Bool} {definition : Definition}
    (member : definition ∈ ofMessage scope nested message) (type : definition.isType = true) :
    definition.container.length < definition.fullName.length := by
  induction depth generalizing path message scope nested with
  | zero => cases wellFormed
  | succ depth inductionHypothesis =>
    obtain ⟨nameWellFormed, members, -⟩ := wellFormed
    rw [ofMessage_eq, List.mem_cons, List.mem_append, List.mem_flatMap, List.mem_flatMap] at member
    rcases member with rfl | ⟨inner, innerMember, member⟩ | ⟨enumeration, enumMember, member⟩
    · exact nameWellFormed.length_lt scope
    · obtain ⟨index, found⟩ := List.mem_iff_getElem?.mp innerMember
      exact inductionHypothesis (members.messages index inner found) member
    · exact length_lt_of_mem_ofEnum (members.enums enumeration enumMember) member type

/-! ### Packages -/

/-- Each part of a package has a longer name than the parts before it. -/
theorem lengths_ofParts {parts : List Name} (wellFormed : ∀ part ∈ parts, part.WellFormed)
    (start : Nat) (scope : String) :
    (∀ definition ∈ ofParts start scope parts, scope.length < definition.fullName.length) ∧
      (ofParts start scope parts).Pairwise fun first second =>
        first.fullName.length < second.fullName.length := by
  induction parts generalizing scope with
  | nil => exact ⟨fun _ member => (nomatch member), .nil⟩
  | cons part rest inductionHypothesis =>
    rw [List.forall_mem_cons] at wellFormed
    obtain ⟨longer, ordered⟩ := inductionHypothesis wellFormed.2 (qualify scope part.text)
    have first := wellFormed.1.length_lt scope
    rw [ofParts]
    refine ⟨List.forall_mem_cons.mpr ⟨first, fun definition member => ?_⟩,
      List.pairwise_cons.mpr ⟨longer, ordered⟩⟩
    exact Nat.lt_trans first (longer definition member)

theorem countP_ofPackage_le {package : Package} (wellFormed : package.name.WellFormed)
    (name : String) : (ofPackage package).countP (isNamed .package name) ≤ 1 := by
  obtain ⟨-, ordered⟩ := lengths_ofParts wellFormed.parts package.name.span.start ""
  have distinct : ((ofPackage package).map fullName).Nodup :=
    List.pairwise_map.mpr (ordered.imp fun shorter same => by
      rw [same] at shorter
      exact Nat.lt_irrefl _ shorter)
  refine countP_le_one distinct fun first second firstHolds secondHolds => ?_
  simp only [isNamed, Bool.and_eq_true, decide_eq_true_eq] at firstHolds secondHolds
  rw [firstHolds.2, secondHolds.2]

end Definition

/-! ### Files -/

namespace File

open Definition

variable {file : File}

/-- What is counted in a file is bounded declaration by declaration. -/
theorem countP_definitions_le {counted others : Definition → Bool}
    (packages : ∀ package ∈ file.package,
      (ofPackage package).countP counted ≤ (ofPackage package).countP others)
    (messages : ∀ message ∈ file.messages, (ofMessage file.scope false message).countP counted ≤
      (ofMessage file.scope false message).countP others)
    (enums : ∀ enumeration ∈ file.enums, (ofEnum file.scope false enumeration).countP counted ≤
      (ofEnum file.scope false enumeration).countP others)
    (services : ∀ service ∈ file.services, (ofService file.scope service).countP counted ≤
      (ofService file.scope service).countP others) :
    file.definitions.countP counted ≤ file.definitions.countP others := by
  have package := countP_flatMap_le fun package member =>
    packages package (Option.mem_toList.mp member)
  rw [definitions, ofMessages_eq]
  simp only [List.countP_append]
  exact Nat.add_le_add (Nat.add_le_add (Nat.add_le_add package (countP_flatMap_le messages))
    (countP_flatMap_le enums)) (countP_flatMap_le services)

/-- There are no more types of one name in messages of one name than there are such messages. -/
theorem WellFormed.countP_types_le (wellFormed : file.WellFormed) (place name : String) :
    file.definitions.countP (isNestedType place name) ≤
      file.definitions.countP (isNamed .message place) := by
  refine countP_definitions_le (fun package _ => ?_) (fun message member => ?_)
    (fun enumeration _ => ?_) (fun service _ => ?_)
  · rw [countP_eq_zero_of_kinds kind_of_isNestedType (fun _ => kind_of_mem_ofPackage) (by decide)]
    exact Nat.zero_le _
  · obtain ⟨index, found⟩ := List.mem_iff_getElem?.mp member
    simpa using countP_types_ofMessage (wellFormed.members.messages index message found)
      file.scope false place name
  · refine Nat.le_trans (countP_types_ofEnum enumeration file.scope false place name) ?_
    simp
  · rw [countP_eq_zero_of_kinds kind_of_isNestedType (fun _ => kind_of_mem_ofService) (by decide)]
    exact Nat.zero_le _

/-- There are no more values of one name in enums of one name than there are such enums. -/
theorem WellFormed.countP_values_le (wellFormed : file.WellFormed) (place name : String) :
    file.definitions.countP (isMember .enumValue place name) ≤
      file.definitions.countP (isNamed .enumeration place) := by
  refine countP_definitions_le (fun package _ => ?_) (fun message member => ?_)
    (fun enumeration member => ?_) (fun service _ => ?_)
  · rw [countP_eq_zero_of_kinds kind_of_isMember (fun _ => kind_of_mem_ofPackage) (by decide)]
    exact Nat.zero_le _
  · obtain ⟨index, found⟩ := List.mem_iff_getElem?.mp member
    exact countP_values_ofMessage (wellFormed.members.messages index message found) _ _ _ _
  · exact countP_values_ofEnum (wellFormed.members.enums enumeration member) _ _ _ _
  · rw [countP_eq_zero_of_kinds kind_of_isMember (fun _ => kind_of_mem_ofService) (by decide)]
    exact Nat.zero_le _

/-- There are no more methods of one name in services of one name than there are such services. -/
theorem WellFormed.countP_methods_le (wellFormed : file.WellFormed) (place name : String) :
    file.definitions.countP (isMember .method place name) ≤
      file.definitions.countP (isNamed .service place) := by
  refine countP_definitions_le (fun package _ => ?_) (fun message _ => ?_)
    (fun enumeration _ => ?_) (fun service member => ?_)
  · rw [countP_eq_zero_of_kinds kind_of_isMember (fun _ => kind_of_mem_ofPackage) (by decide)]
    exact Nat.zero_le _
  · rw [countP_eq_zero_of_kinds kind_of_isMember (fun _ => kind_of_mem_ofMessage) (by decide)]
    exact Nat.zero_le _
  · rw [countP_eq_zero_of_kinds kind_of_isMember (fun _ => kind_of_mem_ofEnum) (by decide)]
    exact Nat.zero_le _
  · exact countP_methods_ofService (wellFormed.members.services service member) _ _ _

/-- A package has one part of a name. -/
theorem WellFormed.countP_packages_le (wellFormed : file.WellFormed) (name : String) :
    file.definitions.countP (isNamed .package name) ≤ 1 := by
  have package : (file.package.toList.flatMap ofPackage).countP (isNamed .package name) ≤ 1 := by
    cases found : file.package with
    | none => exact Nat.zero_le _
    | some package =>
      rw [Option.toList_some, List.flatMap_singleton]
      exact countP_ofPackage_le (wellFormed.members.package package found) name
  have messages : (file.messages.flatMap (ofMessage file.scope false)).countP
      (isNamed .package name) = 0 :=
    countP_eq_zero_of_kinds kind_of_isNamed (fun definition member => by
      obtain ⟨message, -, member⟩ := List.mem_flatMap.mp member
      exact kind_of_mem_ofMessage member) (by decide)
  have enums : (file.enums.flatMap (ofEnum file.scope false)).countP
      (isNamed .package name) = 0 :=
    countP_eq_zero_of_kinds kind_of_isNamed (fun definition member => by
      obtain ⟨enumeration, -, member⟩ := List.mem_flatMap.mp member
      exact kind_of_mem_ofEnum member) (by decide)
  have services : (file.services.flatMap (ofService file.scope)).countP
      (isNamed .package name) = 0 :=
    countP_eq_zero_of_kinds kind_of_isNamed (fun definition member => by
      obtain ⟨service, -, member⟩ := List.mem_flatMap.mp member
      exact kind_of_mem_ofService member) (by decide)
  rw [definitions, ofMessages_eq]
  simp only [List.countP_append, messages, enums, services]
  exact package

/-- Two definitions of one name were let pass, the first of that name and any other. -/
theorem WellFormed.exempt (wellFormed : file.WellFormed) {first second : Definition}
    (clash : (first, second) ∈ clashes fullName file.definitions) :
    first.conflicts second = false := by
  have sound := wellFormed.sound
  rw [faults, List.append_eq_nil_iff, definitionFaults, List.map_eq_nil_iff,
    List.filter_eq_nil_iff] at sound
  simpa using sound.2 (first, second) clash

/-- If a test that holds of one name alone holds twice, it holds of an entry of a clash. -/
theorem exists_clash {test : Definition → Bool}
    {name : String} (named : ∀ definition, test definition = true → definition.fullName = name)
    (twice : 2 ≤ file.definitions.countP test) :
    ∃ first second, (first, second) ∈ clashes fullName file.definitions ∧ test second = true := by
  obtain ⟨before, second, after, eq, secondHolds, first, member, firstHolds⟩ :=
    exists_split_of_countP twice
  have same : first.fullName = second.fullName := by
    rw [named first firstHolds, named second secondHolds]
  obtain ⟨earliest, clash, -⟩ := exists_mem_clashes after member same
  rw [← eq] at clash
  exact ⟨earliest, second, clash, secondHolds⟩

/-- What both definitions of a clash pass is passed twice. -/
theorem two_le_countP_of_clash {first second : Definition} {test : Definition → Bool}
    (clash : (first, second) ∈ clashes fullName file.definitions)
    (firstHolds : test first = true) (secondHolds : test second = true) :
    2 ≤ file.definitions.countP test := by
  have counted : [first, second].countP test ≤ file.definitions.countP test :=
    (sublist_of_mem_clashes clash).1.countP_le
  rwa [List.countP_cons_of_pos firstHolds, List.countP_singleton, if_pos secondHolds] at counted

/-- A type of a file has a longer name than the place it belongs to. -/
theorem WellFormed.length_lt (wellFormed : file.WellFormed) {definition : Definition}
    (member : definition ∈ file.definitions) (type : definition.isType = true) :
    definition.container.length < definition.fullName.length := by
  rw [definitions, ofMessages_eq] at member
  simp only [List.mem_append, List.mem_flatMap] at member
  rcases member with
    ((⟨package, -, member⟩ | ⟨message, messageMember, member⟩) | ⟨enumeration, enumMember, member⟩) |
      ⟨service, -, member⟩
  · have kind := kind_of_mem_ofPackage member
    simp_all [isType]
  · obtain ⟨index, found⟩ := List.mem_iff_getElem?.mp messageMember
    exact length_lt_of_mem_ofMessage (wellFormed.members.messages index message found) member type
  · exact length_lt_of_mem_ofEnum (wellFormed.members.enums enumeration enumMember) member type
  · have kind := kind_of_mem_ofService member
    simp only [isType, Bool.or_eq_true, decide_eq_true_eq] at type
    rcases type with same | same <;> simp [same] at kind

/-- A file declares one type of a name, by induction on the length of the name: two would stand in
messages of one name, of which there is one. -/
theorem WellFormed.countP_typeNamed_le (wellFormed : file.WellFormed) (name : String) :
    file.definitions.countP (isTypeNamed name) ≤ 1 := by
  induction length : name.length using Nat.strongRecOn generalizing name with
  | _ bound inductionHypothesis =>
    refine Nat.le_of_not_lt fun twice => ?_
    obtain ⟨first, second, clash, secondHolds⟩ := exists_clash (fun definition holds => by
      simp only [isTypeNamed, Bool.and_eq_true, decide_eq_true_eq] at holds
      exact holds.2) twice
    obtain ⟨sublist, same⟩ := sublist_of_mem_clashes clash
    simp only [isTypeNamed, Bool.and_eq_true, decide_eq_true_eq] at secondHolds
    obtain ⟨secondType, secondName⟩ := secondHolds
    rcases exempt_cases (wellFormed.exempt clash) with
      ⟨-, kind⟩ | ⟨firstType, -, firstNested, secondNested, container⟩ | ⟨kind, -⟩
    · simp [isType, kind] at secondType
    · have shorter : second.container.length < bound := by
        rw [← length, ← secondName]
        exact wellFormed.length_lt (sublist.subset (by simp)) secondType
      have nested : 2 ≤ file.definitions.countP (isNestedType second.container name) :=
        two_le_countP_of_clash clash
          (by simp [isNestedType, firstType, firstNested, container, same, secondName])
          (by simp [isNestedType, secondType, secondNested, secondName])
      have messages := wellFormed.countP_types_le second.container name
      have types : file.definitions.countP (isNamed .message second.container) ≤
          file.definitions.countP (isTypeNamed second.container) :=
        countP_isNamed_le_isTypeNamed _ (by decide) _
      have one := inductionHypothesis _ shorter second.container rfl
      omega
    · rcases kind with kind | kind <;> simp [isType, kind] at secondType

/-- Services are compared across the file, so a file declares one of a name. -/
theorem WellFormed.countP_service_le (wellFormed : file.WellFormed) (name : String) :
    file.definitions.countP (isNamed .service name) ≤ 1 := by
  refine Nat.le_of_not_lt fun twice => ?_
  obtain ⟨first, second, clash, secondHolds⟩ := exists_clash (fun definition holds => by
    simp only [isNamed, Bool.and_eq_true, decide_eq_true_eq] at holds
    exact holds.2) twice
  simp only [isNamed, Bool.and_eq_true, decide_eq_true_eq] at secondHolds
  rcases exempt_cases (wellFormed.exempt clash) with
    ⟨-, kind⟩ | ⟨-, type, -⟩ | ⟨kind, -⟩
  · simp [secondHolds.1] at kind
  · simp [isType, secondHolds.1] at type
  · simp [secondHolds.1] at kind

/-- No two definitions of a well-formed file share a full name: of each kind that is let pass there
is one in its place. -/
theorem WellFormed.nodup_fullNames (wellFormed : file.WellFormed) :
    (file.definitions.map fullName).Nodup := by
  rw [← clashes_eq_nil_iff, List.eq_nil_iff_forall_not_mem]
  rintro ⟨first, second⟩ clash
  have same := (sublist_of_mem_clashes clash).2
  rcases exempt_cases (wellFormed.exempt clash) with
    ⟨firstKind, secondKind⟩ | ⟨firstType, secondType, -⟩ | ⟨kind, sameKind, container⟩
  · have twice : 2 ≤ file.definitions.countP (isNamed .package second.fullName) :=
      two_le_countP_of_clash clash (by simp [isNamed, firstKind, same])
        (by simp [isNamed, secondKind])
    have one := wellFormed.countP_packages_le second.fullName
    omega
  · have twice : 2 ≤ file.definitions.countP (isTypeNamed second.fullName) :=
      two_le_countP_of_clash clash (by simp [isTypeNamed, firstType, same])
        (by simp [isTypeNamed, secondType])
    have one := wellFormed.countP_typeNamed_le second.fullName
    omega
  · have twice : 2 ≤ file.definitions.countP
        (isMember second.kind second.container second.fullName) :=
      two_le_countP_of_clash clash (by simp [isMember, sameKind, container, same])
        (by simp [isMember])
    rcases kind with value | method
    · rw [value] at twice
      have places := wellFormed.countP_values_le second.container second.fullName
      have types := countP_isNamed_le_isTypeNamed file.definitions
        (show DefinitionKind.enumeration ∈ _ by decide) second.container
      have one := wellFormed.countP_typeNamed_le second.container
      omega
    · rw [method] at twice
      have places := wellFormed.countP_methods_le second.container second.fullName
      have one := wellFormed.countP_service_le second.container
      omega

end File

end ProtoSchema
