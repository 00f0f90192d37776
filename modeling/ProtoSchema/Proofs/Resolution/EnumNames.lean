/-
This file says which full names the enums of a file have among its definitions:
the parts of the package and then the path of the enum. With that, the readings
of a name with a dot in front are compared with the full names it could mean.
-/

import ProtoSchema.Proofs.Resolution.Readings

namespace ProtoSchema

namespace File

variable {file : File} {around : List Message}

/-- The text is the full name of an enum that the file defines. -/
def DefinesEnum (file : File) (fullName : String) : Prop :=
  ∃ definition ∈ file.definitions, definition.kind = .enumeration ∧ definition.fullName = fullName

/-- Inside a package the names of a place follow those of the package. -/
theorem WellFormed.qualify_scope (wellFormed : file.WellFormed) (place : file.Place around)
    (name : String) :
    qualify (".".intercalate (file.packageParts ++ namesOf around)) name =
      ".".intercalate (file.packageParts ++ (namesOf around ++ [name])) := by
  have each : ∀ part ∈ file.packageParts ++ namesOf around, part ≠ "" := by
    rw [List.forall_mem_append]
    exact ⟨fun part member => (wellFormed.packagePart part member).some,
      fun part member => (wellFormed.isPart_namesOf place part member).some⟩
  rw [qualify_intercalate each, List.append_assoc]

/-- The scope at the top of a file is its package. -/
theorem WellFormed.scope_eq (wellFormed : file.WellFormed) :
    file.scope = ".".intercalate file.packageParts := by
  have folded (parts : List Name) : ∀ before : List String, (∀ part ∈ before, part ≠ "") →
      (∀ part ∈ parts, part.WellFormed) →
      parts.foldl (fun scope part => qualify scope part.text) (".".intercalate before) =
        ".".intercalate (before ++ parts.map Name.text) := by
    induction parts with
    | nil =>
      intro before _ _
      rw [List.foldl_nil, List.map_nil, List.append_nil]
    | cons part parts inductionHypothesis =>
      intro before beforeEach partsEach
      obtain ⟨partWellFormed, othersEach⟩ := List.forall_mem_cons.mp partsEach
      have longer : ∀ part' ∈ before ++ [part.text], part' ≠ "" := by
        rw [List.forall_mem_append, List.forall_mem_singleton]
        exact ⟨beforeEach, partWellFormed.text_ne⟩
      rw [List.foldl_cons, qualify_intercalate beforeEach, inductionHypothesis _ longer othersEach,
        List.map_cons, List.append_assoc, List.singleton_append]
  unfold scope packageParts
  cases found : file.package with
  | none => rfl
  | some package =>
    have parts := (wellFormed.members.package package found).parts
    have all := folded package.name.parts [] (fun _ member => absurd member List.not_mem_nil) parts
    simp only [Option.toList_some, List.flatMap_singleton]
    exact all

theorem WellFormed.scope_top (wellFormed : file.WellFormed) :
    file.scope = ".".intercalate (file.packageParts ++ namesOf []) := by
  rw [wellFormed.scope_eq, namesOf, List.map_nil, List.reverse_nil, List.append_nil]

/-- The enums of a place are defined, with those in the messages there: by induction on the place,
since what is in a message is defined with the message. -/
theorem WellFormed.subset_definitions (wellFormed : file.WellFormed) (place : file.Place around) :
    ∃ nested, (file.messagesAt around).flatMap (Definition.ofMessage
          (".".intercalate (file.packageParts ++ namesOf around)) nested) ++
        (file.enumsAt around).flatMap (Definition.ofEnum
          (".".intercalate (file.packageParts ++ namesOf around)) nested) ⊆ file.definitions := by
  induction place with
  | top =>
    refine ⟨false, ?_⟩
    rw [← wellFormed.scope_top, definitions, Definition.ofMessages_eq, List.append_assoc (List.flatMap _ _)]
    exact fun definition member =>
      List.mem_append_left _ (List.mem_append_right _ member)
  | @inside message around outer messageMember inductionHypothesis =>
    obtain ⟨nested, inside⟩ := inductionHypothesis
    refine ⟨true, fun definition member => inside (List.mem_append_left _ ?_)⟩
    refine List.mem_flatMap.mpr ⟨message, messageMember, ?_⟩
    rw [Definition.ofMessage_eq, wellFormed.qualify_scope outer, ← namesOf_cons]
    exact List.mem_cons_of_mem _ member

/-- What an enum defines as an enum is the enum. -/
theorem fullName_of_mem_ofEnum {scope : String} {nested : Bool} {enumeration : Enumeration}
    {definition : Definition} (member : definition ∈ Definition.ofEnum scope nested enumeration)
    (kind : definition.kind = .enumeration) :
    definition.fullName = qualify scope enumeration.name.text := by
  unfold Definition.ofEnum at member
  obtain rfl | member := List.mem_cons.mp member
  · rfl
  · obtain ⟨value, -, rfl⟩ := List.mem_map.mp member
    cases kind

theorem WellFormed.exists_of_mem_ofMessage (wellFormed : file.WellFormed) (message : Message) :
    ∀ {around : List Message} {nested : Bool} {definition : Definition}, file.Place around →
      message ∈ file.messagesAt around →
      definition ∈ Definition.ofMessage (".".intercalate (file.packageParts ++ namesOf around))
        nested message → definition.kind = .enumeration →
      ∃ path, file.DeclaresEnum path ∧
        definition.fullName = ".".intercalate (file.packageParts ++ path) := by
  induction message using Message.induction with
  | step message inductionHypothesis =>
    intro around nested definition place messageMember member kind
    have inside := place.inside messageMember
    rw [Definition.ofMessage_eq, wellFormed.qualify_scope place, ← namesOf_cons, List.mem_cons,
      List.mem_append, List.mem_flatMap, List.mem_flatMap] at member
    obtain rfl | ⟨inner, innerMember, member⟩ | ⟨enumeration, enumMember, member⟩ := member
    · cases kind
    · exact inductionHypothesis inner innerMember inside innerMember member kind
    · refine ⟨_, ⟨_, inside, enumeration, enumMember, rfl⟩, ?_⟩
      rw [fullName_of_mem_ofEnum member kind, wellFormed.qualify_scope inside]

/-- The enums that a file defines are those it declares, each under the package and its path. -/
theorem WellFormed.definesEnum_iff (wellFormed : file.WellFormed) {fullName : String} :
    file.DefinesEnum fullName ↔
      ∃ path, file.DeclaresEnum path ∧ fullName = ".".intercalate (file.packageParts ++ path) := by
  constructor
  · rintro ⟨definition, member, kind, name⟩
    have top := wellFormed.scope_top
    rw [← name]
    rw [definitions, Definition.ofMessages_eq, List.mem_append, List.mem_append, List.mem_append,
      List.mem_flatMap, List.mem_flatMap, List.mem_flatMap, List.mem_flatMap] at member
    obtain ((⟨package, -, member⟩ | ⟨message, messageMember, member⟩) |
      ⟨enumeration, enumMember, member⟩) | ⟨service, -, member⟩ := member
    · have packageKind := Definition.kind_of_mem_ofPackage member
      rw [kind] at packageKind
      cases List.mem_singleton.mp packageKind
    · rw [top] at member
      exact wellFormed.exists_of_mem_ofMessage message .top messageMember member kind
    · refine ⟨_, ⟨[], .top, enumeration, enumMember, rfl⟩, ?_⟩
      rw [fullName_of_mem_ofEnum member kind, top, wellFormed.qualify_scope .top]
    · have serviceKind := Definition.kind_of_mem_ofService member
      rw [kind] at serviceKind
      simp at serviceKind
  · rintro ⟨path, ⟨around, place, enumeration, enumMember, eq⟩, name⟩
    obtain ⟨nested, subset⟩ := wellFormed.subset_definitions place
    refine ⟨_, subset (List.mem_append_right _ (List.mem_flatMap.mpr
      ⟨enumeration, enumMember, List.mem_cons_self⟩)), rfl, ?_⟩
    rw [wellFormed.qualify_scope place, ← eq, name]

/-- A name that is read as that of an enum is the full name of one, or else it is the path of one
without the package, or leads to one through the first message of its first part. -/
theorem WellFormed.readsEnum_iff (wellFormed : file.WellFormed) {parts : List String}
    (each : ∀ part ∈ parts, IsPart part) (some : parts ≠ []) :
    file.ReadsEnum (file.withoutPackage parts) ↔
      file.DefinesEnum (".".intercalate parts) ∨
        (file.packageParts ≠ [] ∧ file.withoutPackage parts = parts ∧ file.DeclaresEnum parts) ∨
        (¬ file.DeclaresMessage (file.withoutPackage parts) ∧
          file.ReadsThrough (file.withoutPackage parts)) := by
  have fullName : file.DefinesEnum (".".intercalate parts) ↔
      ∃ path, file.DeclaresEnum path ∧ parts = file.packageParts ++ path := by
    rw [wellFormed.definesEnum_iff]
    refine exists_congr fun path => and_congr_right fun declares => ?_
    obtain ⟨pathSome, pathEach⟩ := wellFormed.isPart_of_declaresEnum declares
    constructor
    · intro same
      refine intercalate_injective some (by simp [pathSome]) each ?_ same
      exact List.forall_mem_append.mpr ⟨wellFormed.packagePart, pathEach⟩
    · intro same
      rw [same]
  unfold ReadsEnum
  rw [← or_assoc]
  refine or_congr_left ?_
  rw [fullName]
  obtain ⟨package, rest, restSome, eq, left⟩ | ⟨others, left⟩ := file.withoutPackage_cases parts
  · rw [left, eq]
    constructor
    · intro declares
      exact .inl ⟨rest, declares, rfl⟩
    · intro reading
      obtain ⟨path, declares, same⟩ | ⟨-, same, -⟩ := reading
      · rw [List.append_cancel_left same]
        exact declares
      · have noPackage : file.packageParts = [] := by simpa using same
        exact absurd noPackage package
  · rw [left]
    constructor
    · intro declares
      by_cases package : file.packageParts = []
      · exact .inl ⟨parts, declares, by rw [package, List.nil_append]⟩
      · exact .inr ⟨package, rfl, declares⟩
    · intro reading
      obtain ⟨path, declares, same⟩ | ⟨-, -, declares⟩ := reading
      · by_cases package : file.packageParts = []
        · rw [package, List.nil_append] at same
          rw [same]
          exact declares
        · obtain ⟨pathSome, -⟩ := wellFormed.isPart_of_declaresEnum declares
          exact absurd same (others package path pathSome)
      · exact declares

/-- In a resolved file, what makes a type an enum whose name has a dot, in front or within. -/
theorem WellFormed.kind_of_isQualified_iff (wellFormed : file.WellFormed) {site : Site}
    (member : site ∈ file.resolve.sites) (qualified : site.type.name.isQualified = true) :
    site.type.kind = .enumeration ↔
      file.DefinesEnum site.type.name.path.text ∨
        (file.packageParts ≠ [] ∧
          file.withoutPackage (site.type.name.path.parts.map Name.text) =
            site.type.name.path.parts.map Name.text ∧
          file.DeclaresEnum (site.type.name.path.parts.map Name.text)) ∨
        (¬ file.DeclaresMessage
            (file.withoutPackage (site.type.name.path.parts.map Name.text)) ∧
          file.ReadsThrough (file.withoutPackage (site.type.name.path.parts.map Name.text))) := by
  obtain ⟨around, name, -⟩ := wellFormed.exists_site_of_resolve member
  obtain ⟨some, each⟩ := name.isPart
  rw [wellFormed.kind_of_isQualified member qualified, wellFormed.readsEnum_iff each some]
  rfl

theorem definesEnum_resolve {fullName : String} :
    file.resolve.DefinesEnum fullName ↔ file.DefinesEnum fullName := by
  unfold DefinesEnum
  rw [definitions_resolve]

end File

end ProtoSchema
