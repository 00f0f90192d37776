/-
This file places the declarations of a file and says what is found in them. What is
compared across the file is compared kind by kind, so that here too a fault points
back unless the declarations stand in another order than their kinds.
-/

import ProtoSchema.Proofs.Layout.Definitions
import ProtoSchema.Proofs.Validation.FullNames

namespace ProtoSchema

open Outline (Placed Laid WellPlaced leaf)

variable {source : List Char} {stream lexemes : List Lexeme} {start stop : Nat}

/-! ### Places in a file -/

/-- The places of what the checks of a file look at. -/
structure File.Interior (source : List Char) (start stop : Nat) (file : File) : Prop where
  ordered : start ≤ stop
  package : ∀ package ∈ file.package, package.Interior ∧ package.span.Between start stop
  imports : ∀ entry ∈ file.imports, entry.span.Between start stop ∧
    entry.path.span.Between entry.span.start entry.span.stop
  importsInOrder : file.imports.Pairwise fun first second => first.span.stop ≤ second.span.start
  messages : ∀ message ∈ file.messages, message.outline.WellPlaced source ∧
    message.span.Between start stop
  messagesInOrder : file.messages.Pairwise fun first second => first.span.stop ≤ second.span.start
  enums : ∀ enumeration ∈ file.enums, enumeration.outline.WellPlaced source ∧
    enumeration.span.Between start stop
  enumsInOrder : file.enums.Pairwise fun first second => first.span.stop ≤ second.span.start
  services : ∀ service ∈ file.services, service.Interior ∧ service.span.Between start stop
  servicesInOrder : file.services.Pairwise fun first second => first.span.stop ≤ second.span.start
  enumsApart : ∀ message ∈ file.messages, ∀ enumeration ∈ file.enums,
    message.span.Apart enumeration.span
  servicesApart : ∀ other ∈ file.messages.map Message.span ++ file.enums.map Enumeration.span,
    ∀ service ∈ file.services, other.Apart service.span

namespace File

variable {file : File}

theorem Interior.of_laid (laid : Laid source start stop file.outlines) :
    file.Interior source start stop := by
  obtain ⟨package, -⟩ := laid.entries
    (show file.package.toList.map Package.outline ∈ file.outlines by simp [outlines])
  obtain ⟨imports, importsInOrder⟩ := laid.entries
    (show file.imports.map Import.outline ∈ file.outlines by simp [outlines])
  obtain ⟨messages, messagesInOrder⟩ := laid.entries
    (show file.messages.map Message.outline ∈ file.outlines by simp [outlines])
  obtain ⟨enums, enumsInOrder⟩ := laid.entries
    (show file.enums.map Enumeration.outline ∈ file.outlines by simp [outlines])
  obtain ⟨services, servicesInOrder⟩ := laid.entries
    (show file.services.map Service.outline ∈ file.outlines by simp [outlines])
  simp only [Message.span_outline] at messages messagesInOrder
  exact
    { ordered := laid.arranged.ordered
      package := fun package' member =>
        have placed := package package' (Option.mem_toList.mpr member)
        ⟨Package.Interior.of_placed placed.1, placed.2⟩
      imports := fun entry member =>
        ⟨(imports entry member).2, (imports entry member).1.parts.arranged.between _
          List.mem_cons_self _ List.mem_cons_self⟩
      importsInOrder
      messages
      messagesInOrder
      enums
      enumsInOrder
      services := fun service member =>
        ⟨Service.Interior.of_placed (services service member).1, (services service member).2⟩
      servicesInOrder
      enumsApart := fun message member enumeration enumMember => by
        have apart := laid.across (by decide : 3 < 4) rfl rfl _ (List.mem_map_of_mem member) _
          (List.mem_map_of_mem enumMember)
        rwa [Message.span_outline] at apart
      servicesApart := by
        refine List.forall_mem_append.mpr
          ⟨List.forall_mem_map.mpr fun message member service serviceMember => ?_,
            List.forall_mem_map.mpr fun enumeration member service serviceMember => ?_⟩
        · have apart := laid.across (by decide : 3 < 5) rfl rfl _ (List.mem_map_of_mem member) _
            (List.mem_map_of_mem serviceMember)
          rwa [Message.span_outline] at apart
        · exact laid.across (by decide : 4 < 5) rfl rfl _ (List.mem_map_of_mem member) _
            (List.mem_map_of_mem serviceMember) }

/-! ### Definitions -/

/-- The definitions other than the parts of the package. -/
def ownDefinitions (file : File) : List Definition :=
  Definition.ofMessages file.scope false file.messages ++
    file.enums.flatMap (Definition.ofEnum file.scope false) ++
      file.services.flatMap (Definition.ofService file.scope)

theorem definitions_eq (file : File) :
    file.definitions = file.package.toList.flatMap Definition.ofPackage ++ file.ownDefinitions := by
  rw [definitions, ownDefinitions, List.append_assoc, List.append_assoc, List.append_assoc]

/-- The definitions of messages and enums stand in them. -/
theorem between_types (interior : file.Interior source start stop) :
    ∀ definition ∈ file.messages.flatMap (Definition.ofMessage file.scope false) ++
        file.enums.flatMap (Definition.ofEnum file.scope false),
      ∃ place ∈ file.messages.map Message.span ++ file.enums.map Enumeration.span,
        definition.span.Between place.start place.stop := by
  refine List.forall_mem_append.mpr
    ⟨List.forall_mem_flatMap.mpr fun message member definition inside => ?_,
      List.forall_mem_flatMap.mpr fun enumeration member definition inside => ?_⟩
  · exact ⟨message.span, List.mem_append_left _ (List.mem_map_of_mem member),
      Definition.between_ofMessage (interior.messages message member).1 definition inside⟩
  · exact ⟨enumeration.span, List.mem_append_right _ (List.mem_map_of_mem member),
      Definition.between_ofEnum (Enumeration.Interior.of_placed (interior.enums enumeration member).1)
        definition inside⟩

theorem listed_ownDefinitions {declared : Option Edition}
    (interior : file.Interior source start stop)
    (read : (Parser.declarations declared).ReadIn stream file) :
    file.ownDefinitions.Pairwise (Definition.Listed stream) := by
  have inServices : ∀ service ∈ file.services,
      ∀ definition ∈ Definition.ofService file.scope service,
        definition.span.Between service.span.start service.span.stop :=
    fun service member => Definition.between_ofService (interior.services service member).1
  rw [ownDefinitions, Definition.ofMessages_eq]
  refine List.pairwise_append.mpr ⟨Definition.listed_block (.file read)
    (fun message member => (interior.messages message member).1)
    (fun enumeration member => (interior.enums enumeration member).1) interior.messagesInOrder
    interior.enumsInOrder interior.enumsApart fun message member => ?_,
    Definition.listed_flatMap interior.servicesInOrder inServices fun service member => ?_,
    fun first firstMember => List.forall_mem_flatMap.mpr fun service member second inside => ?_⟩
  · exact Definition.listed_ofMessage (interior.messages message member).1
      (.nested (.file read) member)
  · exact Definition.listed_ofService (interior.services service member).1
  · obtain ⟨place, placeMember, here⟩ := between_types interior first firstMember
    have there := inServices service member second inside
    rcases interior.servicesApart place placeMember service member with ahead | behind
    · exact Definition.listed_of_behind here there ahead
    · exact .inr (.service read placeMember member here there behind)

theorem between_definitions (interior : file.Interior source start stop) :
    ∀ definition ∈ file.definitions, definition.span.Between start stop := by
  rw [definitions_eq, ownDefinitions, Definition.ofMessages_eq]
  refine List.forall_mem_append.mpr ⟨List.forall_mem_flatMap.mpr fun package member definition
    inside => ?_, List.forall_mem_append.mpr ⟨fun definition member => ?_,
      List.forall_mem_flatMap.mpr fun service member definition inside => ?_⟩⟩
  · obtain ⟨parts, whole⟩ := interior.package package (Option.mem_toList.mp member)
    exact (Definition.between_ofPackage parts definition inside).widen whole.1 whole.2.2
  · obtain ⟨place, placeMember, inside⟩ := between_types interior definition member
    have whole : place.Between start stop := by
      rcases List.mem_append.mp placeMember with placeMember | placeMember
      · obtain ⟨message, member, rfl⟩ := List.mem_map.mp placeMember
        exact (interior.messages message member).2
      · obtain ⟨enumeration, member, rfl⟩ := List.mem_map.mp placeMember
        exact (interior.enums enumeration member).2
    exact inside.widen whole.1 whole.2.2
  · obtain ⟨serviceInterior, whole⟩ := interior.services service member
    exact (Definition.between_ofService serviceInterior definition inside).widen whole.1 whole.2.2

/-- No definition has the name of a part of the package, which is shorter. -/
theorem fullName_ne_of_package (interior : file.Interior source start stop) :
    ∀ part ∈ file.package.toList.flatMap Definition.ofPackage,
      ∀ definition ∈ file.ownDefinitions, part.fullName ≠ definition.fullName := by
  intro part partMember definition member same
  obtain ⟨package, isPackage, partMember⟩ := List.mem_flatMap.mp partMember
  have declared := Option.mem_toList.mp isPackage
  have scope : file.scope =
      package.name.parts.foldl (fun scope part => qualify scope part.text) "" := by
    rw [File.scope, declared]
  obtain ⟨nonempty, shorter⟩ := Definition.shorter_ofParts
    (fun part member => ((interior.package package declared).1.parts part member).1)
    package.name.span.start "" part partMember
  rw [← scope] at shorter
  have some : file.scope ≠ "" := by
    intro none
    rw [none] at shorter
    exact nonempty (String.length_eq_zero_iff.mp (Nat.le_zero.mp shorter))
  have longer : file.scope.length < definition.fullName.length := by
    rw [ownDefinitions, Definition.ofMessages_eq] at member
    simp only [List.mem_append, List.mem_flatMap] at member
    rcases member with (⟨message, -, inside⟩ | ⟨enumeration, -, inside⟩) | ⟨service, -, inside⟩
    · exact Definition.longer_ofMessage some definition inside
    · exact Definition.longer_ofEnum some definition inside
    · exact Definition.longer_ofService some definition inside
  rw [same] at shorter
  exact absurd longer (Nat.not_lt.mpr shorter)

/-! ### Checks -/

/-- Faults of some kinds that a part of the check finds. -/
abbrev Finds (stream : List Lexeme) (start stop : Nat) (file : File) (kinds : List SemanticCause)
    (faults : List SemanticFault) : Prop :=
  Checks stream start stop (Shape.file.sites file) kinds faults

theorem checks_importFaults (interior : file.Interior source start stop) :
    file.Finds stream start stop [.badImportPath, .repeatedImport "" default]
      file.importFaults := by
  have site : ∀ entry ∈ file.imports, (.file, entry.span) ∈ Shape.file.sites file :=
    fun entry member => List.mem_append_right _ (List.mem_map_of_mem member)
  have between : ∀ entry ∈ file.imports, entry.span.Between start stop :=
    fun entry member => (interior.imports entry member).1
  have paths : file.Finds stream start stop [.badImportPath]
      (file.imports.flatMap fun entry =>
        if isImportPath entry.path.text then [] else [⟨.badImportPath, entry.path.span⟩]) := by
    refine .each interior.ordered between (interior.importsInOrder.imp .inl)
      fun entry member => ?_
    split
    · exact .nil (Nat.le_of_lt (between entry member).2.1)
    · exact .single (site entry member) (interior.imports entry member).2 rfl List.mem_cons_self
  have whole : ∀ entry ∈ file.imports, entry.span.Between entry.span.start entry.span.stop :=
    fun entry member => (between entry member).whole
  refine paths.append ?_ (by decide)
  exact .clashes (fun first second : Import =>
    ⟨.repeatedImport second.path.text first.span, second.span⟩) interior.ordered between whole
    interior.importsInOrder (List.Sublist.refl _) (fun _ _ => rfl) (fun _ _ => rfl)
    (fun _ _ => rfl) (.inr site)

theorem checks_packageFaults (interior : file.Interior source start stop) :
    file.Finds stream start stop [.badPackageName ""] file.packageFaults := by
  rw [packageFaults]
  cases declared : file.package with
  | none => exact .nil interior.ordered
  | some package =>
    obtain ⟨parts, whole⟩ := interior.package package declared
    have site : (.file, package.span) ∈ Shape.file.sites file := by
      simp [Shape.file, declared]
    have inside : ∀ part ∈ package.name.parts,
        part.span.Between package.span.start package.span.stop := fun part member =>
      (parts.parts part member).2.widen parts.name.1 parts.name.2.2
    rw [Option.toList_some, List.flatMap_singleton]
    refine .spread interior.ordered (parts.partsInOrder.imp .inl) (fun part member => ?_)
      fun part member => ?_
    · split
      · exact .nil interior.ordered
      · exact .widen (.single site (inside part member) rfl List.mem_cons_self) whole.1 whole.2.2
    · split
      · exact fun _ absent => absurd absent List.not_mem_nil
      · exact List.forall_mem_singleton.mpr (.inr (inside part member).whole)

theorem checks_definitionFaults {declared : Option Edition}
    (interior : file.Interior source start stop)
    (read : (Parser.declarations declared).ReadIn stream file) :
    file.Finds stream start stop [.repeatedName "" default] file.definitionFaults := by
  have related : file.definitions.Pairwise fun first second =>
      first.fullName = second.fullName → first.conflicts second = true →
        first.Listed stream second := by
    rw [definitions_eq]
    refine List.pairwise_append.mpr ⟨List.pairwise_of_forall_mem_list ?_,
      (listed_ownDefinitions interior read).imp fun listed _ _ => listed,
      fun part member definition otherMember same => ?_⟩
    · intro first member second otherMember _ conflict
      obtain ⟨_, -, member⟩ := List.mem_flatMap.mp member
      obtain ⟨_, -, otherMember⟩ := List.mem_flatMap.mp otherMember
      rw [Definition.conflicts,
        List.mem_singleton.mp (Definition.kind_of_mem_ofPackage member),
        List.mem_singleton.mp (Definition.kind_of_mem_ofPackage otherMember)] at conflict
      cases conflict
    · exact absurd same (fullName_ne_of_package interior part member definition otherMember)
  refine .repeatable interior.ordered (List.forall_mem_map.mpr fun pair member => ?_)
  obtain ⟨first, second⟩ := pair
  obtain ⟨clash, conflict⟩ := List.mem_filter.mp member
  obtain ⟨-, secondMember, listed⟩ := related_of_mem_clashes related clash
  have same := (sublist_of_mem_clashes clash).2
  refine ⟨rfl, List.mem_cons_self, between_definitions interior second secondMember, ?_⟩
  intro place found
  obtain rfl := Option.some.inj found
  exact (listed same conflict).imp_right fun inverted => ⟨⟨_, rfl⟩, inverted⟩

theorem checks_faults {declared : Option Edition} (laid : Laid source start stop file.outlines)
    (read : (Parser.declarations declared).ReadIn stream file) :
    file.Finds stream start stop
      [.badImportPath, .repeatedImport "" default, .badPackageName "", .repeatedName "" default]
      file.faults :=
  ((checks_importFaults (Interior.of_laid laid)).append (checks_packageFaults (Interior.of_laid laid))
    (by decide)).append (checks_definitionFaults (Interior.of_laid laid) read) (by decide)

end File

/-! ### Parsing -/

namespace Parser

variable {found : List SemanticFault} {first : Nat} {declared : Option Edition}

theorem surveys_editionStatement :
    Surveys source stream (offset source lexemes) [] lexemes editionStatement
      fun _ _ _ => True := by
  refine Surveys.places Places.expect_last fun _ rest afterWord _ => ?_
  refine Surveys.places Places.expect_last fun _ rest afterEquals _ => ?_
  refine Surveys.places places_text fun name rest later placed => ?_
  have between := placed.between.widen (Nat.le_trans afterWord afterEquals) (Nat.le_refl _)
  refine Surveys.known fun before _ => Surveys.report (before.combine ?_ ?_) ?_
  · split
    · exact .nil before.ordered
    · exact .singleton between rfl
  · exact fun _ absent => absurd absent List.not_mem_nil
  · exact Surveys.places places_terminator fun _ _ _ _ => Surveys.pure trivial

theorem surveys_declaredEdition :
    Surveys source stream (offset source lexemes) [] lexemes declaredEdition
      fun _ _ _ => True := by
  refine Surveys.look ?_
  split
  · exact surveys_editionStatement.bind fun _ _ _ _ _ => Surveys.pure trivial
  · exact Surveys.pure trivial

theorem places_package : Places source stream lexemes package
    fun found after => Placed source (offset source lexemes) after found.outline := by
  refine Places.leadingComments fun comments => ?_
  refine Places.expect fun start rest afterWord opened => ?_
  refine places_dottedName.bind fun name rest _ placed => ?_
  refine places_terminator.bind fun (stop, trailing) rest _ closed => Places.pure ?_
  exact .enclose opened.reached.1 afterWord placed.laid
    (.nil (Nat.le_refl _) fun _ member => absurd member List.not_mem_nil) (Nat.le_refl _)
    closed.reached closed.within

theorem places_importKind : Places source stream lexemes importKind fun _ _ => True := by
  refine Places.look ?_
  split
  · exact Places.advance_any.bind fun _ _ _ _ => Places.pure trivial
  · exact Places.advance_any.bind fun _ _ _ _ => Places.pure trivial
  · exact Places.pure trivial
  · exact Places.unexpected

theorem places_import : Places source stream lexemes «import»
    fun found after => Placed source (offset source lexemes) after found.outline := by
  refine Places.leadingComments fun comments => ?_
  refine Places.expect fun start rest afterWord opened => ?_
  refine places_importKind.bind fun kind rest afterKind _ => ?_
  refine places_text.bind fun path rest _ placed => ?_
  refine places_terminator.bind fun (stop, trailing) rest _ closed => Places.pure ?_
  exact .enclose opened.reached.1 (Nat.le_trans afterWord afterKind) placed.laid
    (.nil (Nat.le_refl _) fun _ member => absurd member List.not_mem_nil) (Nat.le_refl _)
    closed.reached closed.within

/-- A further package is dropped. -/
theorem surveys_addPackage {file : File} {package : Package} {middle : Nat}
    (body : Underway source messageStages first [] Shape.file file found middle)
    (before : Findings stream start middle found)
    (placed : Placed source middle (offset source lexemes) package.outline) :
    Surveys source stream start found lexemes (addPackage file package)
      (Underway source messageStages first [] Shape.file) := by
  have late : Findings stream middle (offset source lexemes) [] := .nil placed.between.ordered
  rw [addPackage]
  split
  · next earlier isPackage =>
    obtain ⟨packages, -⟩ := body.laid.entries
      (show file.package.toList.map Package.outline ∈ file.outlines from List.mem_cons_self)
    have there := (packages earlier (Option.mem_toList.mpr isPackage)).2
    have fault : Findings stream middle (offset source lexemes)
        [⟨.repeatedPackage earlier.span, package.span⟩] :=
      { ordered := placed.between.ordered
        between := List.forall_mem_singleton.mpr placed.between
        distinct := List.pairwise_singleton _ _
        directed := List.forall_mem_singleton.mpr fun place member => by
          obtain rfl := Option.some.inj member
          exact .inl ⟨there.2.1, Nat.le_trans there.2.2 placed.between.1⟩ }
    refine Surveys.report (before.append fault) (Surveys.pure ?_)
    exact body.drop before fault (.singleton (by decide : Stage.phrase ∈ [Stage.phrase]))
      (by decide)
  · next none =>
    refine Surveys.pure ?_
    have added : Underway source messageStages first [] Shape.file
        { file with package := some package } (found ++ []) (offset source lexemes) :=
      body.add before late .nil (List.nil_subset _) placed 0 rfl
        (by simp [Shape.file, File.outlines, none]) (some .file) nofun (by grind [Shape.file])
    rwa [List.append_nil] at added

theorem upheld_fileMember : Upheld source stream start fileMember
    (Underway source messageStages first [] Shape.file) where
  later := fun later body => body.later later
  member := by
    intro state next parser found lexemes result body
    unfold fileMember at result
    split at result
    · split_ifs at result with isImport isPackage isOption isMessage isEnum isService isExtend
      all_goals obtain rfl := Option.some.inj result
      · exact body.surveys_add (places_import.surveys []) (List.nil_subset _) 1 (fun _ => rfl)
          (by simp [Shape.file, File.outlines]) (some .file) (by decide) (by grind [Shape.file])
      · exact Surveys.known fun early _ => Surveys.places places_package
          fun package rest _ placed => surveys_addPackage body early placed
      · exact body.surveys_add (places_optionStatement.surveys []) (List.nil_subset _) 2
          (fun _ => rfl) (by simp [Shape.file, File.outlines]) none (by decide)
          fun _ _ _ known => .inl known
      · exact body.surveys_add (surveys_message _ _ lexemes) (List.Subset.refl _) 3 (fun _ => rfl)
          (by simp [Shape.file, File.outlines]) none (by decide) fun _ _ _ known => .inl known
      · exact body.surveys_add surveys_enumeration (by decide) 4 (fun _ => rfl)
          (by simp [Shape.file, File.outlines]) none (by decide) fun _ _ _ known => .inl known
      · exact body.surveys_add surveys_service (by decide) 5 (fun _ => rfl)
          (by simp [Shape.file, File.outlines]) none (by decide) fun _ _ _ known => .inl known
      · exact body.surveys_add surveys_extension (by decide) 6 (fun _ => rfl)
          (by simp [Shape.file, File.outlines]) none (by decide) fun _ _ _ known => .inl known
    · cases result

theorem surveys_declarations :
    Surveys source stream (offset source lexemes) [] lexemes (declarations declared)
      fun found _ after => Laid source (offset source lexemes) after found.outlines := by
  refine Surveys.checked rfl ?_
  have opening : Underway source messageStages (offset source lexemes) [] Shape.file
      { File.empty with declaredEdition := declared } [] (offset source lexemes) :=
    .opening rfl (by simp [Shape.file, File.outlines, File.empty])
      (fun _ member => absurd member List.not_mem_nil)
  refine (surveys_topLevel upheld_fileMember opening).mono
    fun file faults after body before isRead => ?_
  have checks : File.Finds stream _ _ _ _ _ := File.checks_faults body.laid isRead
  exact ⟨before.combine checks.toFindings (body.clear.distinct before checks.sites), body.laid⟩

/-- A parser in another edition finds what it would find otherwise. -/
theorem Surveys.inEdition {Value : Type} {parser : Parser Value}
    {goal : Value → List SemanticFault → Nat → Prop}
    (surveys : Surveys source stream start found lexemes parser goal) :
    Surveys source stream start found lexemes (inEdition declared parser) goal :=
  fun setting scene findings =>
    surveys { setting with edition := declared } { scene with length := scene.length } findings

/-- The declarations of a file stand in the source one after another, and what is found in them is
told apart. -/
theorem surveys_file : Surveys source stream (offset source lexemes) [] lexemes file
    fun found _ after => Laid source (offset source lexemes) after found.outlines := by
  refine surveys_declaredEdition.bind fun declared faults rest later _ => ?_
  exact (Surveys.frame surveys_declarations.inEdition).mono
    fun file _ after ⟨_, _, _, laid⟩ => laid.widen later (Nat.le_refl _)

end Parser

end ProtoSchema
