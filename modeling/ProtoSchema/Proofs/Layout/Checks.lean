/-
This file says what the checks of declarations find. The faults of one check are
told apart from one another, and each is reported at a site of the declaration,
if it is not of a kind that may be found repeatedly. Checks that look for different
kinds of faults can be put together, and so can those of members that do not
overlap.
-/

import ProtoSchema.Proofs.Layout.Findings
import ProtoSchema.Proofs.Layout.Tree
import ProtoSchema.Proofs.Validation.Clashes

namespace ProtoSchema

/-- Faults of some kinds that a check of a declaration finds between two positions. -/
structure Checks (stream : List Lexeme) (start stop : Nat) (sites : List StageSite)
    (kinds : List SemanticCause) (found : List SemanticFault) : Prop
    extends Findings stream start stop found where
  kinds : ∀ fault ∈ found, fault.cause.kind ∈ kinds
  sites : ∀ fault ∈ found, fault.At sites

variable {stream : List Lexeme} {start middle stop last : Nat} {sites : List StageSite}
variable {kinds others : List SemanticCause} {found more : List SemanticFault} {span site : Span}
variable {cause : SemanticCause}

namespace Checks

theorem nil (ordered : start ≤ stop) : Checks stream start stop sites kinds [] where
  toFindings := .nil ordered
  kinds := fun _ member => absurd member List.not_mem_nil
  sites := fun _ member => absurd member List.not_mem_nil

/-- One fault, in a site. -/
theorem single (member : (cause.stage, site) ∈ sites)
    (inside : span.Between site.start site.stop) (none : cause.first? = none)
    (kind : cause.kind ∈ kinds) :
    Checks stream site.start site.stop sites kinds [⟨cause, span⟩] where
  toFindings := .singleton inside none
  kinds := List.forall_mem_singleton.mpr kind
  sites := List.forall_mem_singleton.mpr (.inr ⟨_, member, rfl, inside⟩)

theorem optional {fault? : Option SemanticFault} (ordered : start ≤ stop)
    (each : ∀ fault ∈ fault?, Checks stream start stop sites kinds [fault]) :
    Checks stream start stop sites kinds fault?.toList := by
  cases fault? with
  | none => exact .nil ordered
  | some fault => exact each fault rfl

/-- Faults that may be found repeatedly. -/
theorem repeatable (ordered : start ≤ stop)
    (each : ∀ fault ∈ found, fault.cause.stage = .repeatable ∧ fault.cause.kind ∈ kinds ∧
      fault.span.Between start stop ∧ fault.Directed stream) :
    Checks stream start stop sites kinds found where
  ordered
  between := fun fault member => (each fault member).2.2.1
  distinct := List.pairwise_of_forall_mem_list fun _ _ fault member =>
    SemanticFault.distinct_of_repeatable (each fault member).1
  directed := fun fault member => (each fault member).2.2.2
  kinds := fun fault member => (each fault member).2.1
  sites := fun fault member => .inl (each fault member).1

theorem widen (checks : Checks stream middle stop sites kinds found) (ahead : start ≤ middle)
    (onward : stop ≤ last) : Checks stream start last sites kinds found :=
  { checks with toFindings := checks.toFindings.widen ahead onward }

/-- Checks for different kinds of faults. -/
theorem append (checks : Checks stream start stop sites kinds found)
    (further : Checks stream start stop sites others more)
    (differ : ∀ kind ∈ kinds, kind ∈ others → kind.stage = .repeatable) :
    Checks stream start stop sites (kinds ++ others) (found ++ more) where
  toFindings := checks.toFindings.combine further.toFindings
    fun fault member other otherMember => by
    by_cases same : fault.cause.kind = other.cause.kind
    · refine SemanticFault.distinct_of_repeatable ?_
      rw [← other.cause.stage_kind, ← same]
      exact differ _ (checks.kinds fault member) (same ▸ further.kinds other otherMember)
    · exact SemanticFault.distinct_of_kind same
  kinds := List.forall_mem_append.mpr
    ⟨fun fault member => List.mem_append_left _ (checks.kinds fault member),
      fun fault member => List.mem_append_right _ (further.kinds fault member)⟩
  sites := List.forall_mem_append.mpr ⟨checks.sites, further.sites⟩

theorem fromStages {stages : List Stage} (checks : Checks stream start stop sites kinds found)
    (stage : ∀ kind ∈ kinds, kind.stage ∈ stages) : FromStages stages found :=
  fun fault member => fault.cause.stage_kind ▸ stage _ (checks.kinds fault member)

/-- The checks of entries that do not overlap, which find in the entries what is not found
repeatedly. -/
theorem spread {Entry : Type} {entries : List Entry} {spanOf : Entry → Span}
    {faultsOf : Entry → List SemanticFault} (ordered : start ≤ stop)
    (apart : entries.Pairwise fun entry other => (spanOf entry).Apart (spanOf other))
    (each : ∀ entry ∈ entries, Checks stream start stop sites kinds (faultsOf entry))
    (inside : ∀ entry ∈ entries, ∀ fault ∈ faultsOf entry, fault.cause.stage = .repeatable ∨
      fault.span.Between (spanOf entry).start (spanOf entry).stop) :
    Checks stream start stop sites kinds (entries.flatMap faultsOf) where
  ordered
  between := List.forall_mem_flatMap.mpr fun entry member => (each entry member).between
  distinct := by
    refine List.pairwise_flatMap.mpr ⟨fun entry member => (each entry member).distinct, ?_⟩
    refine apart.imp_of_mem fun {entry other} member otherMember apart fault faultMember
      another anotherMember => ?_
    rcases inside other otherMember another anotherMember with repeatable | there
    · exact SemanticFault.distinct_of_repeatable repeatable
    · rcases inside entry member fault faultMember with repeatable | here
      · exact fun _ _ => repeatable
      · exact SemanticFault.distinct_of_apart here (apart.within here there)
  directed := List.forall_mem_flatMap.mpr fun entry member => (each entry member).directed
  kinds := List.forall_mem_flatMap.mpr fun entry member => (each entry member).kinds
  sites := List.forall_mem_flatMap.mpr fun entry member => (each entry member).sites

/-- The checks of entries that do not overlap, each of which looks at its entry alone. -/
theorem each {Entry : Type} {entries : List Entry} {spanOf : Entry → Span}
    {faultsOf : Entry → List SemanticFault} (ordered : start ≤ stop)
    (between : ∀ entry ∈ entries, (spanOf entry).Between start stop)
    (apart : entries.Pairwise fun entry other => (spanOf entry).Apart (spanOf other))
    (each : ∀ entry ∈ entries,
      Checks stream (spanOf entry).start (spanOf entry).stop sites kinds (faultsOf entry)) :
    Checks stream start stop sites kinds (entries.flatMap faultsOf) :=
  .spread ordered apart
    (fun entry member => (each entry member).widen (between entry member).1
      (between entry member).2.2)
    fun entry member fault faultMember => .inr ((each entry member).between fault faultMember)

/-- Entries in the order of the source, each with a place of its own, whose keys are compared: what
stands at the place of the second points back at that of the first. -/
theorem clashes {Entry Key : Type} [DecidableEq Key] {key : Entry → Key} {entries : List Entry}
    {pairs : List (Entry × Entry)} {wholeOf placeOf : Entry → Span}
    (faultOf : Entry → Entry → SemanticFault) (ordered : start ≤ stop)
    (between : ∀ entry ∈ entries, (wholeOf entry).Between start stop)
    (inside : ∀ entry ∈ entries,
      (placeOf entry).Between (wholeOf entry).start (wholeOf entry).stop)
    (inOrder : entries.Pairwise fun entry other => (wholeOf entry).stop ≤ (wholeOf other).start)
    (sublist : pairs.Sublist (clashes key entries))
    (place : ∀ first second, (faultOf first second).span = placeOf second)
    (points : ∀ first second, (faultOf first second).cause.first? = some (placeOf first))
    (kind : ∀ first second, (faultOf first second).cause.kind = cause)
    (sited : cause.stage = .repeatable ∨ ∀ entry ∈ entries, (cause.stage, wholeOf entry) ∈ sites) :
    Checks stream start stop sites [cause]
      (pairs.map fun (first, second) => faultOf first second) := by
  have related : ∀ pair ∈ pairs, pair.1 ∈ entries ∧ pair.2 ∈ entries ∧
      (wholeOf pair.1).stop ≤ (wholeOf pair.2).start :=
    fun pair member => related_of_mem_clashes inOrder (sublist.subset member)
  have there : ∀ pair ∈ pairs, (faultOf pair.1 pair.2).span.Between
      (wholeOf pair.2).start (wholeOf pair.2).stop := fun pair member => by
    rw [place]
    exact inside pair.2 (related pair member).2.1
  have stage (first second : Entry) : (faultOf first second).cause.stage = cause.stage := by
    rw [← kind first second, SemanticCause.stage_kind]
  refine ⟨⟨ordered, List.forall_mem_map.mpr fun pair member => ?_, List.pairwise_map.mpr ?_,
    List.forall_mem_map.mpr fun pair member => ?_⟩,
    List.forall_mem_map.mpr fun pair _ => List.mem_singleton.mpr (kind _ _),
    List.forall_mem_map.mpr fun pair member => ?_⟩
  · obtain ⟨-, secondMember, -⟩ := related pair member
    exact (there pair member).widen (between pair.2 secondMember).1
      (between pair.2 secondMember).2.2
  · have seconds : pairs.Pairwise fun pair other =>
        (wholeOf pair.2).stop ≤ (wholeOf other.2).start :=
      List.pairwise_map.mp
        (inOrder.sublist ((sublist.map Prod.snd).trans (map_snd_clashes_sublist entries)))
    refine seconds.imp_of_mem fun {pair other} member otherMember ahead => ?_
    exact SemanticFault.distinct_of_apart (there pair member) (.inl (Nat.le_trans
      (there pair member).2.2 (Nat.le_trans ahead (there other otherMember).1)))
  · obtain ⟨firstMember, secondMember, ahead⟩ := related pair member
    intro first found
    rw [points] at found
    obtain rfl := Option.some.inj found
    have here := inside pair.1 firstMember
    exact .inl ⟨here.2.1, Nat.le_trans here.2.2 (Nat.le_trans ahead (there pair member).1)⟩
  · rcases sited with repeatable | sited
    · exact .inl ((stage _ _).trans repeatable)
    · exact .inr ⟨_, sited pair.2 (related pair member).2.1, stage _ _, there pair member⟩

end Checks

/-! ### Names -/

theorem checks_typeNameFaults {kind : TypeLike} {name : Name} (member : (.body, site) ∈ sites)
    (inside : name.span.Between site.start site.stop) :
    Checks stream site.start site.stop sites [.badTypeName kind ""] (typeNameFaults kind name) := by
  rw [typeNameFaults]
  split
  · exact .nil inside.ordered
  · exact .single member inside rfl List.mem_cons_self

/-- Names that are compared in an order, which may not be that of the source. -/
theorem SemanticFault.directed_repeatedName {first second : Name}
    (related : first.span.Before second.span.start ∨ Inverted stream first.span second.span) :
    (repeatedName first second).Directed stream := by
  intro place member
  obtain rfl := Option.some.inj member
  exact related.imp_right fun inverted => ⟨⟨_, rfl⟩, inverted⟩

theorem checks_repeatedNames {names : List Name} (ordered : start ≤ stop)
    (between : ∀ name ∈ names, name.span.Between start stop)
    (related : names.Pairwise fun first second =>
      first.span.Before second.span.start ∨ Inverted stream first.span second.span) :
    Checks stream start stop sites [.repeatedName "" default] (repeatedNames names) := by
  refine .repeatable ordered (List.forall_mem_map.mpr fun (first, second) clash => ?_)
  obtain ⟨-, member, related⟩ := related_of_mem_clashes related clash
  exact ⟨rfl, List.mem_cons_self, between second member,
    SemanticFault.directed_repeatedName related⟩

/-- The names of members in the order of the source. -/
theorem checks_memberNames {Entry : Type} {entries : List Entry} {nameOf : Entry → Name}
    {wholeOf : Entry → Span} (ordered : start ≤ stop)
    (between : ∀ entry ∈ entries, (wholeOf entry).Between start stop)
    (inside : ∀ entry ∈ entries,
      (nameOf entry).span.Between (wholeOf entry).start (wholeOf entry).stop)
    (inOrder : entries.Pairwise fun entry other =>
      (wholeOf entry).stop ≤ (wholeOf other).start) :
    Checks stream start stop sites [.repeatedName "" default]
      (repeatedNames (entries.map nameOf)) := by
  refine checks_repeatedNames ordered (List.forall_mem_map.mpr fun entry member => ?_)
    (List.pairwise_map.mpr (inOrder.imp_of_mem fun {entry other} member otherMember ahead => ?_))
  · exact (inside entry member).widen (between entry member).1 (between entry member).2.2
  · have here := inside entry member
    exact .inl ⟨here.2.1,
      Nat.le_trans here.2.2 (Nat.le_trans ahead (inside other otherMember).1)⟩

/-! ### Ranges -/

/-- A bound stands in its range. -/
theorem RangeKind.between_of_bound_error {kind : RangeKind} {literal : IntLiteral}
    {fault : SemanticFault} (inside : literal.span.Between start stop)
    (error : kind.bound literal = .error fault) :
    ∃ span, fault = kind.outside span ∧ span.Between start stop := by
  rw [bound] at error
  split at error
  · cases error
  · cases error
    exact ⟨_, rfl, inside⟩

/-- A range has its place, in the declaration that it stands in. -/
structure DeclaredRange.Placed (source : List Char) (declared : DeclaredRange) : Prop where
  wellPlaced : declared.range.outline.WellPlaced source
  inside : declared.range.span.Between declared.declaration.start declared.declaration.stop

namespace DeclaredRange

variable {source : List Char} {declared : DeclaredRange} {kind : RangeKind} {fault : SemanticFault}

/-- The fault of a range is that it is reversed, which is reported at the declaration, or that a
number is out of bounds. -/
theorem interval_error (placed : declared.range.outline.WellPlaced source)
    (error : declared.interval kind = .error fault) :
    (∃ first last, fault = ⟨.reversedRange first last, declared.declaration⟩) ∨
      ∃ span, fault = kind.outside span ∧
        span.Between declared.range.span.start declared.range.span.stop := by
  have parts := placed.parts.arranged.between _ List.mem_cons_self
  have firstInside := parts _ List.mem_cons_self
  have lastError {first : Int} (error : declared.range.lastNumber kind first = .error fault) :
      ∃ span, fault = kind.outside span ∧
        span.Between declared.range.span.start declared.range.span.stop := by
    rw [Range.lastNumber] at error
    split at error
    · cases error
    · next literal found =>
      refine RangeKind.between_of_bound_error (parts literal.outline ?_) error
      rw [found]
      exact List.mem_cons_of_mem _ List.mem_cons_self
    · cases error
  rw [interval, Range.interval] at error
  cases firstBound : kind.bound declared.range.first with
  | error other =>
    rw [firstBound] at error
    cases error
    exact .inr (RangeKind.between_of_bound_error firstInside firstBound)
  | ok first =>
    cases lastBound : declared.range.lastNumber kind first with
    | error other =>
      rw [firstBound] at error
      simp only [bind, Except.bind, lastBound] at error
      cases error
      exact .inr (lastError lastBound)
    | ok last =>
      rw [firstBound] at error
      simp only [bind, Except.bind, lastBound] at error
      split at error
      · cases error
        exact .inl ⟨first, last, rfl⟩
      · split at error
        · cases error
          exact .inr ⟨_, rfl, Nat.le_refl _, placed.some, Nat.le_refl _⟩
        · cases error

end DeclaredRange

namespace RangeKind

variable {kind : RangeKind}

theorem span_outside : (kind.outside span).span = span := by
  cases kind <;> rfl

end RangeKind

namespace DeclaredRange

variable {source : List Char} {declared : DeclaredRange} {kind : RangeKind}

/-- The fault of a range, if it is malformed. -/
def malformed (kind : RangeKind) (declared : DeclaredRange) : List SemanticFault :=
  match declared.interval kind with
  | .ok _ => []
  | .error fault => [fault]

theorem faults_eq_flatMap (ranges : List DeclaredRange) :
    faults kind ranges = ranges.flatMap (malformed kind) := by
  rw [faults, List.filterMap_eq_flatMap_toList]
  refine List.flatMap_congr fun declared _ => ?_
  rw [malformed]
  cases declared.interval kind <;> rfl

/-- A reversed range is reported at its declaration, so that one of several may be found
repeatedly. -/
theorem checks_malformed (placed : declared.Placed source)
    (member : (.number, declared.declaration) ∈ sites) :
    Checks stream declared.declaration.start declared.declaration.stop sites
      [.reversedRange 0 0, (kind.outside default).cause] (malformed kind declared) := by
  have whole := placed.inside
  have ordered := whole.ordered
  rw [malformed]
  split
  · exact .nil ordered
  · next fault error =>
    rcases interval_error placed.wellPlaced error with ⟨first, last, rfl⟩ | ⟨span, rfl, inside⟩
    · refine .repeatable ordered (List.forall_mem_singleton.mpr ⟨rfl, List.mem_cons_self, ?_, ?_⟩)
      · exact ⟨Nat.le_refl _, Nat.lt_of_le_of_lt whole.1 (Nat.lt_of_lt_of_le whole.2.1 whole.2.2),
          Nat.le_refl _⟩
      · exact SemanticFault.directed_of_none rfl
    · have there := inside.widen whole.1 whole.2.2
      cases kind
      · exact .single member there rfl (List.mem_cons_of_mem _ List.mem_cons_self)
      · exact .single member there rfl (List.mem_cons_of_mem _ List.mem_cons_self)

theorem inside_of_mem_malformed (placed : declared.Placed source) :
    ∀ fault ∈ malformed kind declared, fault.cause.stage = .repeatable ∨
      fault.span.Between declared.range.span.start declared.range.span.stop := by
  rw [malformed]
  split
  · exact fun _ member => absurd member List.not_mem_nil
  · next fault error =>
    refine List.forall_mem_singleton.mpr ?_
    rcases interval_error placed.wellPlaced error with ⟨first, last, rfl⟩ | ⟨span, rfl, inside⟩
    · exact .inl rfl
    · exact .inr (RangeKind.span_outside ▸ inside)

theorem checks_faults {ranges : List DeclaredRange} (ordered : start ≤ stop)
    (placed : ∀ declared ∈ ranges, declared.Placed source ∧
      declared.declaration.Between start stop ∧ (.number, declared.declaration) ∈ sites)
    (apart : ranges.Pairwise fun first second => first.range.span.Apart second.range.span) :
    Checks stream start stop sites [.reversedRange 0 0, (kind.outside default).cause]
      (faults kind ranges) := by
  rw [faults_eq_flatMap]
  refine .spread ordered apart (fun declared member => ?_)
    fun declared member => inside_of_mem_malformed (placed declared member).1
  obtain ⟨whole, between, site⟩ := placed declared member
  exact (checks_malformed whole site).widen between.1 between.2.2

end DeclaredRange

/-! ### Reserved numbers and names -/

variable {source : List Char}

/-- The ranges of a declaration have their places in it, and do not overlap. -/
structure PlacedRanges (source : List Char) (declaration : Span) (ranges : List DeclaredRange) :
    Prop where
  each : ∀ declared ∈ ranges, declared.Placed source ∧ declared.declaration = declaration
  apart : ranges.Pairwise fun first second => first.range.span.Apart second.range.span

theorem PlacedRanges.ofLaid {ranges : List Range}
    (laid : Outline.Laid source span.start span.stop [ranges.map Range.outline]) :
    PlacedRanges source span (ranges.map fun range => ⟨range, span⟩) := by
  obtain ⟨placed, inOrder⟩ := laid.entries List.mem_cons_self
  refine ⟨List.forall_mem_map.mpr fun range member => ?_, List.pairwise_map.mpr (inOrder.imp .inl)⟩
  exact ⟨⟨(placed range member).1, (placed range member).2⟩, rfl⟩

theorem Reserved.placed_ranges {reserved : Reserved} (placed : reserved.outline.WellPlaced source) :
    PlacedRanges source reserved.span reserved.ranges := by
  have laid := placed.parts
  rw [ranges]
  cases items : reserved.items with
  | ranges ranges =>
    rw [items] at laid
    exact .ofLaid laid
  | names names => exact ⟨fun _ member => absurd member List.not_mem_nil, .nil⟩

theorem ExtensionRanges.placed_declared {extensions : ExtensionRanges}
    (placed : extensions.outline.WellPlaced source) :
    PlacedRanges source extensions.span extensions.declared :=
  .ofLaid placed.parts.left

/-- The ranges of declarations that do not overlap. -/
theorem PlacedRanges.apart_flatMap {Entry : Type} {entries : List Entry} {spanOf : Entry → Span}
    {rangesOf : Entry → List DeclaredRange}
    (placed : ∀ entry ∈ entries, PlacedRanges source (spanOf entry) (rangesOf entry))
    (apart : entries.Pairwise fun entry other => (spanOf entry).Apart (spanOf other)) :
    (entries.flatMap rangesOf).Pairwise
      fun first second => first.range.span.Apart second.range.span := by
  refine List.pairwise_flatMap.mpr ⟨fun entry member => (placed entry member).apart, ?_⟩
  refine apart.imp_of_mem fun {entry other} member otherMember apart range rangeMember
    another anotherMember => ?_
  obtain ⟨here, hereSame⟩ := (placed entry member).each range rangeMember
  obtain ⟨there, thereSame⟩ := (placed other otherMember).each another anotherMember
  exact apart.within (hereSame ▸ here.inside) (thereSame ▸ there.inside)

/-- What uses a number and a name may use a reserved number and a reserved name. -/
theorem checks_reservationFaults {reserved : List Reserved} {kind : RangeKind}
    {number : IntLiteral} {name : Name} (member : (.body, site) ∈ sites)
    (numberInside : number.span.Between site.start site.stop)
    (nameInside : name.span.Between site.start site.stop) :
    Checks stream site.start site.stop sites
      [.reservedNumberUsed 0 default, .reservedNameUsed "" default]
      (reservationFaults reserved kind number name) := by
  have ordered := nameInside.ordered
  rw [reservationFaults]
  show Checks stream site.start site.stop sites
    ([.reservedNumberUsed 0 default] ++ [.reservedNameUsed "" default]) _
  refine Checks.append (.optional ordered fun fault found => ?_)
    (.optional ordered fun fault found => ?_) ?_
  · obtain ⟨value, -, found⟩ := Option.bind_eq_some_iff.mp found
    obtain ⟨span, -, found⟩ := Option.bind_eq_some_iff.mp found
    obtain rfl := Option.some.inj found
    exact .single member numberInside rfl List.mem_cons_self
  · obtain ⟨span, -, rfl⟩ := Option.map_eq_some_iff.mp found
    exact .single member nameInside rfl List.mem_cons_self
  · decide

end ProtoSchema
