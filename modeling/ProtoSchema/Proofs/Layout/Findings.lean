/-
This file says what is known of the faults that are found between two positions of
a source. They lie there. Of one kind no more than one is found at one place,
unless it is of a kind for which this does not hold. And a fault that points back
at an earlier declaration of the same name or number points at what stands before
it, unless the declarations are written the other way round than they are compared.
-/

import ProtoSchema.Grammar.Files
import ProtoSchema.Proofs.Layout.Outline

namespace ProtoSchema

/-! ### Kinds of faults -/

/-- The checks that find faults: those of a number, also as the bound of a range; those of a phrase;
those of oneofs and extension blocks; those of enums, messages and services; and those of the whole
file. What is compared in several checks, or reported at a whole declaration, may be found
repeatedly. -/
inductive Stage where
  | repeatable
  | number
  | phrase
  | group
  | body
  | file
deriving DecidableEq

namespace SemanticCause

/-- The cause without its details. -/
def kind : SemanticCause → SemanticCause
  | unknownEdition _ => unknownEdition ""
  | badTypeName kind _ => badTypeName kind ""
  | badPackageName _ => badPackageName ""
  | repeatedImport _ _ => repeatedImport "" default
  | repeatedPackage _ => repeatedPackage default
  | reversedRange _ _ => reversedRange 0 0
  | repeatedName _ _ => repeatedName "" default
  | repeatedFieldNumber _ _ => repeatedFieldNumber 0 default
  | repeatedEnumNumber _ _ => repeatedEnumNumber 0 default
  | reservedNumberUsed _ _ => reservedNumberUsed 0 default
  | reservedNameUsed _ _ => reservedNameUsed "" default
  | badExtendee _ => badExtendee ""
  | badMethodType _ => badMethodType ""
  | other => other

/-- The stage at which a fault of each kind is found. -/
def stage : SemanticCause → Stage
  | reversedRange _ _ | repeatedName _ _ | repeatedFieldNumber _ _ => .repeatable
  | fieldNumberOutOfRange | enumNumberOutOfRange => .number
  | unknownEdition _ | badReservedName | repeatedPackage _ | fieldNumberSetAside | badMapKey
  | requiredInExtension | requiredInProto3 | defaultInProto3 => .phrase
  | emptyOneof | labelInOneof | mapInOneof | mapInExtension | badExtendee _ => .group
  | badTypeName _ _ | repeatedEnumNumber _ _ | reservedNumberUsed _ _ | reservedNameUsed _ _
  | emptyEnum | firstEnumValueNotZero | labelOnMap | badMethodType _ => .body
  | badPackageName _ | badImportPath | repeatedImport _ _ => .file

/-- The place of the declaration that has taken the name or number, where there is one. -/
def first? : SemanticCause → Option Span
  | repeatedImport _ first | repeatedPackage first | repeatedName _ first
  | repeatedFieldNumber _ first | repeatedEnumNumber _ first => some first
  | _ => none

theorem stage_kind (cause : SemanticCause) : cause.kind.stage = cause.stage := by
  cases cause <;> rfl

end SemanticCause

/-- Two faults at one place are of different kinds, unless their kind is found repeatedly. -/
def SemanticFault.Distinct (first second : SemanticFault) : Prop :=
  first.span = second.span → first.cause.kind = second.cause.kind →
    first.cause.stage = .repeatable

/-- The faults are found by these checks. -/
def FromStages (stages : List Stage) (faults : List SemanticFault) : Prop :=
  ∀ fault ∈ faults, fault.cause.stage ∈ stages

/-! ### Declarations in a source -/

/-- The parser reads the value somewhere in a stream of lexemes. -/
def Parser.ReadIn {Value : Type} (stream : List Lexeme) (parser : Parser Value) (value : Value) :
    Prop :=
  ∃ setting lexemes faults rest, lexemes <:+ stream ∧
    parser setting lexemes = .done value faults rest

/-- The messages and the enums of one block that is read in a stream: of a file, of a message, or of
a message in a block. -/
inductive Siblings (stream : List Lexeme) : List Message → List Enumeration → Prop
  | file {declared : Option Edition} {file : File}
      (read : (Parser.declarations declared).ReadIn stream file) :
      Siblings stream file.messages file.enums
  | message {depth : Nat} {path : MessagePath} {message : Message}
      (read : (Parser.message depth path).ReadIn stream message) :
      Siblings stream message.messages message.enums
  | nested {messages : List Message} {enums : List Enumeration} {inner : Message}
      (outer : Siblings stream messages enums) (member : inner ∈ messages) :
      Siblings stream inner.messages inner.enums

/-- Two places in a source at which names are declared, of which the first is compared first and
written last. -/
inductive Inverted (stream : List Lexeme) (first second : Span) : Prop
  /-- The names in a message come before those in an enum of the same block. -/
  | enum {messages : List Message} {enums : List Enumeration} {message : Message}
      {enumeration : Enumeration} (block : Siblings stream messages enums)
      (messageMember : message ∈ messages) (enumMember : enumeration ∈ enums)
      (inMessage : first.Between message.span.start message.span.stop)
      (inEnum : second.Between enumeration.span.start enumeration.span.stop)
      (written : enumeration.span.stop ≤ message.span.start)
  /-- The names in messages and enums come before those in a service. -/
  | service {declared : Option Edition} {file : File} {other : Span} {service : Service}
      (read : (Parser.declarations declared).ReadIn stream file)
      (otherMember : other ∈ file.messages.map Message.span ++ file.enums.map Enumeration.span)
      (serviceMember : service ∈ file.services)
      (inOther : first.Between other.start other.stop)
      (inService : second.Between service.span.start service.span.stop)
      (written : service.span.stop ≤ other.start)
  /-- The names of all fields come before those of the oneofs. -/
  | oneof {depth : Nat} {path : MessagePath} {message : Message} {field : Field} {oneof : Oneof}
      (read : (Parser.message depth path).ReadIn stream message)
      (fieldMember : field ∈ message.allFields) (oneofMember : oneof ∈ message.oneofs)
      (isField : first = field.name.span) (isOneof : second = oneof.name.span)
      (written : oneof.name.span.stop ≤ field.name.span.start)

/-- What a fault points back at stands before it, or is a name that is compared earlier than it is
written. -/
def SemanticFault.Directed (stream : List Lexeme) (fault : SemanticFault) : Prop :=
  ∀ first ∈ fault.cause.first?, first.Before fault.span.start ∨
    (∃ name, fault.cause = .repeatedName name first) ∧ Inverted stream first fault.span

/-! ### Findings -/

/-- What is known of the faults found between two positions. -/
structure Findings (stream : List Lexeme) (start stop : Nat) (found : List SemanticFault) :
    Prop where
  ordered : start ≤ stop
  between : ∀ fault ∈ found, fault.span.Between start stop
  distinct : found.Pairwise SemanticFault.Distinct
  directed : ∀ fault ∈ found, fault.Directed stream

variable {stream : List Lexeme} {start middle stop last : Nat} {first second : SemanticFault}
variable {found more : List SemanticFault} {cause : SemanticCause} {span : Span}

theorem SemanticFault.distinct_of_stage (differ : first.cause.stage ≠ second.cause.stage) :
    first.Distinct second := by
  intro _ same
  rw [← first.cause.stage_kind, ← second.cause.stage_kind, same] at differ
  exact absurd rfl differ

theorem SemanticFault.distinct_of_kind (differ : first.cause.kind ≠ second.cause.kind) :
    first.Distinct second :=
  fun _ same => absurd same differ

theorem SemanticFault.distinct_of_apart (between : first.span.Between start stop)
    (apart : first.span.Apart second.span) : first.Distinct second :=
  fun same _ => absurd (same ▸ apart) between.not_apart

theorem SemanticFault.distinct_of_repeatable (stage : second.cause.stage = .repeatable) :
    first.Distinct second := by
  intro _ same
  rw [← first.cause.stage_kind, same, second.cause.stage_kind, stage]

theorem SemanticFault.directed_of_none (none : cause.first? = none) :
    SemanticFault.Directed stream ⟨cause, span⟩ := by
  intro first member
  rw [none] at member
  cases member

namespace FromStages

variable {stages others : List Stage}

theorem nil : FromStages stages [] := fun _ member => absurd member List.not_mem_nil

theorem singleton (member : cause.stage ∈ stages) : FromStages stages [⟨cause, span⟩] :=
  List.forall_mem_singleton.mpr member

theorem append (first : FromStages stages found) (second : FromStages stages more) :
    FromStages stages (found ++ more) :=
  List.forall_mem_append.mpr ⟨first, second⟩

theorem mono (from_ : FromStages stages found) (subset : stages ⊆ others) :
    FromStages others found :=
  fun fault member => subset (from_ fault member)

end FromStages

namespace Findings

theorem nil (ordered : start ≤ stop) : Findings stream start stop [] :=
  ⟨ordered, fun _ member => absurd member List.not_mem_nil, .nil,
    fun _ member => absurd member List.not_mem_nil⟩

theorem singleton (between : span.Between start stop) (none : cause.first? = none) :
    Findings stream start stop [⟨cause, span⟩] where
  ordered := between.ordered
  between := List.forall_mem_singleton.mpr between
  distinct := List.pairwise_singleton _ _
  directed := List.forall_mem_singleton.mpr (SemanticFault.directed_of_none none)

theorem widen (findings : Findings stream middle stop found) (ahead : start ≤ middle)
    (onward : stop ≤ last) : Findings stream start last found :=
  { findings with
    ordered := Nat.le_trans ahead (Nat.le_trans findings.ordered onward)
    between := fun fault member => (findings.between fault member).widen ahead onward }

theorem later (findings : Findings stream start middle found) (later : middle ≤ stop) :
    Findings stream start stop found :=
  findings.widen (Nat.le_refl _) later

/-- Faults that are told apart from those found before. -/
theorem combine (findings : Findings stream start stop found)
    (others : Findings stream start stop more)
    (across : ∀ fault ∈ found, ∀ other ∈ more, fault.Distinct other) :
    Findings stream start stop (found ++ more) where
  ordered := findings.ordered
  between := List.forall_mem_append.mpr ⟨findings.between, others.between⟩
  distinct := List.pairwise_append.mpr ⟨findings.distinct, others.distinct, across⟩
  directed := List.forall_mem_append.mpr ⟨findings.directed, others.directed⟩

/-- Faults behind those found before. -/
theorem append (findings : Findings stream start middle found)
    (others : Findings stream middle stop more) : Findings stream start stop (found ++ more) := by
  refine (findings.later others.ordered).combine (others.widen findings.ordered (Nat.le_refl _)) ?_
  intro fault member other otherMember
  exact SemanticFault.distinct_of_apart (findings.between fault member)
    ((findings.between fault member).apart (others.between other otherMember))

/-- The faults of entries that do not overlap, if those of each lie in the entry. -/
theorem each {Entry : Type} {entries : List Entry} {spanOf : Entry → Span}
    {faultsOf : Entry → List SemanticFault} (ordered : start ≤ stop)
    (between : ∀ entry ∈ entries, (spanOf entry).Between start stop)
    (apart : entries.Pairwise fun entry other => (spanOf entry).Apart (spanOf other))
    (each : ∀ entry ∈ entries,
      Findings stream (spanOf entry).start (spanOf entry).stop (faultsOf entry)) :
    Findings stream start stop (entries.flatMap faultsOf) where
  ordered
  between := List.forall_mem_flatMap.mpr fun entry member fault faultMember =>
    ((each entry member).between fault faultMember).widen (between entry member).1
      (between entry member).2.2
  distinct := by
    refine List.pairwise_flatMap.mpr ⟨fun entry member => (each entry member).distinct, ?_⟩
    refine apart.imp_of_mem fun {entry other} member otherMember apart fault faultMember
      another anotherMember => ?_
    have inside := (each entry member).between fault faultMember
    exact SemanticFault.distinct_of_apart inside
      (apart.within inside ((each other otherMember).between another anotherMember))
  directed := List.forall_mem_flatMap.mpr fun entry member => (each entry member).directed

end Findings

/-! ### Sites -/

/-- A stage, and a place where faults of that stage are found. -/
abbrev StageSite := Stage × Span

/-- The fault may be found repeatedly or lies in a site of its stage. -/
def SemanticFault.At (sites : List StageSite) (fault : SemanticFault) : Prop :=
  fault.cause.stage = .repeatable ∨ ∃ site ∈ sites,
    fault.cause.stage = site.1 ∧ fault.span.Between site.2.start site.2.stop

/-- No fault of its stage lies in any of the sites. -/
def Clear (sites : List StageSite) (found : List SemanticFault) : Prop :=
  ∀ fault ∈ found, ∀ site ∈ sites, fault.cause.stage = site.1 → fault.span.Apart site.2

variable {sites others : List StageSite}

namespace Clear

theorem nil : Clear sites [] := fun _ member => absurd member List.not_mem_nil

/-- Faults in sites that were clear are told apart from those found before. -/
theorem distinct (clear : Clear sites found) (findings : Findings stream start stop found)
    (own : ∀ fault ∈ more, fault.At sites) :
    ∀ fault ∈ found, ∀ other ∈ more, fault.Distinct other := by
  intro fault member other otherMember
  rcases own other otherMember with repeatable | ⟨site, siteMember, stage, inside⟩
  · exact SemanticFault.distinct_of_repeatable repeatable
  · by_cases same : fault.cause.stage = other.cause.stage
    · have whole := (findings.between fault member).whole
      have apart := clear fault member site siteMember (same.trans stage)
      exact SemanticFault.distinct_of_apart whole (apart.within whole inside)
    · exact SemanticFault.distinct_of_stage same

/-- What is found behind all sites leaves them clear, and with them a place where no fault of their
stages is found. -/
theorem append (clear : Clear sites found) (early : Findings stream start middle found)
    (late : Findings stream middle stop more) (before : ∀ site ∈ sites, site.2.stop ≤ middle)
    (new : ∀ site ∈ others, site ∈ sites ∨
      (middle ≤ site.2.start ∧ ∀ fault ∈ more, fault.cause.stage ≠ site.1)) :
    Clear others (found ++ more) := by
  refine List.forall_mem_append.mpr ⟨fun fault member site siteMember stage => ?_,
    fun fault member site siteMember stage => ?_⟩
  · rcases new site siteMember with known | ⟨behind, -⟩
    · exact clear fault member site known stage
    · exact .inl (Nat.le_trans (early.between fault member).2.2 behind)
  · rcases new site siteMember with known | ⟨-, never⟩
    · exact .inr (Nat.le_trans (before site known) (late.between fault member).1)
    · exact absurd stage (never fault member)

end Clear

end ProtoSchema
