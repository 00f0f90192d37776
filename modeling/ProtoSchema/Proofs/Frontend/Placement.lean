/-
This file shows that reports can be shown on the source that they are about. There
is an issue, the primary one first; the issues are in the order of the source,
counted in bytes as well as in lines and columns; and whatever a diagnostic points
at is a range of bytes of the source.
-/

import ProtoSchema.Proofs.Frontend.Reports
import ProtoSchema.Proofs.Scanning.Faults
import ProtoSchema.Proofs.Source.Location

namespace ProtoSchema

/-! ### Places of diagnostics -/

/-- All that a diagnostic points at, its own place and those of its labels, lies within a limit. -/
def Diagnostic.Within (limit : Nat) (diagnostic : Diagnostic) : Prop :=
  diagnostic.span.Within limit ∧ ∀ label ∈ diagnostic.labels, label.span.Within limit

theorem Span.Before.within {limit : Nat} {span : Span} (before : span.Before limit) :
    span.Within limit :=
  ⟨Nat.le_of_lt before.1, before.2⟩

namespace Diagnostic

variable {limit : Nat}

theorem within_lexical {fault : LexicalFault} (within : fault.span.Within limit) :
    (lexical fault).Within limit :=
  ⟨within, List.forall_mem_singleton.mpr within⟩

theorem within_grammatical {fault : GrammarFault} (within : fault.span.Within limit) :
    (grammatical fault).Within limit :=
  ⟨within, List.forall_mem_singleton.mpr within⟩

theorem within_semantic {fault : SemanticFault} (passed : Passed limit fault.spans) :
    (semantic fault).Within limit :=
  ⟨(passed _ fault.span_mem_spans).within, fun _ member =>
    (passed _ (List.mem_map_of_mem member)).within⟩

theorem within_tooLarge {maximum : Nat} : (tooLarge maximum).Within limit :=
  ⟨⟨Nat.le_refl _, Nat.zero_le _⟩, fun _ member => absurd member List.not_mem_nil⟩

end Diagnostic

/-- The place at which the parser stopped lies in the source. -/
theorem Outcome.Tracks.last_within {Value : Type} {limit length : Nat} {lexemes : List Lexeme}
    {outcome : Outcome Value} {count : Value → Nat} {goal : Value → Nat → Prop}
    (tracks : outcome.Tracks limit length lexemes count goal) :
    ∀ fault ∈ outcome.last?, fault.span.Within length := by
  cases outcome with
  | done value faults rest => exact fun fault member => nomatch member
  | stopped faults fault =>
    intro last member
    obtain rfl := Option.some.inj member
    obtain ⟨-, -, proper, inside, -, -⟩ := tracks
    exact ⟨proper, inside⟩

/-- Whatever is found in a source lies in it. -/
theorem ParseOptions.Finds.within {options : ParseOptions} {source : List Char}
    {found : List Diagnostic} (finds : options.Finds source found) :
    ∀ diagnostic ∈ found, diagnostic.Within (byteLength source) := by
  cases finds with
  | length long => exact List.forall_mem_singleton.mpr Diagnostic.within_tooLarge
  | tokens scanned =>
    refine List.forall_mem_map.mpr fun fault member => Diagnostic.within_lexical ?_
    exact (lexicalFaults_of_scan scanned).within fault member
  | declarations scanned =>
    have tracks := tracks_outcome scanned
    refine List.forall_mem_append.mpr ⟨List.forall_mem_map.mpr fun fault member => ?_,
      List.forall_mem_map.mpr fun fault member => Diagnostic.within_grammatical ?_⟩
    · exact Diagnostic.within_semantic (tracks.broken_passed fault member)
    · exact tracks.last_within fault (Option.mem_toList.mp member)

/-! ### Reports -/

/-- A report that can be shown on a source of the given length. -/
structure Report.WellPlaced (length : Nat) (report : Report) : Prop where
  /-- There is an issue, and the first is the primary one. -/
  honoured : ∃ first others, report.issues = first :: others ∧
    first.category = report.primary.category ∧ first.span = report.primary.span
  ordered : report.issues.Pairwise fun earlier later => earlier.span.start ≤ later.span.start
  located : report.issues.Pairwise fun earlier later => earlier.location ≤ later.location
  within : ∀ diagnostic ∈ report.diagnostics, diagnostic.Within length
  issues_within : ∀ issue ∈ report.issues, issue.span.Within length

/-- Every report on a source, whether its schema or its tokens were asked for, can be shown on
it. -/
theorem report_wellPlaced {options : ParseOptions} {source : String} {report : Report}
    (rejected : options.parse source = .error report ∨ options.tokenize source = .error report) :
    report.WellPlaced (byteLength source.toList) := by
  obtain ⟨first, others, finds, rfl⟩ :=
    ParseOptions.exists_finds (rejected.elim id ParseOptions.parse_of_tokenize)
  have diagnostics : (options.report source.toList first others).diagnostics =
      Diagnostic.arrange (first :: others) := Report.diagnostics_ofDiagnostics
  generalize options.report source.toList first others = report at diagnostics ⊢
  have ordered : report.diagnostics.Pairwise fun earlier later =>
      earlier.span.start ≤ later.span.start := by
    rw [diagnostics]
    exact Diagnostic.pairwise_arrange _
  have within : ∀ diagnostic ∈ report.diagnostics, diagnostic.Within (byteLength source.toList) :=
    fun diagnostic member =>
      finds.within diagnostic (Diagnostic.mem_arrange.mp (diagnostics ▸ member))
  exact {
    honoured := ⟨report.issue report.primary, report.related.map report.issue, rfl, rfl, rfl⟩
    ordered := List.pairwise_map.mpr ordered
    located := List.pairwise_map.mpr (ordered.imp (LineIndex.locate_le_locate report.lines))
    within
    issues_within := List.forall_mem_map.mpr fun diagnostic member =>
      (within diagnostic member).1 }

/-- Two names that break a rule, on two lines, and then a semicolon that the grammar does not
allow. -/
theorem report_wellPlaced_sample : ∃ report : Report,
    parse "message m { }\nmessage m { } ;;" = .error report ∧ report.WellPlaced 30 := by
  have fails : (parse "message m { }\nmessage m { } ;;").toOption.isNone = true := by
    decide +kernel
  cases result : parse "message m { }\nmessage m { } ;;" with
  | error report => exact ⟨report, rfl, report_wellPlaced (.inl result)⟩
  | ok file =>
    rw [result] at fails
    cases fails

end ProtoSchema
