/-
This file shows which issues a report can hold twice. Only immediate repetitions of
a diagnostic are left out, so an issue of a kind that can be found repeatedly at one
place is told again if another one is found between. No other kind of issue is
ever told twice, since no two faults of the kind are at one place.
-/

import ProtoSchema.Proofs.Diagnostic.Wording
import ProtoSchema.Proofs.Frontend.Spans
import ProtoSchema.Proofs.Scanning.Faults

namespace ProtoSchema

namespace Diagnostic

/-- The kinds of diagnostics that several checks, or one check for several entries, may find at one
place. -/
def MayRepeat : Diagnostic → Prop
  | semantic ⟨.reversedRange _ _, _⟩ | semantic ⟨.repeatedName _ _, _⟩ |
    semantic ⟨.repeatedFieldNumber _ _, _⟩ => True
  | _ => False

/-- An issue tells nothing but the category, the message and the place. -/
def Repeats (first second : Diagnostic) : Prop :=
  first.category = second.category ∧ first.message = second.message ∧ first.span = second.span

theorem Repeats.symm {first second : Diagnostic} (repeats : first.Repeats second) :
    second.Repeats first :=
  ⟨repeats.1.symm, repeats.2.1.symm, repeats.2.2.symm⟩

theorem mayRepeat_of_stage {fault : SemanticFault} (stage : fault.cause.stage = .repeatable) :
    (semantic fault).MayRepeat := by
  obtain ⟨cause, span⟩ := fault
  cases cause <;> trivial

/-- Diagnostics that may repeat are about declarations that break a rule. -/
theorem MayRepeat.category {diagnostic : Diagnostic} (mayRepeat : diagnostic.MayRepeat) :
    diagnostic.category = .semantic := by
  cases diagnostic with
  | semantic fault => rfl
  | lexical fault => cases mayRepeat
  | grammatical fault => cases mayRepeat
  | tooLarge limit => cases mayRepeat

end Diagnostic

theorem Report.issue_eq_iff {report : Report} {first second : Diagnostic} :
    report.issue first = report.issue second ↔ first.Repeats second := by
  constructor
  · intro same
    obtain ⟨category, message, -, span⟩ := Issue.mk.inj same
    exact ⟨category, message, span⟩
  · rintro ⟨category, message, span⟩
    rw [issue, issue, category, message, span]

/-- Two broken rules are told alike only if they are of a kind that may be found repeatedly. -/
theorem SemanticFault.Distinct.mayRepeat {first second : SemanticFault}
    (distinct : first.Distinct second)
    (repeats : (Diagnostic.semantic first).Repeats (.semantic second)) :
    (Diagnostic.semantic first).MayRepeat ∧ (Diagnostic.semantic second).MayRepeat := by
  obtain ⟨-, message, span⟩ := repeats
  have kind := SemanticCause.kind_eq_of_message message
  have stage := distinct span kind
  refine ⟨Diagnostic.mayRepeat_of_stage stage, Diagnostic.mayRepeat_of_stage ?_⟩
  rw [← SemanticCause.stage_kind, ← kind, SemanticCause.stage_kind, stage]

/-- Of all that is found in a source, no two diagnostics are told alike but those that may
repeat. -/
theorem ParseOptions.Finds.mayRepeat {options : ParseOptions} {source : List Char}
    {found : List Diagnostic} (finds : options.Finds source found) :
    found.Pairwise fun first second =>
      first.Repeats second → first.MayRepeat ∧ second.MayRepeat := by
  cases finds with
  | length long => exact List.pairwise_singleton _ _
  | tokens scanned =>
    refine List.pairwise_map.mpr ((lexicalFaults_of_scan scanned).apart.imp ?_)
    intro first second apart repeats
    obtain ⟨-, message, span⟩ := repeats
    exact absurd (congrArg Span.start span) (apart (LexicalCause.message_injective message))
  | declarations scanned =>
    refine List.pairwise_append.mpr ⟨?_, ?_, List.forall_mem_map.mpr fun fault member =>
      List.forall_mem_map.mpr fun last lastMember repeats => ?_⟩
    · exact List.pairwise_map.mpr
        ((findings_broken scanned).distinct.imp SemanticFault.Distinct.mayRepeat)
    · cases (outcome source _).last? with
      | none => exact .nil
      | some last => exact List.pairwise_singleton _ _
    · have after := (tracks_outcome scanned).after_broken last (Option.mem_toList.mp lastMember)
      exact absurd (congrArg Span.start repeats.2.2) (Nat.ne_of_lt (after.2 fault member))

/-- An issue is told twice just in case two diagnostics of the kinds that may repeat have one place
and one message. -/
theorem nodup_issues_iff {options : ParseOptions} {source : String} {report : Report}
    (rejected : options.parse source = .error report ∨ options.tokenize source = .error report) :
    report.issues.Nodup ↔ report.diagnostics.Pairwise fun first second =>
      first.MayRepeat → second.MayRepeat → first.span = second.span →
        first.message ≠ second.message := by
  obtain ⟨first, others, finds, rfl⟩ :=
    ParseOptions.exists_finds (rejected.elim id ParseOptions.parse_of_tokenize)
  have repeatable : (options.report source.toList first others).diagnostics.Pairwise
      fun first second => first.Repeats second → first.MayRepeat ∧ second.MayRepeat := by
    rw [ParseOptions.report, Report.diagnostics_ofDiagnostics]
    exact Diagnostic.pairwise_arrange_of_symm
      (fun related repeats => (related repeats.symm).symm) finds.mayRepeat
  generalize options.report source.toList first others = report at repeatable ⊢
  rw [Report.issues, List.Nodup, List.pairwise_map]
  constructor
  · refine List.Pairwise.imp fun differ firstMay secondMay span message => ?_
    exact differ (Report.issue_eq_iff.mpr
      ⟨firstMay.category.trans secondMay.category.symm, message, span⟩)
  · intro apart
    refine (repeatable.and apart).imp fun both same => ?_
    have repeats := Report.issue_eq_iff.mp same
    obtain ⟨firstMay, secondMay⟩ := both.1 repeats
    exact both.2 firstMay secondMay repeats.2.2 repeats.2.1

/-- Two ranges of one declaration are reversed. -/
theorem nodup_issues_sample : ∃ report,
    parse "message M { reserved 5 to 3, 9 to 8; }" = .error report ∧
      report.issues.length = 2 ∧ report.issues.Nodup := by
  obtain ⟨report, rejected, diagnostics⟩ := ParseOptions.exists_report
    (show ({} : ParseOptions).inDeclarations "message M { reserved 5 to 3, 9 to 8; }" =
      [.semantic ⟨.reversedRange 5 3, ⟨12, 36⟩⟩, .semantic ⟨.reversedRange 9 8, ⟨12, 36⟩⟩] by
        decide +kernel)
  rw [Diagnostic.arrange, List.mergeSort_of_pairwise (by decide)] at diagnostics
  have both : report.diagnostics =
      [.semantic ⟨.reversedRange 5 3, ⟨12, 36⟩⟩, .semantic ⟨.reversedRange 9 8, ⟨12, 36⟩⟩] :=
    diagnostics.trans (by decide)
  refine ⟨report, rejected, ?_, (nodup_issues_iff (.inl rejected)).mpr ?_⟩
  · rw [Report.issues, List.length_map, both]
    rfl
  · rw [both]
    exact List.pairwise_pair.mpr fun _ _ _ => by decide

/-- A reversed range is told again if another one is told between, since all three are reported at
the declaration. -/
theorem reversed_range_told_twice : ∃ report,
    parse "message M { reserved 5 to 3, 9 to 8, 5 to 3; }" = .error report ∧
      report.issues.length = 3 ∧ report.issues[0]? = report.issues[2]? ∧
        ¬ report.issues.Nodup := by
  obtain ⟨report, rejected, diagnostics⟩ := ParseOptions.exists_report
    (show ({} : ParseOptions).inDeclarations "message M { reserved 5 to 3, 9 to 8, 5 to 3; }" =
      [.semantic ⟨.reversedRange 5 3, ⟨12, 44⟩⟩, .semantic ⟨.reversedRange 9 8, ⟨12, 44⟩⟩,
        .semantic ⟨.reversedRange 5 3, ⟨12, 44⟩⟩] by decide +kernel)
  rw [Diagnostic.arrange, List.mergeSort_of_pairwise (by decide)] at diagnostics
  have issues : report.issues =
      [report.issue (.semantic ⟨.reversedRange 5 3, ⟨12, 44⟩⟩),
        report.issue (.semantic ⟨.reversedRange 9 8, ⟨12, 44⟩⟩),
        report.issue (.semantic ⟨.reversedRange 5 3, ⟨12, 44⟩⟩)] := by
    rw [Report.issues, diagnostics]
    rfl
  refine ⟨report, rejected, ?_⟩
  rw [issues]
  exact ⟨rfl, rfl, by simp⟩

end ProtoSchema
