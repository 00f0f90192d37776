/-
This file shows which way diagnostics point that tell of a name or number taken
twice. They are reported at the later declaration and point back at the earlier one,
except where declarations are compared kind by kind: there a name that is compared
first counts as the earlier one, wherever it is written.
-/

import ProtoSchema.Proofs.Frontend.Spans

namespace ProtoSchema

/-- The place of the declaration that counts as the earlier one, if the diagnostic is at the later
of two. -/
def Diagnostic.first? : Diagnostic → Option Span
  | semantic fault => fault.cause.first?
  | _ => none

/-- A name that is compared earlier than it is written stands behind the other. -/
theorem Inverted.behind {stream : List Lexeme} {first second : Span}
    (inverted : Inverted stream first second) : second.stop ≤ first.start := by
  cases inverted with
  | enum _ _ _ inMessage inEnum written =>
    exact Nat.le_trans inEnum.2.2 (Nat.le_trans written inMessage.1)
  | service _ _ _ inOther inService written =>
    exact Nat.le_trans inService.2.2 (Nat.le_trans written inOther.1)
  | oneof _ _ _ isField isOneof written => exact isField ▸ isOneof ▸ written

/-- A diagnostic at one of two declarations is at the later one, unless it is about a name that is
taken twice and the kinds of the two declarations are compared in another order. -/
theorem first_before_of_rejected {options : ParseOptions} {source : String} {report : Report}
    (rejected : options.parse source = .error report) :
    ∀ diagnostic ∈ report.diagnostics, ∀ first ∈ diagnostic.first?,
      first.start < diagnostic.span.start ∨
        diagnostic.span.stop ≤ first.start ∧
        (∃ name, diagnostic = .semantic ⟨.repeatedName name first, diagnostic.span⟩) ∧
        ∃ pieces, scan source.toList = .pieces pieces ∧
          Inverted (TokenStream.ofPieces pieces).lexemes first diagnostic.span := by
  intro diagnostic member first isFirst
  obtain ⟨primary, others, finds, rfl⟩ := ParseOptions.exists_finds rejected
  have found : diagnostic ∈ primary :: others := by
    rw [ParseOptions.report, Report.diagnostics_ofDiagnostics] at member
    exact Diagnostic.mem_arrange.mp member
  generalize primary :: others = all at finds found
  cases finds with
  | length long =>
    obtain rfl := List.mem_singleton.mp found
    cases isFirst
  | tokens scanned =>
    obtain ⟨fault, -, rfl⟩ := List.mem_map.mp found
    cases isFirst
  | declarations scanned =>
    rcases List.mem_append.mp found with broken | last
    · obtain ⟨fault, faultMember, rfl⟩ := List.mem_map.mp broken
      have findings := ParseOptions.findings_broken scanned
      rcases findings.directed fault faultMember first isFirst with
        ahead | ⟨⟨name, isName⟩, inverted⟩
      · exact .inl (Nat.lt_of_lt_of_le ahead.1 ahead.2)
      · obtain ⟨cause, span⟩ := fault
        obtain rfl : cause = _ := isName
        exact .inr ⟨inverted.behind, ⟨name, rfl⟩, _, scanned, inverted⟩
    · obtain ⟨fault, -, rfl⟩ := List.mem_map.mp last
      cases isFirst

/-- An enum is declared behind a message of its name. -/
theorem first_before_of_rejected_sample : ∃ report, parse "message A {} enum A { X = 0; }" =
      .error report ∧
    report.diagnostics = [.semantic ⟨.repeatedName "A" ⟨8, 9⟩, ⟨18, 19⟩⟩] ∧
    ∀ diagnostic ∈ report.diagnostics, ∀ first ∈ diagnostic.first?,
      first.start < diagnostic.span.start := by
  obtain ⟨report, rejected, diagnostics⟩ := ParseOptions.exists_report
    (show ({} : ParseOptions).inDeclarations "message A {} enum A { X = 0; }" =
      [.semantic ⟨.repeatedName "A" ⟨8, 9⟩, ⟨18, 19⟩⟩] by decide +kernel)
  rw [Diagnostic.arrange, List.mergeSort_singleton] at diagnostics
  refine ⟨report, rejected, diagnostics, fun diagnostic member first isFirst => ?_⟩
  rcases first_before_of_rejected rejected diagnostic member first isFirst with ahead | behind
  · exact ahead
  · rw [diagnostics] at member
    obtain rfl := List.mem_singleton.mp member
    obtain rfl := Option.some.inj isFirst
    exact absurd behind.1 (by decide)

/-- Each later declaration of a name points back at the first. -/
example : ({} : ParseOptions).inDeclarations "message A {} message A {} message A {}" =
    [.semantic ⟨.repeatedName "A" ⟨8, 9⟩, ⟨21, 22⟩⟩,
      .semantic ⟨.repeatedName "A" ⟨8, 9⟩, ⟨34, 35⟩⟩] := by
  decide +kernel

/-- An enum is declared ahead of a message of its name, in a message: the diagnostic is at the enum
and says that the name was taken by the message behind it. -/
theorem message_counts_before_enum : ∃ report,
    parse "message M { enum A { X = 0; } message A {} }" = .error report ∧
      ∃ diagnostic ∈ report.diagnostics, ∃ first ∈ diagnostic.first?,
        diagnostic.span = ⟨17, 18⟩ ∧ first = ⟨38, 39⟩ ∧
          ¬ first.start < diagnostic.span.start := by
  obtain ⟨report, rejected, diagnostics⟩ := ParseOptions.exists_report
    (show ({} : ParseOptions).inDeclarations "message M { enum A { X = 0; } message A {} }" =
      [.semantic ⟨.repeatedName "A" ⟨38, 39⟩, ⟨17, 18⟩⟩] by decide +kernel)
  have member : .semantic ⟨.repeatedName "A" ⟨38, 39⟩, ⟨17, 18⟩⟩ ∈ report.diagnostics :=
    diagnostics ▸ Diagnostic.mem_arrange.mpr List.mem_cons_self
  exact ⟨report, rejected, _, member, _, rfl, rfl, rfl, by decide⟩

end ProtoSchema
