/-
This file shows which oneofs a source is told to be empty: those that declare no
field, and those of which all fields were dropped, since they are maps with keys
of the wrong type.
-/

import ProtoSchema.Proofs.Frontend.Spans
import ProtoSchema.Proofs.Nesting.Blame

namespace ProtoSchema

/-- A rule that a source is said to break is one that the grammar found broken in its tokens. -/
theorem ParseOptions.semantic_mem_diagnostics_iff {options : ParseOptions} {source : String}
    {fault : SemanticFault} :
    (∃ report, options.parse source = .error report ∧ .semantic fault ∈ report.diagnostics) ↔
      ∃ pieces, options.pieces source.toList = .ok pieces ∧
        fault ∈ (outcome source.toList pieces).broken := by
  have mem_iff {pieces : List Piece} :
      .semantic fault ∈ (outcome source.toList pieces).diagnostics ↔
        fault ∈ (outcome source.toList pieces).broken := by
    simp [Outcome.diagnostics]
  constructor
  · rintro ⟨report, rejected, found⟩
    cases scanned : options.pieces source.toList with
    | error other =>
      -- Of the length and of tokens no rule for declarations is reported.
      rw [parse_of_error scanned] at rejected
      obtain rfl := Except.error.inj rejected
      unfold pieces at scanned
      split at scanned
      · obtain rfl := Except.error.inj scanned
        rw [report, Report.diagnostics_ofDiagnostics, Diagnostic.mem_arrange] at found
        simp at found
      · split at scanned
        · cases scanned
        · obtain rfl := Except.error.inj scanned
          rw [report, Report.diagnostics_ofDiagnostics, Diagnostic.mem_arrange] at found
          simp at found
    | ok pieces =>
      refine ⟨pieces, rfl, mem_iff.mp ?_⟩
      rcases parseFile_eq (byteLength source.toList) (.ofPieces pieces) with
        ⟨file, rest, -, accepted⟩ | ⟨first, others, diagnostics, refused⟩
      · rw [parse_of_accepted scanned accepted] at rejected
        cases rejected
      · rw [parse_of_rejected scanned refused] at rejected
        obtain rfl := Except.error.inj rejected
        rw [report, Report.diagnostics_ofDiagnostics, Diagnostic.mem_arrange] at found
        rwa [outcome, diagnostics]
  · rintro ⟨pieces, scanned, found⟩
    have declarations : options.inDeclarations source = (outcome source.toList pieces).diagnostics := by
      rw [inDeclarations, scanned]
    have member := mem_iff.mpr found
    obtain ⟨first, others, split⟩ := List.exists_cons_of_ne_nil (List.ne_nil_of_mem member)
    obtain ⟨report, rejected, diagnostics⟩ := exists_report (declarations.trans split)
    refine ⟨report, rejected, ?_⟩
    rw [diagnostics, Diagnostic.mem_arrange, ← split]
    exact member

/-- A oneof is said to be empty exactly if it is read to its closing brace and all fields that are
declared in it, if there are any, were dropped as maps with keys of the wrong type. -/
theorem emptyOneof_exact (options : ParseOptions) (source : String) (span : Span) :
    (∃ report, options.parse source = .error report ∧
      .semantic ⟨.emptyOneof, span⟩ ∈ report.diagnostics) ↔
    ∃ pieces declared faults members, options.pieces source.toList = .ok pieces ∧
      Parser.declaredEdition
        ⟨none, byteLength source.toList, (TokenStream.ofPieces pieces).atEnd⟩
        (TokenStream.ofPieces pieces).lexemes = .done declared faults members ∧
      LeavesEmpty ⟨declared, byteLength source.toList, (TokenStream.ofPieces pieces).atEnd⟩
        (.member .file { File.empty with declaredEdition := declared } members) span := by
  rw [ParseOptions.semantic_mem_diagnostics_iff]
  constructor
  · rintro ⟨pieces, scanned, found⟩
    obtain ⟨-, read⟩ := ParseOptions.pieces_eq_ok_iff.mp scanned
    obtain ⟨declared, faults, members, edition, leaves⟩ :=
      (Parser.emptyOneof_mem_file (ParseOptions.scene_of_scan read) fun fault member =>
        ((ParseOptions.tracks_outcome read).after_broken fault member).1).mp found
    exact ⟨pieces, declared, faults, members, scanned, edition, leaves⟩
  · rintro ⟨pieces, declared, faults, members, scanned, edition, leaves⟩
    obtain ⟨-, read⟩ := ParseOptions.pieces_eq_ok_iff.mp scanned
    exact ⟨pieces, scanned, (Parser.emptyOneof_mem_file (ParseOptions.scene_of_scan read)
      fun fault member => ((ParseOptions.tracks_outcome read).after_broken fault member).1).mpr
        ⟨declared, faults, members, edition, leaves⟩⟩

/-- A oneof with one field is said to be empty, in front of what is wrong with the field. -/
theorem dropped_field_leaves_oneof_empty : ∃ report,
    parse "message M { oneof o { map<float, int32> a = 1; } }" = .error report ∧
      report.diagnostics = [.semantic ⟨.emptyOneof, ⟨18, 19⟩⟩, .semantic ⟨.badMapKey, ⟨26, 31⟩⟩] := by
  obtain ⟨report, rejected, diagnostics⟩ := ParseOptions.exists_report
    (show ({} : ParseOptions).inDeclarations "message M { oneof o { map<float, int32> a = 1; } }" =
      [.semantic ⟨.badMapKey, ⟨26, 31⟩⟩, .semantic ⟨.emptyOneof, ⟨18, 19⟩⟩] by decide +kernel)
  exact ⟨report, rejected, diagnostics.trans (Diagnostic.arrange_swap (by decide))⟩

end ProtoSchema
