/-
This file shows that the tree of an accepted source tells where everything stands.
Each node takes up some bytes of the source, what is in a node stands within it,
the declarations in a body stand apart and those of each kind in order, and every
identifier is read where it is written. This holds of the resolved tree as well,
since resolving moves nothing.
-/

import ProtoSchema.Proofs.Frontend.Accepted
import ProtoSchema.Proofs.Frontend.Reports
import ProtoSchema.Proofs.Layout.Files

namespace ProtoSchema

open Outline (Laid)

namespace ParseOptions

/-- The grammar is given the tokens of a source where they stand. -/
theorem scene_of_scan {source : List Char} {pieces : List Piece}
    (scanned : scan source = .pieces pieces) :
    Scene source (TokenStream.ofPieces pieces).lexemes (TokenStream.ofPieces pieces).lexemes
      ⟨none, byteLength source, (TokenStream.ofPieces pieces).atEnd⟩ where
  suffix := List.suffix_refl _
  increasing := TokenStream.increasing_ofPieces (increasing_of_scan scanned)
  spelled := TokenStream.spelled_ofPieces scanned
  length := rfl

/-- What the grammar makes of the tokens of a source is laid out in it. -/
theorem surveys_outcome {source : List Char} {pieces : List Piece}
    (scanned : scan source = .pieces pieces) :
    (outcome source pieces).Surveys source (TokenStream.ofPieces pieces).lexemes
      (offset source (TokenStream.ofPieces pieces).lexemes) [] (TokenStream.ofPieces pieces).lexemes
      fun found _ after => Laid source (offset source (TokenStream.ofPieces pieces).lexemes) after
        found.outlines :=
  Parser.surveys_file _ (scene_of_scan scanned) (.nil (Nat.le_refl _))

/-- What is known of the broken rules that the grammar goes past. -/
theorem findings_broken {source : List Char} {pieces : List Piece}
    (scanned : scan source = .pieces pieces) :
    Findings (TokenStream.ofPieces pieces).lexemes 0 (byteLength source)
      (outcome source pieces).broken := by
  have surveys := surveys_outcome scanned
  cases result : outcome source pieces with
  | done file faults rest =>
    rw [result] at surveys
    obtain ⟨left, findings, -⟩ := surveys
    exact findings.widen (Nat.zero_le _) ((scene_of_scan scanned).onward left).offset_le
  | stopped faults fault =>
    rw [result] at surveys
    exact Findings.widen surveys (Nat.zero_le _) (Nat.le_refl _)

/-- The tree that the grammar answers for a source is laid out in the source. -/
theorem Answers.laid {options : ParseOptions} {source : String} {pieces : List Piece}
    {parsed : File} (answers : options.Answers source pieces parsed) :
    Laid source.toList 0 (byteLength source.toList) parsed.outlines := by
  obtain ⟨-, scanned, rest, done⟩ := answers
  have outcome := surveys_outcome scanned
  rw [ParseOptions.outcome, done] at outcome
  obtain ⟨left, -, laid⟩ := outcome
  exact laid.widen (Nat.zero_le _) ((scene_of_scan scanned).onward left).offset_le

theorem outlines_finish {options : ParseOptions} (parsed : File) :
    (options.finish parsed).outlines = parsed.outlines := by
  rw [finish]
  split
  · exact parsed.outlines_resolve
  · rfl

end ParseOptions

/-- The tree of an accepted source is laid out in the source. -/
theorem outlines_laid_of_parse {options : ParseOptions} {source : String} {file : File}
    (accepted : options.parse source = .ok file) :
    Laid source.toList 0 (byteLength source.toList) file.outlines := by
  obtain ⟨pieces, parsed, answers, rfl⟩ := ParseOptions.parse_eq_ok_iff.mp accepted
  rw [ParseOptions.outlines_finish]
  exact answers.laid

/-- A package and two declarations of different kinds, in which a reference is resolved. -/
theorem outlines_laid_of_parse_sample : ∃ file,
    parse "package a.b; enum E { X = 0; } message M { repeated .a.b.E e = 1 [lazy = true]; }" =
        .ok file ∧
      file.outlines.map (·.map Outline.span) = [[⟨0, 12⟩], [], [], [⟨31, 81⟩], [⟨13, 30⟩], [], []] ∧
      Laid "package a.b; enum E { X = 0; } message M { repeated .a.b.E e = 1 [lazy = true]; }".toList
        0 81 file.outlines := by
  obtain ⟨file, accepted, places⟩ := exists_of_check
    (parse "package a.b; enum E { X = 0; } message M { repeated .a.b.E e = 1 [lazy = true]; }")
    (fun file => decide (file.outlines.map (·.map Outline.span) =
      [[⟨0, 12⟩], [], [], [⟨31, 81⟩], [⟨13, 30⟩], [], []])) (by decide +kernel)
  exact ⟨file, accepted, of_decide_eq_true places, outlines_laid_of_parse accepted⟩

end ProtoSchema
