/-
This file shows what a rejected source is told. It is refused for its length, for
its tokens or for its declarations, and only one of these is reported: the
length alone, malformed tokens alone, or broken rules with at most one place that
the grammar does not allow, which lies after all of them. Reading tokens alone
rejects a source for the same reasons, except that it looks for no declarations.
-/

import ProtoSchema.Proofs.Diagnostic.Arrange
import ProtoSchema.Proofs.Frontend.Accepted
import ProtoSchema.Proofs.Tracking.Files

namespace ProtoSchema

/-! ### Reports -/

/-- What a source is refused for. -/
inductive Refusal where
  | length
  | tokens
  | declarations
deriving DecidableEq, Repr

/-- What is reported on a source that is refused for that. -/
def Refusal.Fits (issues : List Issue) : Refusal → Prop
  | length => ∃ issue, issues = [issue] ∧ issue.category = .limit
  | tokens => issues ≠ [] ∧ ∀ issue ∈ issues, issue.category = .lexical
  | declarations => issues ≠ [] ∧ ∃ (broken : List Issue) (last : Option Issue),
      issues = broken ++ last.toList ∧ (∀ issue ∈ broken, issue.category = .semantic) ∧
        ∀ issue ∈ last, issue.category = .grammatical ∧
          ∀ earlier ∈ broken, earlier.span.start < issue.span.start

/-- What there can be among the issues. -/
def Refusal.categories : Refusal → List Category
  | length => [.limit]
  | tokens => [.lexical]
  | declarations => [.semantic, .grammatical]

namespace Refusal

variable {issues : List Issue} {refusal other : Refusal}

theorem Fits.nonempty (fits : refusal.Fits issues) : issues ≠ [] := by
  cases refusal with
  | length =>
    obtain ⟨issue, rfl, -⟩ := fits
    exact List.cons_ne_nil _ _
  | tokens => exact fits.1
  | declarations => exact fits.1

theorem Fits.category (fits : refusal.Fits issues) :
    ∀ issue ∈ issues, issue.category ∈ refusal.categories := by
  intro issue member
  cases refusal with
  | length =>
    obtain ⟨found, rfl, category⟩ := fits
    rw [List.mem_singleton.mp member, category]
    exact List.mem_cons_self
  | tokens =>
    rw [fits.2 issue member]
    exact List.mem_cons_self
  | declarations =>
    obtain ⟨-, broken, last, rfl, semantic, grammatical⟩ := fits
    rcases List.mem_append.mp member with member | member
    · rw [semantic issue member]
      exact List.mem_cons_self
    · rw [(grammatical issue (Option.mem_toList.mp member)).1]
      exact List.mem_cons_of_mem _ List.mem_cons_self

/-- No two kinds of refusal share a category. -/
theorem eq_of_categories {category : Category} (member : category ∈ refusal.categories)
    (otherMember : category ∈ other.categories) : refusal = other := by
  cases refusal <;> cases other <;> cases category <;> simp_all [categories]

theorem Fits.unique (fits : refusal.Fits issues) (otherFits : other.Fits issues) :
    refusal = other := by
  obtain ⟨issue, member⟩ := List.exists_mem_of_ne_nil _ fits.nonempty
  exact eq_of_categories (fits.category issue member) (otherFits.category issue member)

theorem internal_notMem_categories (refusal : Refusal) : .internal ∉ refusal.categories := by
  cases refusal <;> decide

end Refusal

theorem Diagnostic.category_grammatical {fault : GrammarFault} (cause_ne : fault.cause ≠ .stalled) :
    (Diagnostic.grammatical fault).category = .grammatical := by
  obtain ⟨cause, span⟩ := fault
  cases cause with
  | stalled => exact absurd rfl cause_ne
  | _ => rfl

theorem Report.diagnostics_ofDiagnostics {file : String} {source : List Char} {found : Diagnostic}
    {others : List Diagnostic} :
    (Report.ofDiagnostics file source found others).diagnostics =
      Diagnostic.arrange (found :: others) := by
  rw [ofDiagnostics]
  split
  · next none => exact absurd none (Diagnostic.arrange_ne_nil (List.cons_ne_nil _ _))
  · next primary related arranged => exact arranged.symm

namespace ParseOptions

variable {options : ParseOptions} {source : List Char}

/-- The issues of a report are the diagnostics that it was made of, arranged. -/
theorem issues_report {first : Diagnostic} {others : List Diagnostic} :
    (options.report source first others).issues =
      (Diagnostic.arrange (first :: others)).map (options.report source first others).issue := by
  rw [Report.issues, report, Report.diagnostics_ofDiagnostics]

theorem fits_length {limit : Nat} :
    Refusal.length.Fits (options.report source (.tooLarge limit) []).issues := by
  have single : Diagnostic.arrange [.tooLarge limit] = [.tooLarge limit] := by
    rw [Diagnostic.arrange, List.mergeSort_singleton]
    rfl
  exact ⟨_, issues_report.trans (congrArg (List.map _) single), rfl⟩

theorem fits_tokens {first : LexicalFault} {others : List LexicalFault} :
    Refusal.tokens.Fits
      (options.report source (.lexical first) (others.map .lexical)).issues := by
  refine ⟨List.cons_ne_nil _ _, ?_⟩
  rw [issues_report, List.forall_mem_map]
  intro diagnostic member
  rw [Diagnostic.mem_arrange, ← List.map_cons] at member
  obtain ⟨fault, -, rfl⟩ := List.mem_map.mp member
  rfl

/-- The report on broken rules and perhaps one place that the grammar does not allow. -/
theorem fits_declarations {first : Diagnostic} {others : List Diagnostic} {outcome : Outcome File}
    (found : outcome.diagnostics = first :: others)
    (after : ∀ fault ∈ outcome.last?, fault.cause ≠ .stalled ∧
      ∀ earlier ∈ outcome.broken, earlier.span.start < fault.span.start) :
    Refusal.declarations.Fits (options.report source first others).issues := by
  refine ⟨List.cons_ne_nil _ _, ?_⟩
  rw [issues_report, ← found, Outcome.diagnostics]
  generalize options.report source first others = report
  have semantic : ∀ front ⊆ outcome.broken.map Diagnostic.semantic,
      ∀ issue ∈ front.map report.issue, issue.category = .semantic := by
    refine fun front fewer => List.forall_mem_map.mpr fun diagnostic member => ?_
    obtain ⟨fault, -, rfl⟩ := List.mem_map.mp (fewer member)
    rfl
  cases last : outcome.last? with
  | none =>
    refine ⟨_, none, (List.append_nil _).symm, semantic _ fun diagnostic member => ?_,
      fun _ member => nomatch member⟩
    rwa [Diagnostic.mem_arrange, Option.toList_none, List.map_nil, List.append_nil] at member
  | some fault =>
    obtain ⟨cause, before⟩ := after fault last
    have starts : ∀ other ∈ outcome.broken.map Diagnostic.semantic,
        other.span.start < (Diagnostic.grammatical fault).span.start :=
      List.forall_mem_map.mpr before
    obtain ⟨front, arranged, fewer⟩ := Diagnostic.arrange_concat starts
    refine ⟨front.map report.issue, some (report.issue (.grammatical fault)), ?_,
      semantic front fewer, fun issue member => ?_⟩
    · rw [Option.toList_some, List.map_singleton, arranged, List.map_append]
      rfl
    · obtain rfl := Option.mem_some.mp member
      refine ⟨?_, List.forall_mem_map.mpr fun other otherMember => starts other (fewer otherMember)⟩
      exact Diagnostic.category_grammatical cause

/-- Whatever a source is refused for, the report fits it. -/
theorem exists_fits {source : String} {report : Report}
    (rejected : options.parse source = .error report) :
    ∃ refusal : Refusal, refusal.Fits report.issues := by
  cases found : options.pieces source.toList with
  | error other =>
    rw [parse_of_error found] at rejected
    obtain rfl : other = report := Except.error.inj rejected
    unfold pieces at found
    split at found
    · obtain rfl := Except.error.inj found
      exact ⟨.length, fits_length⟩
    · split at found
      · cases found
      · obtain rfl := Except.error.inj found
        exact ⟨.tokens, fits_tokens⟩
  | ok pieces =>
    obtain ⟨-, scanned⟩ := pieces_eq_ok_iff.mp found
    cases parsed : parseFile (byteLength source.toList) (.ofPieces pieces) with
    | accepted file =>
      rw [parse_of_accepted found parsed] at rejected
      cases rejected
    | rejected first others =>
      rw [parse_of_rejected found parsed] at rejected
      obtain rfl := Except.error.inj rejected
      have increasing := TokenStream.increasing_ofPieces (increasing_of_scan scanned)
      have tracks : (Parser.file _ _).Tracks _ _ _ _ _ := Parser.tracks_file increasing
        ⟨none, byteLength source.toList, (TokenStream.ofPieces pieces).atEnd⟩ (Nat.le_refl _)
      rcases parseFile_eq (byteLength source.toList) (.ofPieces pieces) with
        ⟨file, rest, -, accepted⟩ | ⟨_, _, found, same⟩
      · rw [accepted] at parsed
        cases parsed
      · obtain ⟨rfl, rfl⟩ := ParsedFile.rejected.inj (same.symm.trans parsed)
        exact ⟨.declarations, fits_declarations found tracks.after_broken⟩

end ParseOptions

/-- A source that is rejected is refused for one thing alone, which its report fits; and the parser
never gives up on a repetition that takes nothing. -/
theorem rejection_shape {options : ParseOptions} {source : String} {report : Report}
    (rejected : options.parse source = .error report) :
    (∃! refusal : Refusal, refusal.Fits report.issues) ∧
      ∀ issue ∈ report.issues, issue.category ≠ .internal := by
  obtain ⟨refusal, fits⟩ := ParseOptions.exists_fits rejected
  refine ⟨⟨refusal, fits, fun other otherFits => otherFits.unique fits⟩, fun issue member eq => ?_⟩
  exact refusal.internal_notMem_categories (eq ▸ fits.category issue member)

/-- A name that breaks a rule stands before a semicolon that the grammar does not allow. -/
theorem rejection_shape_sample : ∃ report : Report,
    parse "message m { } ;;" = .error report ∧
      (∃! refusal : Refusal, refusal.Fits report.issues) ∧
        ∀ issue ∈ report.issues, issue.category ≠ .internal := by
  have fails : (parse "message m { } ;;").toOption.isNone = true := by decide +kernel
  cases result : parse "message m { } ;;" with
  | error report => exact ⟨report, rfl, rejection_shape result⟩
  | ok file =>
    rw [result] at fails
    cases fails

/-! ### What is found -/

namespace ParseOptions

variable {options : ParseOptions} {source : String} {report : Report}

/-- What the grammar makes of the tokens of a source. -/
def outcome (source : List Char) (pieces : List Piece) : Outcome File :=
  Parser.file ⟨none, byteLength source, (TokenStream.ofPieces pieces).atEnd⟩
    (TokenStream.ofPieces pieces).lexemes

/-- What can be found in a source that is rejected, in the order in which it is found. -/
inductive Finds (options : ParseOptions) (source : List Char) : List Diagnostic → Prop
  | length (long : options.maxLength < byteLength source) :
      Finds options source [.tooLarge options.maxLength]
  | tokens {first : LexicalFault} {others : List LexicalFault}
      (scanned : scan source = .faulty first others) :
      Finds options source ((first :: others).map .lexical)
  | declarations {pieces : List Piece} (scanned : scan source = .pieces pieces) :
      Finds options source (outcome source pieces).diagnostics

/-- The tokens of a source are refused only if its schema is. -/
theorem parse_of_tokenize (rejected : options.tokenize source = .error report) :
    options.parse source = .error report := by
  cases found : options.pieces source.toList with
  | error other =>
    rw [tokenize, found] at rejected
    obtain rfl : other = report := Except.error.inj rejected
    exact parse_of_error found
  | ok pieces =>
    rw [tokenize, found] at rejected
    cases rejected

/-- A report is made of what was found in the source. -/
theorem exists_finds (rejected : options.parse source = .error report) :
    ∃ first others, options.Finds source.toList (first :: others) ∧
      report = options.report source.toList first others := by
  cases found : options.pieces source.toList with
  | error other =>
    rw [parse_of_error found] at rejected
    obtain rfl := Except.error.inj rejected
    unfold pieces at found
    split at found
    · next long => exact ⟨_, _, .length long, (Except.error.inj found).symm⟩
    · split at found
      · cases found
      · next first others scanned =>
        exact ⟨_, _, .tokens scanned, (Except.error.inj found).symm⟩
  | ok pieces =>
    obtain ⟨-, scanned⟩ := pieces_eq_ok_iff.mp found
    rcases parseFile_eq (byteLength source.toList) (.ofPieces pieces) with
      ⟨file, rest, -, accepted⟩ | ⟨first, others, diagnostics, refused⟩
    · rw [parse_of_accepted found accepted] at rejected
      cases rejected
    · rw [parse_of_rejected found refused] at rejected
      exact ⟨first, others, diagnostics ▸ .declarations scanned, (Except.error.inj rejected).symm⟩

/-- What the grammar finds in a source of which the tokens can be read. -/
def inDeclarations (options : ParseOptions) (source : String) : List Diagnostic :=
  match options.pieces source.toList with
  | .ok pieces => (outcome source.toList pieces).diagnostics
  | .error _ => []

/-- A source in which the grammar finds something is rejected, and all of it is reported. -/
theorem exists_report {first : Diagnostic} {others : List Diagnostic}
    (found : options.inDeclarations source = first :: others) :
    ∃ report, options.parse source = .error report ∧
      report.diagnostics = Diagnostic.arrange (first :: others) := by
  unfold inDeclarations at found
  split at found
  · next pieces scanned =>
    rcases parseFile_eq (byteLength source.toList) (.ofPieces pieces) with
      ⟨file, rest, done, -⟩ | ⟨primary, more, diagnostics, refused⟩
    · rw [outcome, done] at found
      cases found
    · obtain ⟨rfl, rfl⟩ := List.cons.inj (diagnostics.symm.trans found)
      exact ⟨_, parse_of_rejected scanned refused, Report.diagnostics_ofDiagnostics⟩
  · cases found

/-- What the grammar makes of the tokens of a source is kept track of. -/
theorem tracks_outcome {source : List Char} {pieces : List Piece}
    (scanned : scan source = .pieces pieces) :
    (outcome source pieces).Tracks (byteLength source) (byteLength source)
      (TokenStream.ofPieces pieces).lexemes (fun _ => 0) fun _ _ => True :=
  Parser.tracks_file (TokenStream.increasing_ofPieces (increasing_of_scan scanned))
    ⟨none, byteLength source, (TokenStream.ofPieces pieces).atEnd⟩ (Nat.le_refl _)

end ParseOptions

end ProtoSchema
