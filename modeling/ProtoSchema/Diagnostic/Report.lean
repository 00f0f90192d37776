/-
This file collects the faults of one source into a report: in the order of the
source, without immediate repetitions, and with the first of them in the place
of honour. A source that is longer than allowed has a report of its own.
-/

import ProtoSchema.Diagnostic.Fault
import ProtoSchema.Source.Location

namespace ProtoSchema

/-- The broad class of a diagnostic. -/
inductive Category where
  | lexical
  | grammatical
  | semantic
  | limit
  | internal
deriving DecidableEq, Repr

/-- The word that a category is printed as. -/
def Category.name : Category → String
  | lexical => "lexical"
  | grammatical => "syntax"
  | semantic => "semantic"
  | limit => "limit"
  | internal => "internal"

/-- Anything that keeps a source from being accepted. -/
inductive Diagnostic where
  | lexical (fault : LexicalFault)
  | grammatical (fault : GrammarFault)
  | semantic (fault : SemanticFault)
  | tooLarge (limit : Nat)
deriving DecidableEq, Repr

namespace Diagnostic

/-- The category of a diagnostic; a parser that stalled is an error of its own. -/
def category : Diagnostic → Category
  | lexical _ => .lexical
  | grammatical ⟨.stalled, _⟩ => .internal
  | grammatical _ => .grammatical
  | semantic _ => .semantic
  | tooLarge _ => .limit

/-- Where a diagnostic is reported. A source that is too large is not looked into. -/
def span : Diagnostic → Span
  | lexical fault => fault.span
  | grammatical fault => fault.span
  | semantic fault => fault.span
  | tooLarge _ => .point 0

/-- The text of a diagnostic. -/
def message : Diagnostic → String
  | lexical fault => fault.cause.message
  | grammatical fault => fault.cause.message
  | semantic fault => fault.cause.message
  | tooLarge _ => "file is too large"

/-- The hint on a file length limit. -/
def lengthHelp (limit : Nat) : String :=
  "the maximum file length is " ++ toString limit ++ " bytes"

/-- The advice that comes with the text, if there is any. -/
def help : Diagnostic → Option String
  | lexical _ => none
  | grammatical fault => fault.cause.help
  | semantic fault => fault.cause.help
  | tooLarge limit => some (lengthHelp limit)

/-- The places that are marked, with what is said at each. -/
def labels : Diagnostic → List Label
  | lexical fault => [⟨fault.cause.labelText, fault.span⟩]
  | grammatical fault => [⟨fault.cause.labelText, fault.span⟩]
  | semantic fault => fault.cause.labels fault.span
  | tooLarge _ => []

/-- In the order of their starts, those with one start in the order given, and without immediate
repetitions. -/
def arrange (diagnostics : List Diagnostic) : List Diagnostic :=
  (diagnostics.mergeSort fun left right => left.span.start ≤ right.span.start).eraseReps

end Diagnostic

/-- A diagnostic with its position resolved. -/
structure Issue where
  category : Category
  message : String
  location : Location
  span : Span
deriving DecidableEq, Repr

/-- An issue on one line. -/
def Issue.text (issue : Issue) : String :=
  issue.location.text ++ ": " ++ issue.category.name ++ " error: " ++ issue.message

/-- Why a source was rejected: at least one diagnostic, in the order of the source. -/
structure Report where
  file : String
  primary : Diagnostic
  related : List Diagnostic
  lines : LineIndex

namespace Report

/-- The report on a source in which a diagnostic and perhaps others were found. -/
def ofDiagnostics (file : String) (source : List Char) (found : Diagnostic)
    (others : List Diagnostic) : Report :=
  let lines := LineIndex.ofSource source
  match Diagnostic.arrange (found :: others) with
  | [] => ⟨file, found, others, lines⟩
  | primary :: related => ⟨file, primary, related, lines⟩

/-- All that is reported, the primary one first. -/
def diagnostics (report : Report) : List Diagnostic :=
  report.primary :: report.related

/-- A diagnostic with the location of its start. -/
def issue (report : Report) (diagnostic : Diagnostic) : Issue :=
  ⟨diagnostic.category, diagnostic.message, report.lines.locate diagnostic.span.start,
    diagnostic.span⟩

/-- Every diagnostic with its position, the primary one first. -/
def issues (report : Report) : List Issue :=
  report.diagnostics.map report.issue

/-- The primary diagnostic on one line, with the file and the position. -/
def summary (report : Report) : String :=
  report.file ++ ":" ++ (report.lines.locate report.primary.span.start).text ++ ": " ++
    report.primary.message

end Report

end ProtoSchema
