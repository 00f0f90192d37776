/-
This file treats diagnostics as texts with places in them. Changing the places
changes neither the kind of a diagnostic nor what it says, and a change that can
be undone at the places of a diagnostic can be undone for the diagnostic.
-/

import Mathlib.Data.Set.Function
import ProtoSchema.Diagnostic.Report
import ProtoSchema.Proofs.Tree.Erasure

namespace ProtoSchema

/-! ### Changing places -/

/-- Changes the place of what a declaration clashes with. -/
def SemanticCause.mapSpan (change : Span → Span) : SemanticCause → SemanticCause
  | repeatedImport path first => repeatedImport path (change first)
  | repeatedPackage first => repeatedPackage (change first)
  | repeatedName name first => repeatedName name (change first)
  | repeatedFieldNumber number first => repeatedFieldNumber number (change first)
  | repeatedEnumNumber number first => repeatedEnumNumber number (change first)
  | reservedNumberUsed number reserved => reservedNumberUsed number (change reserved)
  | reservedNameUsed name reserved => reservedNameUsed name (change reserved)
  | other => other

namespace SemanticFault

/-- Changes the places that a fault points at. -/
def mapSpan (change : Span → Span) (fault : SemanticFault) : SemanticFault :=
  ⟨fault.cause.mapSpan change, change fault.span⟩

/-- The places that a fault points at: its own, and that of what it clashes with. -/
def spans (fault : SemanticFault) : List Span :=
  (fault.cause.labels fault.span).map Label.span

theorem span_mem_spans (fault : SemanticFault) : fault.span ∈ fault.spans := by
  obtain ⟨cause, span⟩ := fault
  cases cause
  all_goals simp [spans, SemanticCause.labels]

/-- A change that can be undone at all places of a fault. -/
theorem mapSpan_mapSpan {change undo : Span → Span} {fault : SemanticFault}
    (undone : ∀ span ∈ fault.spans, undo (change span) = span) :
    mapSpan undo (mapSpan change fault) = fault := by
  obtain ⟨cause, span⟩ := fault
  cases cause
  all_goals
    simp only [spans, SemanticCause.labels, List.map_cons, List.map_nil, List.forall_mem_cons,
      List.not_mem_nil, false_implies, implies_true, and_true] at undone
    simp [mapSpan, SemanticCause.mapSpan, undone]

/-- A change that tells some places apart tells faults at these places apart. -/
theorem mapSpan_injective {change : Span → Span} {places : Set Span}
    (injective : Set.InjOn change places) {first second : SemanticFault}
    (firstPlaces : ∀ span ∈ first.spans, span ∈ places)
    (secondPlaces : ∀ span ∈ second.spans, span ∈ places)
    (same : mapSpan change first = mapSpan change second) : first = second := by
  have undone := injective.leftInvOn_invFunOn
  rw [← mapSpan_mapSpan fun span member => undone (firstPlaces span member), same]
  exact mapSpan_mapSpan fun span member => undone (secondPlaces span member)

end SemanticFault

namespace Diagnostic

/-- Changes the places of a diagnostic. A source that is too large is not looked into. -/
def mapSpan (change : Span → Span) : Diagnostic → Diagnostic
  | lexical fault => lexical ⟨fault.cause, change fault.span⟩
  | grammatical fault => grammatical ⟨fault.cause, change fault.span⟩
  | semantic fault => semantic (SemanticFault.mapSpan change fault)
  | tooLarge limit => tooLarge limit

/-- What a diagnostic says, wherever it is. -/
def erased : Diagnostic → Diagnostic := mapSpan fun _ => .erased

variable {change : Span → Span}

theorem category_mapSpan (diagnostic : Diagnostic) :
    (diagnostic.mapSpan change).category = diagnostic.category := by
  match diagnostic with
  | grammatical ⟨cause, span⟩ => cases cause <;> rfl
  | lexical _ | semantic _ | tooLarge _ => rfl

theorem message_mapSpan (diagnostic : Diagnostic) :
    (diagnostic.mapSpan change).message = diagnostic.message := by
  match diagnostic with
  | semantic ⟨cause, span⟩ => cases cause <;> rfl
  | lexical _ | grammatical _ | tooLarge _ => rfl

theorem erased_mapSpan (diagnostic : Diagnostic) :
    (diagnostic.mapSpan change).erased = diagnostic.erased := by
  match diagnostic with
  | semantic ⟨cause, span⟩ => cases cause <;> rfl
  | lexical _ | grammatical _ | tooLarge _ => rfl

end Diagnostic

end ProtoSchema
