/-
This file shows that no number is taken for another one. A literal converts to a
word just in case its number is one of the word's, and every check of a number or
of a bound asks about the number itself. Of the ranges that are declared, the legal
ones are kept with what is written and each other one is reported, in order and with
one fault each; and a number is looked up as the first legal range that contains it.
-/

import Mathlib.Data.List.Forall2
import Mathlib.Tactic.SplitIfs
import ProtoSchema.Proofs.Validation.FieldRules
import ProtoSchema.Proofs.Validation.Legality

namespace ProtoSchema

/-! ### Literals -/

/-- The check of a number finds nothing just in case it fits a word of thirty-two bits. -/
theorem Parser.enumNumberFaults_eq_nil_iff (literal : IntLiteral) :
    enumNumberFaults literal = [] ↔ literal.FitsInt32 := by
  rw [enumNumberFaults, literal.number?_eq]
  by_cases fits : literal.FitsInt32 <;> simp [fits]

/-- A bound of a range is the number that is written, or it is reported. -/
theorem RangeKind.bound_eq (kind : RangeKind) (literal : IntLiteral) :
    kind.bound literal =
      if literal.FitsInt64 then .ok literal.value else .error (kind.outside literal.span) := by
  have wide := literal.map_toInt64?_eq
  rw [bound]
  by_cases fits : literal.FitsInt64
  · rw [if_pos fits] at wide ⊢
    obtain ⟨word, found, same⟩ := Option.map_eq_some_iff.mp wide
    rw [found, ← same]
  · rw [if_neg fits] at wide ⊢
    rw [Option.map_eq_none_iff.mp wide]

/-- Literals are converted, checked and taken as bounds by the numbers that they spell, whatever
their signs and magnitudes. -/
theorem IntLiteral.conversions_exact (literal : IntLiteral) :
    literal.toInt64?.map Int64.toInt =
        (if -(2 ^ 63) ≤ literal.value ∧ literal.value ≤ 2 ^ 63 - 1 then some literal.value
          else none) ∧
      literal.toInt32?.map Int32.toInt =
        (if -(2 ^ 31) ≤ literal.value ∧ literal.value ≤ 2 ^ 31 - 1 then some literal.value
          else none) ∧
      (Parser.fieldNumberFaults literal = [] ↔
        (1 ≤ literal.value ∧ literal.value ≤ 536870911) ∧
          ¬ (19000 ≤ literal.value ∧ literal.value ≤ 19999)) ∧
      (Parser.enumNumberFaults literal = [] ↔
        -(2 ^ 31) ≤ literal.value ∧ literal.value ≤ 2 ^ 31 - 1) ∧
      ∀ kind : RangeKind, kind.bound literal =
        if -(2 ^ 63) ≤ literal.value ∧ literal.value ≤ 2 ^ 63 - 1 then .ok literal.value
        else .error (kind.outside literal.span) := by
  have wide : literal.FitsInt64 ↔ -(2 ^ 63) ≤ literal.value ∧ literal.value ≤ 2 ^ 63 - 1 := by
    rw [FitsInt64]
    omega
  have narrow : literal.FitsInt32 ↔ -(2 ^ 31) ≤ literal.value ∧ literal.value ≤ 2 ^ 31 - 1 := by
    rw [FitsInt32]
    omega
  simp only [← wide, ← narrow]
  exact ⟨literal.map_toInt64?_eq, literal.number?_eq,
    Parser.fieldNumberFaults_eq_nil_iff_value literal, Parser.enumNumberFaults_eq_nil_iff literal,
    fun kind => kind.bound_eq literal⟩

/-! ### Ranges -/

namespace Range

instance (kind : RangeKind) (range : Range) : Decidable (range.Legal kind) :=
  decidable_of_iff
    (kind.least ≤ range.first.value ∧ range.first.value ≤ range.lastValue kind ∧
      range.lastValue kind ≤ kind.greatest)
    ⟨fun ⟨least, ordered, greatest⟩ => ⟨least, ordered, greatest⟩,
      fun ⟨least, ordered, greatest⟩ => ⟨least, ordered, greatest⟩⟩

instance (kind : RangeKind) (range : Range) (number : Int) :
    Decidable (range.Contains kind number) :=
  inferInstanceAs (Decidable (_ ∧ _))

/-- The bounds that are written fit words of sixty-four bits. -/
structure BoundsFit (range : Range) : Prop where
  first : range.first.FitsInt64
  last : ∀ literal, range.last = .int literal → literal.FitsInt64

/-- What is wrong with a range that is not legal. The bounds are read one after the other; only
where both fit is their order looked at, and only where they are in order whether they lie within
the bounds of the kind. -/
inductive FaultyAs (kind : RangeKind) (range : Range) (declaration : Span) : SemanticFault → Prop
  | first (tooWide : ¬ range.first.FitsInt64) :
    FaultyAs kind range declaration (kind.outside range.first.span)
  | last {literal : IntLiteral} (fits : range.first.FitsInt64) (written : range.last = .int literal)
    (tooWide : ¬ literal.FitsInt64) : FaultyAs kind range declaration (kind.outside literal.span)
  | reversed (fit : range.BoundsFit) (reversed : range.lastValue kind < range.first.value) :
    FaultyAs kind range declaration
      ⟨.reversedRange range.first.value (range.lastValue kind), declaration⟩
  | beyond (fit : range.BoundsFit) (ordered : range.first.value ≤ range.lastValue kind)
    (beyond : range.first.value < kind.least ∨ kind.greatest < range.lastValue kind) :
    FaultyAs kind range declaration (kind.outside range.span)

variable {kind : RangeKind} {range : Range} {declaration : Span}

theorem BoundsFit.lastNumber_eq (fit : range.BoundsFit) :
    range.lastNumber kind range.first.value = .ok (range.lastValue kind) := by
  rw [lastNumber, lastValue]
  cases eq : range.last with
  | absent => rfl
  | int literal => exact (kind.bound_eq literal).trans (if_pos (fit.last literal eq))
  | max span => rfl

/-- A range whose bounds fit is judged by what is written. -/
theorem BoundsFit.interval_eq (fit : range.BoundsFit) :
    range.interval kind declaration =
      if range.lastValue kind < range.first.value then
        .error ⟨.reversedRange range.first.value (range.lastValue kind), declaration⟩
      else if range.first.value < kind.least ∨ kind.greatest < range.lastValue kind then
        .error (kind.outside range.span)
      else .ok ⟨range.first.value, range.lastValue kind, range.span⟩ := by
  rw [interval, kind.bound_eq, if_pos fit.first]
  show (range.lastNumber kind range.first.value >>= _) = _
  rw [fit.lastNumber_eq]
  rfl

theorem Legal.boundsFit (legal : range.Legal kind) : range.BoundsFit := by
  obtain ⟨least, ordered, greatest⟩ := legal
  refine ⟨RangeKind.fitsInt64_of_bounds least (Int.le_trans ordered greatest), ?_⟩
  intro literal written
  have last : range.lastValue kind = literal.value := by rw [lastValue, written]
  exact RangeKind.fitsInt64_of_bounds (last ▸ Int.le_trans least ordered) (last ▸ greatest)

theorem Legal.interval_eq (legal : range.Legal kind) :
    range.interval kind declaration =
      .ok ⟨range.first.value, range.lastValue kind, range.span⟩ := by
  obtain ⟨least, ordered, greatest⟩ := id legal
  rw [legal.boundsFit.interval_eq, if_neg (by omega), if_neg (by omega)]

/-- A range that is not legal has a fault, and that says what is wrong with it. -/
theorem exists_faultyAs (illegal : ¬ range.Legal kind) (declaration : Span) :
    ∃ fault, range.interval kind declaration = .error fault ∧
      range.FaultyAs kind declaration fault := by
  by_cases first : range.first.FitsInt64
  · by_cases last : ∀ literal, range.last = .int literal → literal.FitsInt64
    · have fit : range.BoundsFit := ⟨first, last⟩
      rw [fit.interval_eq]
      split_ifs with reversed beyond
      · exact ⟨_, rfl, .reversed fit reversed⟩
      · exact ⟨_, rfl, .beyond fit (Int.not_lt.mp reversed) beyond⟩
      · rw [not_or, Int.not_lt, Int.not_lt] at beyond
        exact absurd ⟨beyond.1, Int.not_lt.mp reversed, beyond.2⟩ illegal
    · obtain ⟨literal, written, tooWide⟩ : ∃ literal, range.last = .int literal ∧
          ¬ literal.FitsInt64 := by simpa using last
      refine ⟨_, ?_, .last first written tooWide⟩
      rw [interval, kind.bound_eq, if_pos first]
      show (range.lastNumber kind range.first.value >>= _) = _
      rw [lastNumber, written]
      dsimp only
      rw [kind.bound_eq, if_neg tooWide]
      rfl
  · refine ⟨_, ?_, .first first⟩
    rw [interval, kind.bound_eq, if_neg first]
    rfl

end Range

namespace DeclaredRange

variable {kind : RangeKind}

/-- The first legal range that contains a number. -/
def holding? (kind : RangeKind) (ranges : List DeclaredRange) (number : Int) :
    Option DeclaredRange :=
  ranges.find? fun declared => declared.range.Legal kind ∧ declared.range.Contains kind number

/-- The intervals of declared ranges are those of the legal ones, as they are written. -/
theorem intervals_eq (kind : RangeKind) (ranges : List DeclaredRange) :
    intervals kind ranges = (ranges.filter fun declared => declared.range.Legal kind).map
      fun declared =>
        ⟨declared.range.first.value, declared.range.lastValue kind, declared.range.span⟩ := by
  induction ranges with
  | nil => rfl
  | cons declared rest inductionHypothesis =>
    rw [intervals] at inductionHypothesis
    rw [intervals, List.filterMap_cons, inductionHypothesis, interval]
    by_cases isLegal : declared.range.Legal kind
    · rw [isLegal.interval_eq, List.filter_cons_of_pos (by simpa using isLegal)]
      rfl
    · obtain ⟨fault, failed, -⟩ := Range.exists_faultyAs isLegal declared.declaration
      rw [failed, List.filter_cons_of_neg (by simpa using isLegal)]
      rfl

/-- The faults of declared ranges are those of the ranges that are not legal, one for each. -/
theorem forall₂_faults (kind : RangeKind) (ranges : List DeclaredRange) :
    List.Forall₂ (fun declared => declared.range.FaultyAs kind declared.declaration)
      (ranges.filter fun declared => ¬ declared.range.Legal kind) (faults kind ranges) := by
  induction ranges with
  | nil => exact .nil
  | cons declared rest inductionHypothesis =>
    rw [faults] at inductionHypothesis
    rw [faults, List.filterMap_cons, interval]
    by_cases isLegal : declared.range.Legal kind
    · rw [isLegal.interval_eq, List.filter_cons_of_neg (by simpa using isLegal)]
      exact inductionHypothesis
    · obtain ⟨fault, failed, faulty⟩ := Range.exists_faultyAs isLegal declared.declaration
      rw [failed, List.filter_cons_of_pos (by simpa using isLegal)]
      exact .cons faulty inductionHypothesis

/-- A number is looked up as the first legal range that contains it. -/
theorem reservedNumber?_eq (kind : RangeKind) (ranges : List DeclaredRange) (number : Int) :
    reservedNumber? (intervals kind ranges) number =
      (holding? kind ranges number).map (·.range.span) := by
  have contains (declared : DeclaredRange) :
      Interval.contains ⟨declared.range.first.value, declared.range.lastValue kind,
          declared.range.span⟩ number = decide (declared.range.Contains kind number) :=
    (Bool.decide_and ..).symm
  rw [reservedNumber?, intervals_eq, List.find?_map, List.find?_filter, Option.map_map, holding?]
  simp only [Function.comp_def, contains, Bool.decide_and, Bool.decide_coe]

/-- A number that is reserved fits a word of thirty-two bits. -/
theorem fits_of_holding? {ranges : List DeclaredRange} {literal : IntLiteral}
    {declared : DeclaredRange} (found : holding? kind ranges literal.value = some declared) :
    literal.FitsInt32 := by
  have holds := List.find?_some found
  obtain ⟨isLegal, inside⟩ := of_decide_eq_true holds
  exact isLegal.fits_of_contains inside

end DeclaredRange

end ProtoSchema
