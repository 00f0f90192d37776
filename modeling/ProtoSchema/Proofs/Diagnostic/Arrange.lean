/-
This file describes the order in which diagnostics are reported. Leaving out
immediate repetitions keeps every entry that there is, and does so entry by
entry; sorting moves a diagnostic that starts after all others to the end.
-/

import Mathlib.Data.List.Sort
import ProtoSchema.Proofs.Diagnostic.Spans

namespace ProtoSchema

/-! ### Repetitions -/

section

variable {Entry Image : Type} [DecidableEq Entry] [DecidableEq Image]
variable {first second last : Entry} {rest entries : List Entry}

/-- The loop that leaves out repetitions puts what it has kept in front. -/
theorem eraseReps_loop (keep : Entry) (rest kept : List Entry) :
    List.eraseRepsBy.loop (· == ·) keep rest kept = kept.reverse ++ (keep :: rest).eraseReps := by
  suffices loop : ∀ (rest : List Entry) (keep : Entry) (kept : List Entry),
      List.eraseRepsBy.loop (· == ·) keep rest kept =
        kept.reverse ++ List.eraseRepsBy.loop (· == ·) keep rest [] from loop rest keep kept
  intro rest
  induction rest with
  | nil => exact fun keep kept => List.reverse_cons
  | cons next rest inductionHypothesis =>
    intro keep kept
    rw [List.eraseRepsBy.loop, List.eraseRepsBy.loop]
    split
    · exact inductionHypothesis keep kept
    · rw [inductionHypothesis next (keep :: kept), inductionHypothesis next [keep],
        List.reverse_cons, List.append_assoc]
      rfl

theorem eraseReps_cons_cons :
    (first :: second :: rest).eraseReps =
      if first = second then (second :: rest).eraseReps
      else first :: (second :: rest).eraseReps := by
  change List.eraseRepsBy.loop (· == ·) first (second :: rest) [] = _
  rw [List.eraseRepsBy.loop]
  split
  · next same =>
    obtain rfl := beq_iff_eq.mp same
    rw [if_pos rfl]
    rfl
  · next differ =>
    rw [if_neg fun same => by simp [same] at differ, eraseReps_loop]
    rfl

theorem mem_eraseReps : first ∈ entries.eraseReps ↔ first ∈ entries := by
  induction entries with
  | nil => exact Iff.rfl
  | cons head tail inductionHypothesis =>
    cases tail with
    | nil => exact Iff.rfl
    | cons next rest =>
      rw [eraseReps_cons_cons]
      split
      · next same =>
        rw [inductionHypothesis, same, List.mem_cons (b := next) (l := next :: rest)]
        exact ⟨.inr, Or.rec (· ▸ List.mem_cons_self) id⟩
      · rw [List.mem_cons, List.mem_cons (l := next :: rest), inductionHypothesis]

theorem eraseReps_sublist (entries : List Entry) : entries.eraseReps.Sublist entries := by
  induction entries with
  | nil => exact .slnil
  | cons head tail inductionHypothesis =>
    cases tail with
    | nil => exact .refl _
    | cons next rest =>
      rw [eraseReps_cons_cons]
      split
      · exact inductionHypothesis.cons head
      · exact inductionHypothesis.cons_cons head

/-- An entry that is not among the others is no repetition. -/
theorem eraseReps_concat (fresh : last ∉ entries) :
    (entries ++ [last]).eraseReps = entries.eraseReps ++ [last] := by
  induction entries with
  | nil => rfl
  | cons head tail inductionHypothesis =>
    rw [List.mem_cons, not_or] at fresh
    cases tail with
    | nil =>
      rw [List.singleton_append, eraseReps_cons_cons, if_neg (Ne.symm fresh.1)]
      rfl
    | cons next rest =>
      rw [List.cons_append, List.cons_append, eraseReps_cons_cons, eraseReps_cons_cons,
        ← List.cons_append, inductionHypothesis fresh.2]
      split
      · rfl
      · rfl

/-- Entries that a function tells apart are left out alike before and after it. -/
theorem map_eraseReps {image : Entry → Image}
    (injective : ∀ first ∈ entries, ∀ second ∈ entries, image first = image second →
      first = second) :
    entries.eraseReps.map image = (entries.map image).eraseReps := by
  induction entries with
  | nil => rfl
  | cons head tail inductionHypothesis =>
    have rest := inductionHypothesis fun first firstMember second secondMember =>
      injective first (List.mem_cons_of_mem _ firstMember) second
        (List.mem_cons_of_mem _ secondMember)
    cases tail with
    | nil => rfl
    | cons next others =>
      rw [List.map_cons] at rest
      rw [List.map_cons, List.map_cons, eraseReps_cons_cons, eraseReps_cons_cons, ← rest]
      by_cases same : head = next
      · rw [if_pos same, if_pos (congrArg image same)]
      · have differ : image head ≠ image next := fun eq => same (injective head List.mem_cons_self
          next (List.mem_cons_of_mem _ List.mem_cons_self) eq)
        rw [if_neg same, if_neg differ, List.map_cons]

end

/-! ### Order -/

/-- Sorting by where entries start puts their starts in order. -/
theorem pairwise_mergeSort_start {Entry : Type} (spanOf : Entry → Span) (entries : List Entry) :
    (entries.mergeSort fun left right => (spanOf left).start ≤ (spanOf right).start).Pairwise
      fun left right => (spanOf left).start ≤ (spanOf right).start := by
  refine List.Pairwise.imp (fun before => of_decide_eq_true before)
    (List.pairwise_mergeSort (fun first second third before after => ?_)
      (fun first second => ?_) entries)
  · simp only [decide_eq_true_eq] at before after ⊢
    exact Nat.le_trans before after
  · simp only [Bool.or_eq_true, decide_eq_true_eq]
    exact Nat.le_total _ _

namespace Diagnostic

variable {diagnostics others : List Diagnostic} {last : Diagnostic}

theorem pairwise_arrange (diagnostics : List Diagnostic) :
    (arrange diagnostics).Pairwise fun left right => left.span.start ≤ right.span.start :=
  (pairwise_mergeSort_start span diagnostics).sublist (eraseReps_sublist _)

/-- Every diagnostic is reported, and no other. -/
theorem mem_arrange {diagnostic : Diagnostic} :
    diagnostic ∈ arrange diagnostics ↔ diagnostic ∈ diagnostics := by
  rw [arrange, mem_eraseReps, List.mem_mergeSort]

/-- What holds of diagnostics in any order holds of them as they are reported. -/
theorem pairwise_arrange_of_symm {Related : Diagnostic → Diagnostic → Prop}
    (symm : ∀ {first second}, Related first second → Related second first)
    (pairwise : diagnostics.Pairwise Related) : (arrange diagnostics).Pairwise Related :=
  (((List.mergeSort_perm _ _).pairwise_iff symm).mpr pairwise).sublist (eraseReps_sublist _)

theorem arrange_ne_nil (some : diagnostics ≠ []) : arrange diagnostics ≠ [] := by
  obtain ⟨diagnostic, member⟩ := List.exists_mem_of_ne_nil _ some
  exact List.ne_nil_of_mem (mem_arrange.mpr member)

/-- Of two diagnostics the one that starts first is reported first. -/
theorem arrange_swap {first second : Diagnostic} (before : first.span.start < second.span.start) :
    arrange [second, first] = [first, second] := by
  have differ : first ≠ second := by
    rintro rfl
    exact Nat.lt_irrefl _ before
  have sorted : [second, first].mergeSort (fun left right => left.span.start ≤ right.span.start) =
      [first, second] := by
    simp [List.mergeSort, Nat.not_le.mpr before]
  rw [arrange, sorted, eraseReps_cons_cons, if_neg differ]
  rfl

/-- A diagnostic that starts after all others is reported last, and once. -/
theorem arrange_concat (after : ∀ other ∈ others, other.span.start < last.span.start) :
    ∃ front, arrange (others ++ [last]) = front ++ [last] ∧ front ⊆ others := by
  have permuted := List.mergeSort_perm (others ++ [last])
    fun left right => left.span.start ≤ right.span.start
  have sorted := pairwise_mergeSort_start span (others ++ [last])
  rw [arrange]
  generalize List.mergeSort (others ++ [last]) _ = reported at permuted sorted ⊢
  -- What stands after the last diagnostic in the sorted list would have to start as late as it.
  obtain ⟨front, back, rfl⟩ :=
    List.append_of_mem (permuted.mem_iff.mpr (List.mem_append_right _ List.mem_cons_self))
  have around : (front ++ back).Perm others :=
    List.Perm.cons_inv (a := last)
      ((List.perm_middle.symm.trans permuted).trans (List.perm_append_singleton last others))
  obtain rfl : back = [] := by
    refine List.eq_nil_iff_forall_not_mem.mpr fun other member => ?_
    have early := after other (around.mem_iff.mp (List.mem_append_right _ member))
    have late := (List.pairwise_cons.mp (List.pairwise_append.mp sorted).2.1).1 other member
    exact Nat.not_lt.mpr late early
  rw [List.append_nil] at around
  have fresh : last ∉ front := fun member =>
    Nat.lt_irrefl _ (after last (around.mem_iff.mp member))
  exact ⟨front.eraseReps, eraseReps_concat fresh,
    fun other member => around.mem_iff.mp (mem_eraseReps.mp member)⟩

/-- Diagnostics are arranged alike after a change of their places that keeps the order of their
starts and tells them apart. -/
theorem map_arrange {change : Span → Span}
    (order : ∀ first ∈ diagnostics, ∀ second ∈ diagnostics,
      (first.span.start ≤ second.span.start ↔
        (first.mapSpan change).span.start ≤ (second.mapSpan change).span.start))
    (injective : ∀ first ∈ diagnostics, ∀ second ∈ diagnostics,
      first.mapSpan change = second.mapSpan change → first = second) :
    (arrange diagnostics).map (mapSpan change) = arrange (diagnostics.map (mapSpan change)) := by
  have sorted : (diagnostics.mergeSort fun left right =>
        decide (left.span.start ≤ right.span.start)).map (mapSpan change) =
      (diagnostics.map (mapSpan change)).mergeSort fun left right =>
        decide (left.span.start ≤ right.span.start) :=
    List.map_mergeSort fun first firstMember second secondMember =>
      decide_eq_decide.mpr (order first firstMember second secondMember)
  rw [arrange, arrange, ← sorted]
  refine map_eraseReps fun first firstMember second secondMember => ?_
  exact injective first (List.mem_mergeSort.mp firstMember) second
    (List.mem_mergeSort.mp secondMember)

end Diagnostic

end ProtoSchema
