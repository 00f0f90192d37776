/-
This file says exactly which pairs of entries clash: each entry that has one of
its key before it, with the first such entry. So nothing clashes just in case
the keys are distinct, and when pairs inside a group are left to another check,
the two checks together find every clash.
-/

import ProtoSchema.Validation.Clashes

namespace ProtoSchema

section

variable {Entry Key : Type} [DecidableEq Key] {key : Entry → Key}

theorem mem_clashesAfter_iff {seen entries : List Entry} {first second : Entry} :
    (first, second) ∈ clashesAfter key seen entries ↔
      ∃ before after, entries = before ++ second :: after ∧
        ((seen.find? fun entry => key entry = key second).or
          (before.find? fun entry => key entry = key second)) = some first := by
  induction entries generalizing seen with
  | nil => simp [clashesAfter]
  | cons entry rest inductionHypothesis =>
    have split (holds : List Entry → Prop) :
        (∃ before after, entry :: rest = before ++ second :: after ∧ holds before) ↔
          (entry = second ∧ holds []) ∨
            ∃ before after, rest = before ++ second :: after ∧ holds (entry :: before) := by
      constructor
      · rintro ⟨before, after, eq, held⟩
        cases before with
        | nil => exact .inl ⟨(List.cons.inj eq).1, held⟩
        | cons other before =>
          obtain ⟨rfl, restEq⟩ := List.cons.inj eq
          exact .inr ⟨before, after, restEq, held⟩
      · rintro (⟨rfl, held⟩ | ⟨before, after, rfl, held⟩)
        · exact ⟨[], rest, rfl, held⟩
        · exact ⟨entry :: before, after, rfl, held⟩
    rw [clashesAfter, split]
    split
    · next found foundEq =>
      rw [List.mem_cons, inductionHypothesis]
      refine or_congr ?_ (exists_congr fun before => exists_congr fun after =>
        and_congr_right fun _ => ?_)
      · rw [Prod.mk.injEq, List.find?_nil, Option.or_none]
        constructor
        · rintro ⟨rfl, rfl⟩
          exact ⟨rfl, foundEq⟩
        · rintro ⟨rfl, eq⟩
          exact ⟨Option.some.inj (eq.symm.trans foundEq), rfl⟩
      · by_cases same : key entry = key second
        · rw [same] at foundEq
          rw [foundEq, Option.some_or, Option.some_or]
        · rw [List.find?_cons_of_neg (by simpa using same)]
    · next noneEq =>
      rw [inductionHypothesis]
      constructor
      · rintro ⟨before, after, eq, held⟩
        refine .inr ⟨before, after, eq, ?_⟩
        by_cases same : key entry = key second
        · rw [List.find?_cons_of_pos (by simpa using same)] at held ⊢
          rw [← same, noneEq, Option.none_or]
          simpa using held
        · rw [List.find?_cons_of_neg (by simpa using same)] at held ⊢
          exact held
      · rintro (⟨rfl, held⟩ | ⟨before, after, eq, held⟩)
        · rw [noneEq] at held
          cases held
        · refine ⟨before, after, eq, ?_⟩
          by_cases same : key entry = key second
          · rw [List.find?_cons_of_pos (by simpa using same)] at held ⊢
            rw [← same, noneEq, Option.none_or] at held
            simpa using held
          · rw [List.find?_cons_of_neg (by simpa using same)] at held ⊢
            exact held

/-- A clash is an entry after the first entry of its key. -/
theorem mem_clashes_iff {entries : List Entry} {first second : Entry} :
    (first, second) ∈ clashes key entries ↔
      ∃ before after, entries = before ++ second :: after ∧
        (before.find? fun entry => key entry = key second) = some first := by
  rw [clashes, mem_clashesAfter_iff]
  simp only [List.find?_nil, Option.none_or]

/-- What clashes stands in the list in this order and has one key. -/
theorem sublist_of_mem_clashes {entries : List Entry} {first second : Entry}
    (clash : (first, second) ∈ clashes key entries) :
    [first, second].Sublist entries ∧ key first = key second := by
  obtain ⟨before, after, rfl, found⟩ := mem_clashes_iff.mp clash
  have same : key first = key second := by
    simpa using List.find?_some found
  have firstSublist : [first].Sublist before :=
    List.singleton_sublist.mpr (List.mem_of_find?_eq_some found)
  have secondSublist : [second].Sublist (second :: after) :=
    List.singleton_sublist.mpr List.mem_cons_self
  exact ⟨firstSublist.append secondSublist, same⟩

/-- What clashes stands in the list, and is related if the entries of the list are in order. -/
theorem related_of_mem_clashes {relation : Entry → Entry → Prop} {entries : List Entry}
    {first second : Entry} (related : entries.Pairwise relation)
    (clash : (first, second) ∈ clashes key entries) :
    first ∈ entries ∧ second ∈ entries ∧ relation first second := by
  have sublist := (sublist_of_mem_clashes clash).1
  refine ⟨sublist.subset List.mem_cons_self, sublist.subset (List.mem_cons_of_mem _ ?_), ?_⟩
  · exact List.mem_cons_self
  · exact List.pairwise_pair.mp (related.sublist sublist)

/-- Each entry clashes once at most. -/
theorem map_snd_clashes_sublist (entries : List Entry) :
    ((clashes key entries).map Prod.snd).Sublist entries := by
  suffices after : ∀ seen, ((clashesAfter key seen entries).map Prod.snd).Sublist entries from
    after []
  induction entries with
  | nil => exact fun _ => List.Sublist.slnil
  | cons entry rest inductionHypothesis =>
    intro seen
    rw [clashesAfter]
    split
    · exact (inductionHypothesis seen).cons_cons entry
    · exact (inductionHypothesis (entry :: seen)).cons entry

/-- An entry clashes if one of its key stands before it. -/
theorem exists_mem_clashes {before : List Entry} (after : List Entry) {entry second : Entry}
    (member : entry ∈ before) (same : key entry = key second) :
    ∃ first, (first, second) ∈ clashes key (before ++ second :: after) ∧
      (before.find? fun other => key other = key second) = some first := by
  have some : (before.find? fun other => key other = key second).isSome := by
    rw [List.find?_isSome]
    exact ⟨entry, member, by simpa using same⟩
  obtain ⟨first, found⟩ := Option.isSome_iff_exists.mp some
  exact ⟨first, mem_clashes_iff.mpr ⟨before, after, rfl, found⟩, found⟩

/-- Nothing clashes just in case the keys are distinct. -/
theorem clashes_eq_nil_iff {entries : List Entry} :
    clashes key entries = [] ↔ (entries.map key).Nodup := by
  constructor
  · intro none
    rw [List.Nodup, List.pairwise_map, List.pairwise_iff_forall_sublist]
    intro first second sublist same
    obtain ⟨before, between, rfl, firstMember, secondSublist⟩ := List.cons_sublist_iff.mp sublist
    obtain ⟨middle, after, rfl⟩ := List.append_of_mem (List.singleton_sublist.mp secondSublist)
    obtain ⟨earliest, clash, -⟩ :=
      exists_mem_clashes after (List.mem_append_left middle firstMember) same
    rw [List.append_assoc, none] at clash
    cases clash
  · intro distinct
    rw [List.eq_nil_iff_forall_not_mem]
    rintro ⟨first, second⟩ clash
    obtain ⟨sublist, same⟩ := sublist_of_mem_clashes clash
    have distinctPair := distinct.sublist (sublist.map key)
    rw [List.map_cons, List.map_singleton, same] at distinctPair
    exact absurd distinctPair (by simp)

/-- The clashes of entries that were changed one by one. -/
theorem clashes_map {Original : Type} (change : Original → Entry) (entries : List Original) :
    clashes key (entries.map change) =
      (clashes (fun entry => key (change entry)) entries).map (Prod.map change change) := by
  suffices after : ∀ seen, clashesAfter key (seen.map change) (entries.map change) =
      (clashesAfter (fun entry => key (change entry)) seen entries).map
        (Prod.map change change) from after []
  induction entries with
  | nil => exact fun _ => rfl
  | cons entry rest inductionHypothesis =>
    intro seen
    rw [List.map_cons, clashesAfter, clashesAfter, List.find?_map, Function.comp_def]
    cases seen.find? fun earlier => decide (key (change earlier) = key (change entry)) with
    | none => exact inductionHypothesis (entry :: seen)
    | some first => exact congrArg (List.cons _) (inductionHypothesis seen)

/-! ### Groups -/

/-- If the keys are distinct inside each group, the pairs across groups show every clash. -/
theorem filter_clashes_eq_nil_iff (group : Entry → Option Nat) {entries : List Entry}
    (inside : ∀ index, ((entries.filter fun entry => group entry = some index).map key).Nodup) :
    ((clashes key entries).filter fun (first, second) =>
        !((group first).isSome && group first = group second)) = [] ↔
      (entries.map key).Nodup := by
  rw [← clashes_eq_nil_iff]
  refine ⟨fun none => ?_, fun none => by rw [none, List.filter_nil]⟩
  rw [List.eq_nil_iff_forall_not_mem]
  rintro ⟨first, second⟩ clash
  have together := List.filter_eq_nil_iff.mp none _ clash
  simp only [Bool.not_eq_true', Bool.and_eq_false_iff, decide_eq_false_iff_not, not_or,
    Bool.not_eq_false, Decidable.not_not] at together
  obtain ⟨grouped, same⟩ := together
  obtain ⟨index, groupEq⟩ := Option.isSome_iff_exists.mp grouped
  obtain ⟨sublist, sameKey⟩ := sublist_of_mem_clashes clash
  have pair := sublist.filter fun entry => group entry = some index
  rw [List.filter_cons_of_pos (by simpa using groupEq),
    List.filter_cons_of_pos (by simpa [← same] using groupEq), List.filter_nil] at pair
  have distinct := (inside index).sublist (pair.map key)
  rw [List.map_cons, List.map_singleton, sameKey] at distinct
  exact absurd distinct (by simp)

end

end ProtoSchema
