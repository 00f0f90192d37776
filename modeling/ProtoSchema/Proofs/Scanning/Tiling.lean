/-
This file shows that nothing of a source is lost between its pieces. A source that
is cut into pieces is covered by them but for the characters that only separate
tokens, and no byte belongs to two pieces.
-/

import ProtoSchema.Proofs.Scanning.Fronts
import ProtoSchema.Proofs.Scanning.Order

namespace ProtoSchema

/-- The characters that only separate tokens: tab, vertical tab, form feed, carriage return and
space. -/
def separators : List Char := ['\t', '\x0b', '\x0c', '\r', ' ']

/-- The byte at an offset of a source is a character that only separates tokens. -/
def SeparatorAt (source : List Char) (offset : Nat) : Prop :=
  ∃ before character behind, source = before ++ character :: behind ∧
    byteLength before = offset ∧ character ∈ separators

theorem isBlank_iff {character : Char} : isBlank character = true ↔ character ∈ separators := by
  constructor
  · intro blank
    simp only [isBlank, Bool.or_eq_true, decide_eq_true_eq] at blank
    rcases blank with (((rfl | rfl) | rfl) | rfl) | rfl <;> decide
  · exact List.all_eq_true.mp (rfl : separators.all isBlank = true) character

theorem utf8Size_of_mem_separators : ∀ character ∈ separators, character.utf8Size = 1 := by
  simp only [separators, List.forall_mem_cons]
  exact ⟨rfl, rfl, rfl, rfl, rfl, List.forall_mem_nil _⟩

/-- Each byte of a text that is cut into pieces without a fault belongs to one of them or only
separates them. -/
theorem Scanned.covered_all {offset : Nat} {text : List Char} {pieces : List Piece}
    (scanned : all offset text = pieces.map (piece · [])) (before : List Char)
    (here : offset = byteLength before) {place : Nat} (ahead : offset ≤ place)
    (inside : place < offset + byteLength text) :
    (∃ piece ∈ pieces, piece.span.start ≤ place ∧ place < piece.span.stop) ∨
      SeparatorAt (before ++ text) place := by
  match text with
  | [] => exact absurd inside (Nat.not_lt_of_le ahead)
  | first :: rest =>
    subst here
    rcases cons_eq_map_piece scanned with
      ⟨blank, -, isLater⟩ | ⟨element, length, later, -, rfl, isLater⟩
    · have separates := isBlank_iff.mp blank
      have single := utf8Size_of_mem_separators first separates
      have total : byteLength (before ++ [first]) = byteLength before + 1 := by simp [single]
      rcases Nat.eq_or_lt_of_le ahead with rfl | beyond
      · exact .inr ⟨before, first, rest, rfl, rfl, separates⟩
      · rw [single, ← total] at isLater
        have inside : place < byteLength (before ++ [first]) + byteLength rest := by
          rw [byteLength_cons, single] at inside
          omega
        have onward := covered_all isLater _ rfl (total ▸ Nat.succ_le_of_lt beyond) inside
        rwa [List.append_assoc, List.singleton_append] at onward
    · rw [← byteLength_append] at isLater
      rcases Nat.lt_or_ge place (byteLength (before ++ first :: rest.take (length - 1)))
        with within | beyond
      · rw [byteLength_append] at within
        exact .inl ⟨_, List.mem_cons_self, ahead, within⟩
      · have total : byteLength (before ++ first :: rest.take (length - 1)) +
            byteLength (rest.drop (length - 1)) = byteLength before + byteLength (first :: rest) := by
          rw [← byteLength_append, List.append_assoc, List.cons_append, List.take_append_drop,
            byteLength_append]
        have onward := covered_all isLater _ rfl beyond (by rw [total]; exact inside)
        rw [List.append_assoc, List.cons_append, List.take_append_drop] at onward
        exact onward.imp_left fun ⟨found, member, covers⟩ =>
          ⟨found, List.mem_cons_of_mem _ member, covers⟩
termination_by text.length
decreasing_by all_goals simp only [List.length_cons, List.length_drop]; omega

/-- The pieces of a source follow one another without overlap, each takes some bytes, and every byte
of the source that belongs to none of them only separates tokens. Words are read as they stand. -/
structure Tiles (source : List Char) (pieces : List Piece) : Prop where
  increasing : Increasing (byteLength source) (pieces.map Piece.span)
  covered : ∀ offset < byteLength source,
    (∃ piece ∈ pieces, piece.span.start ≤ offset ∧ offset < piece.span.stop) ∨
      SeparatorAt source offset
  spelled : ∀ piece ∈ pieces, ∀ word, piece.element = .token (.word word) →
    Spelled source word piece.span

theorem tiles_of_scan {source : List Char} {pieces : List Piece}
    (scanned : scan source = .pieces pieces) : Tiles source pieces where
  increasing := increasing_of_scan scanned
  covered := fun _ inside => Scanned.covered_all (scan_eq_pieces_iff.mp scanned) [] rfl
    (Nat.zero_le _) (Nat.lt_of_lt_of_eq inside (Nat.zero_add _).symm)
  spelled := spelled_of_scan scanned

end ProtoSchema
