/-
This file shows that a closing brace shields what stands before it: if a brace
of a source is read as a token, then the pieces before it are the same whatever
stands behind it. A brace is an edge, and a literal or a comment that goes on behind
it would take it up.
-/

import ProtoSchema.Proofs.Scanning.Decided
import ProtoSchema.Proofs.Scanning.Shift

namespace ProtoSchema

variable {front back : List Char}

namespace Front

variable {offset : Nat}

/-- What stands at the front of a text, if it ends before a brace, does not depend on what is behind
the brace. -/
theorem read_brace {first : Char} (other : List Char)
    (within : (read offset first (front ++ '}' :: back)).length ≤ front.length + 1) :
    read offset first (front ++ '}' :: other) = read offset first (front ++ '}' :: back) := by
  rcases read_edge edge_brace offset first front with ⟨-, same⟩ | ⟨-, beyond⟩
  · rw [same, same]
  · exact absurd within (Nat.not_le_of_lt (beyond back))

/-- Only a brace is read as one. -/
theorem eq_brace_of_read {first : Char} {rest : List Char} {length : Nat}
    {faults : List LexicalFault}
    (isBrace : read offset first rest = .element (.token (.symbol .rightBrace)) length faults) :
    first = '}' := by
  unfold read at isBrace
  split at isBrace
  · cases isBrace
  split at isBrace
  · cases isBrace
  split at isBrace
  · cases isBrace
  split at isBrace
  · have token := (element.inj isBrace).1
    unfold Numeral.token at token
    split at token <;> cases token
  split at isBrace
  · cases isBrace
  split at isBrace
  · cases isBrace
  split at isBrace
  · cases isBrace
  unfold symbol at isBrace
  split at isBrace
  · next mark found =>
    obtain rfl := Token.symbol.inj (Element.token.inj (element.inj isBrace).1)
    unfold Symbol.ofCharacter? at found
    split at found
    all_goals first | rfl | cases found
  · cases isBrace

end Front

/-- A punctuation character as a piece. -/
abbrev Piece.symbol (mark : Symbol) (span : Span) : Piece := ⟨.token (.symbol mark), span⟩

namespace Scanned

/-- A punctuation character that cannot be part of anything else is a piece of its own. -/
theorem all_symbol (mark : Symbol) (notPoint : mark ≠ .dot) (notSlash : mark ≠ .slash)
    (offset : Nat) (rest : List Char) :
    all offset (mark.character :: rest) =
      piece (.symbol mark ⟨offset, offset + 1⟩) [] :: all (offset + 1) rest := by
  have front : Front.read offset mark.character rest = .element (.token (.symbol mark)) 1 [] := by
    cases mark <;> first | rfl | contradiction
  have size : mark.character.utf8Size = 1 := by cases mark <;> rfl
  rw [all]
  simp [front, Front.length, size]

/-- A text is cut into the same pieces before any brace, wherever the source goes on behind it. -/
def Shielded (offset : Nat) (text : List Char) : Prop :=
  ∃ found, ∀ rear, all offset (text ++ '}' :: rear) =
    found ++ all (offset + byteLength text) ('}' :: rear)

/-- What stands in front of a shielded text and a brace is shielded with it. -/
theorem Shielded.cons {offset : Nat} {first : Char} {rest : List Char} {read : Front}
    (isFront : Front.read offset first rest = read)
    (split : rest.drop (read.length - 1) = front ++ '}' :: back)
    (shielded : Shielded (offset + byteLength (first :: rest.take (read.length - 1))) front) :
    ∃ text, rest = text ++ '}' :: back ∧
      offset + byteLength (first :: rest.take (read.length - 1)) + byteLength front =
        offset + byteLength (first :: text) ∧ Shielded offset (first :: text) := by
  have inside : read.length - 1 < rest.length := by
    refine Nat.lt_of_not_le fun all => ?_
    rw [List.drop_of_length_le all] at split
    exact absurd split.symm (by simp)
  generalize whole : rest.take (read.length - 1) = own at shielded ⊢
  have size : own.length = read.length - 1 := by rw [← whole, List.length_take_of_le (by omega)]
  have joined : rest = (own ++ front) ++ '}' :: back := by
    rw [List.append_assoc, ← split, ← whole, List.take_append_drop]
  have total : offset + byteLength (first :: own) + byteLength front =
      offset + byteLength (first :: (own ++ front)) := by
    rw [← List.cons_append, byteLength_append, Nat.add_assoc]
  obtain ⟨found, same⟩ := shielded
  have fixed (rear : List Char) :
      Front.read offset first ((own ++ front) ++ '}' :: rear) = read := by
    rw [← isFront, joined]
    refine Front.read_brace rear ?_
    rw [← joined, isFront, List.length_append]
    omega
  have taken (rear : List Char) : ((own ++ front) ++ '}' :: rear).take (read.length - 1) = own := by
    rw [← size, List.append_assoc, List.take_left]
  have dropped (rear : List Char) :
      ((own ++ front) ++ '}' :: rear).drop (read.length - 1) = front ++ '}' :: rear := by
    rw [← size, List.append_assoc, List.drop_left]
  refine ⟨own ++ front, joined, total, ofFront ⟨offset, offset + byteLength (first :: own)⟩ read ++
    found, fun rear => ?_⟩
  rw [List.cons_append, all_cons (fixed rear), taken, dropped, same, ← total, List.append_assoc]

/-- Where a brace is read as a token, the text before it is shielded. -/
theorem exists_of_brace {offset : Nat} {source : List Char} {span : Span}
    (member : .symbol .rightBrace span ∈ (all offset source).filterMap piece?) :
    ∃ text rear, source = text ++ '}' :: rear ∧
      span = ⟨offset + byteLength text, offset + byteLength text + 1⟩ ∧ Shielded offset text := by
  fun_induction all offset source with
  | case1 => cases member
  | case2 offset first rest front extra stop others isFront inductionHypothesis
  | case3 offset first rest front extra stop others isFront inductionHypothesis =>
    obtain ⟨text, rear, split, isSpan, shielded⟩ := inductionHypothesis member
    obtain ⟨whole, joined, total, kept⟩ := Shielded.cons rfl split shielded
    exact ⟨first :: whole, rear, congrArg (first :: ·) joined, total ▸ isSpan, kept⟩
  | case4 offset first rest front extra stop others element length faults isFront
      inductionHypothesis =>
    rcases List.mem_cons.mp member with isFirst | isLater
    · obtain ⟨rfl, rfl⟩ := Piece.mk.inj isFirst
      obtain rfl := Front.eq_brace_of_read isFront
      exact ⟨[], rest, rfl, rfl, [], fun rear => rfl⟩
    · obtain ⟨text, rear, split, isSpan, shielded⟩ := inductionHypothesis isLater
      obtain ⟨whole, joined, total, kept⟩ := Shielded.cons rfl split shielded
      exact ⟨first :: whole, rear, congrArg (first :: ·) joined, total ▸ isSpan, kept⟩

end Scanned

end ProtoSchema
