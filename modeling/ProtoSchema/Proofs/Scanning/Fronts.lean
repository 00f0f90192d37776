/-
This file shows where what is scanned comes from: it is what stands at the front
of the source behind some of its first characters, and its place is counted from
the start of the source. A text that is cut into pieces without a fault starts with
a blank or with the first of its pieces, and the bytes at the place of a word token
are the word.
-/

import Mathlib.Tactic.SplitIfs
import ProtoSchema.Proofs.Scanning.Spelling
import ProtoSchema.Token.Lexeme

namespace ProtoSchema

/-- The tokens among some pieces, each with its place. -/
def Piece.placedTokens (pieces : List Piece) : List (Token × Span) :=
  pieces.filterMap fun piece => piece.element.token?.map (·, piece.span)

theorem Piece.placedTokens_cons (piece : Piece) (pieces : List Piece) :
    placedTokens (piece :: pieces) =
      (piece.element.token?.map (·, piece.span)).toList ++ placedTokens pieces := by
  cases found : piece.element.token? <;> simp [placedTokens, found]

/-- The place of what is read at the front of a text, behind the text before it. -/
def Front.place (before : List Char) (first : Char) (rest : List Char) (front : Front) : Span :=
  ⟨byteLength before, byteLength (before ++ first :: rest.take (front.length - 1))⟩

/-- What is scanned of a text is read behind some of its characters. -/
theorem Scanned.exists_front {offset : Nat} {text : List Char} {found : Scanned}
    (member : found ∈ all offset text) (before : List Char) (here : offset = byteLength before) :
    ∃ left first rest, before ++ text = left ++ first :: rest ∧
      found ∈ ofFront ((Front.read (byteLength left) first rest).place left first rest)
        (Front.read (byteLength left) first rest) := by
  match text with
  | [] =>
    rw [all] at member
    cases member
  | first :: rest =>
    subst here
    rw [all_cons rfl, ← byteLength_append] at member
    rcases List.mem_append.mp member with isFront | isLater
    · exact ⟨before, first, rest, rfl, isFront⟩
    · obtain ⟨left, other, behind, same, found⟩ := exists_front isLater _ rfl
      refine ⟨left, other, behind, ?_, found⟩
      rw [← same, List.append_assoc, List.cons_append, List.take_append_drop]
termination_by text.length
decreasing_by
  rw [List.length_drop, List.length_cons]
  omega

/-- The pieces of a source are read where they stand, each without a fault. -/
theorem exists_front_of_scan {source : List Char} {pieces : List Piece} {piece : Piece}
    (scanned : scan source = .pieces pieces) (member : piece ∈ pieces) :
    ∃ left first rest length, source = left ++ first :: rest ∧
      Front.read (byteLength left) first rest = .element piece.element length [] ∧
      piece.span = ⟨byteLength left, byteLength (left ++ first :: rest.take (length - 1))⟩ := by
  have found : Scanned.piece piece [] ∈ Scanned.all 0 source := by
    rw [scan_eq_pieces_iff.mp scanned]
    exact List.mem_map_of_mem member
  obtain ⟨left, first, rest, same, isFront⟩ := Scanned.exists_front found [] rfl
  refine ⟨left, first, rest, ?_⟩
  cases front : Front.read (byteLength left) first rest with
  | blank => rw [front] at isFront; cases isFront
  | unknown => rw [front] at isFront; cases List.mem_singleton.mp isFront
  | element element length faults =>
    rw [front] at isFront
    obtain ⟨rfl, rfl⟩ := Scanned.piece.inj (List.mem_singleton.mp isFront)
    exact ⟨length, same, rfl, rfl⟩

/-! ### Texts without a fault -/

/-- Only blank characters are passed over. -/
theorem Front.isBlank_of_read {offset : Nat} {first : Char} {rest : List Char}
    (found : read offset first rest = .blank) : isBlank first = true := by
  unfold read at found
  split_ifs at found with isBlank
  · exact isBlank
  iterate 5 cases found
  · unfold symbol at found
    split at found <;> cases found

/-- A text that is cut into pieces starts with a blank or with the first piece. -/
theorem Scanned.cons_eq_map_piece {offset : Nat} {first : Char} {rest : List Char}
    {pieces : List Piece} (scanned : all offset (first :: rest) = pieces.map (piece · [])) :
    isBlank first = true ∧ Front.read offset first rest = .blank ∧
        all (offset + first.utf8Size) rest = pieces.map (piece · []) ∨
      ∃ element length later, Front.read offset first rest = .element element length [] ∧
        pieces = ⟨element, ⟨offset, offset + byteLength (first :: rest.take (length - 1))⟩⟩ :: later ∧
          all (offset + byteLength (first :: rest.take (length - 1))) (rest.drop (length - 1)) =
            later.map (piece · []) := by
  generalize isFront : Front.read offset first rest = front
  rw [all_cons isFront] at scanned
  cases front with
  | blank => exact .inl ⟨Front.isBlank_of_read isFront, rfl, scanned⟩
  | unknown =>
    cases pieces with
    | nil => cases scanned
    | cons found later => cases (List.cons.inj scanned).1
  | element element length faults =>
    cases pieces with
    | nil => cases scanned
    | cons found later =>
      obtain ⟨isFirst, isLater⟩ := List.cons.inj scanned
      obtain ⟨rfl, rfl⟩ := Scanned.piece.inj isFirst
      exact .inr ⟨element, length, later, rfl, rfl, isLater⟩

/-- The word stands in the source at the span. -/
def Spelled (source : List Char) (word : String) (span : Span) : Prop :=
  ∃ before behind, source = before ++ word.toList ++ behind ∧
    span = ⟨byteLength before, byteLength before + byteLength word.toList⟩

/-- A word is made of the characters that it takes. -/
theorem Front.toList_word {offset length : Nat} {first : Char} {rest : List Char} {word : String}
    {faults : List LexicalFault}
    (found : read offset first rest = .element (.token (.word word)) length faults) :
    word.toList = first :: rest.take (length - 1) := by
  unfold read at found
  split_ifs at found with _ _ start
  · cases found
  · obtain ⟨same, rfl, -⟩ := element.inj found
    obtain rfl := Token.word.inj (Element.token.inj same)
    have part := isIdentifierPart_of_isIdentifierStart start
    rw [String.toList_ofList, List.takeWhile_cons_of_pos part, List.length_cons,
      Nat.add_sub_cancel]
    exact congrArg _ (List.prefix_iff_eq_take.mp (List.takeWhile_prefix _))
  · obtain ⟨same, -⟩ := element.inj found
    have same := Element.token.inj same
    unfold Numeral.token at same
    split at same <;> cases same
  · cases found
  · cases found
  · cases found
  · unfold symbol at found
    split at found <;> cases found

/-- The words of a source. -/
theorem spelled_of_scan {source : List Char} {pieces : List Piece}
    (scanned : scan source = .pieces pieces) :
    ∀ piece ∈ pieces, ∀ word, piece.element = .token (.word word) →
      Spelled source word piece.span := by
  intro piece member word isWord
  obtain ⟨left, first, rest, length, same, front, span⟩ := exists_front_of_scan scanned member
  rw [isWord] at front
  have characters := Front.toList_word front
  refine ⟨left, rest.drop (length - 1), ?_, ?_⟩
  · rw [same, characters, List.append_assoc, List.cons_append, List.take_append_drop]
  · rw [span, byteLength_append, characters]

/-- The grammar is given tokens where they stand. -/
theorem TokenStream.mem_of_mem_build {comments : Tracker} {followsBrace : Bool}
    {pieces : List Piece} :
    ∀ lexeme ∈ (build comments followsBrace pieces).lexemes,
      ⟨.token lexeme.token, lexeme.span⟩ ∈ pieces := by
  fun_induction build comments followsBrace pieces with
  | case1 => exact fun _ member => absurd member List.not_mem_nil
  | case2 comments followsBrace trivia span rest inductionHypothesis =>
    exact fun lexeme member => List.mem_cons_of_mem _ (inductionHypothesis lexeme member)
  | case3 comments followsBrace token span rest inductionHypothesis =>
    exact List.forall_mem_cons.mpr ⟨List.mem_cons_self, fun lexeme member =>
      List.mem_cons_of_mem _ (inductionHypothesis lexeme member)⟩

/-- The words that the grammar is given. -/
theorem TokenStream.spelled_ofPieces {source : List Char} {pieces : List Piece}
    (scanned : scan source = .pieces pieces) :
    ∀ lexeme ∈ (ofPieces pieces).lexemes, ∀ word, lexeme.token = .word word →
      Spelled source word lexeme.span :=
  fun lexeme member word isWord =>
    spelled_of_scan scanned _ (mem_of_mem_build lexeme member) word (congrArg Element.token isWord)

end ProtoSchema
