/-
This file says what is true of the tokens of every source, with or without a
fault in it, and which of its tokens the grammar is given: those of the pieces,
in their order.
-/

import ProtoSchema.Proofs.Scanning.Spelling
import ProtoSchema.Token.Lexeme

namespace ProtoSchema

/-! ### Tokens from sources -/

/-- What is true of the tokens of every source: words are identifiers and floats are not above
infinity. -/
def Token.WellFormed : Token → Prop
  | word text => isIdentifier text = true
  | float value => value.bits ≤ Magnitude.infinity.bits
  | int _ | string _ | symbol _ => True

/-- Tokens as a source can have them. -/
def Lexical (tokens : List Token) : Prop := ∀ token ∈ tokens, token.WellFormed

theorem Lexical.tail {token : Token} {tokens : List Token} (lexical : Lexical (token :: tokens)) :
    Lexical tokens :=
  fun other member => lexical other (List.mem_cons_of_mem _ member)

/-! ### Numbers -/

theorem Magnitude.ofDecimal_le_infinity (digits : Nat) (exponent : Int) :
    (ofDecimal digits exponent).bits ≤ infinity.bits := by
  have ratio (numerator denominator : Nat) :
      (ofRatio numerator denominator).bits ≤ infinity.bits := Nat.min_le_right _ _
  unfold ofDecimal
  dsimp only
  split
  · exact Nat.zero_le _
  · split
    · exact Nat.le_refl _
    · split
      · exact ratio _ _
      · exact ratio _ _

/-- Integers are no floats, and a float is what its decimal is read as. -/
theorem Numeral.wellFormed_token_read (characters : List Char) :
    (Numeral.read characters).token.WellFormed := by
  have int (digits after : List Char) : (Numeral.int digits after).token.WellFormed := by
    unfold Numeral.int
    split
    · split <;> exact trivial
    · split
      · split <;> exact trivial
      · exact trivial
    · exact trivial
  have float (whole after : List Char) (numeral : Numeral)
      (found : float? whole after = some numeral) : numeral.token.WellFormed := by
    unfold float? at found
    split at found
    · obtain rfl := Option.some.inj found
      exact Magnitude.ofDecimal_le_infinity _ _
    · dsimp only at found
      split at found
      · cases found
      · obtain rfl := Option.some.inj found
        exact Magnitude.ofDecimal_le_infinity _ _
  unfold Numeral.read
  dsimp only
  cases found : float? (characters.takeWhile Char.isDigit)
      (characters.drop (characters.takeWhile Char.isDigit).length) with
  | none => exact int _ _
  | some numeral => exact float _ _ numeral found

/-! ### Scanning -/

/-- A character that starts an identifier and those that go on with it are one. -/
theorem isIdentifier_takeWhile {first : Char} (start : isIdentifierStart first = true)
    (rest : List Char) :
    isIdentifier (String.ofList ((first :: rest).takeWhile isIdentifierPart)) = true := by
  rw [List.takeWhile_cons_of_pos (isIdentifierPart_of_isIdentifierStart start)]
  simp [isIdentifier, start, List.all_takeWhile]

theorem Front.wellFormed_of_read {offset : Nat} {first : Char} {rest : List Char} {token : Token}
    {length : Nat} {faults : List LexicalFault}
    (front : Front.read offset first rest = .element (.token token) length faults) :
    token.WellFormed := by
  have atToken {found : Element} {size : Nat} {others : List LexicalFault}
      (same : Front.element found size others = .element (.token token) length faults) :
      found = .token token := (Front.element.inj same).1
  unfold Front.read at front
  split at front
  · cases front
  split at front
  · cases front
  split at front
  · next start =>
    obtain rfl := Element.token.inj (atToken front)
    exact isIdentifier_takeWhile start rest
  split at front
  · obtain rfl := Element.token.inj (atToken front)
    exact Numeral.wellFormed_token_read _
  split at front
  · obtain rfl := Element.token.inj (atToken front)
    exact trivial
  split at front
  · cases atToken front
  split at front
  · cases atToken front
  unfold Front.symbol at front
  split at front
  · obtain rfl := Element.token.inj (atToken front)
    exact trivial
  · cases front

/-- The tokens of what is scanned are as a source can have them. -/
theorem Scanned.lexical_all (offset : Nat) (source : List Char) :
    Lexical (Piece.tokens ((Scanned.all offset source).filterMap Scanned.piece?)) := by
  fun_induction Scanned.all offset source with
  | case1 => simp [Lexical]
  | case2 offset first rest front extra stop others isBlank inductionHypothesis =>
    exact inductionHypothesis
  | case3 offset first rest front extra stop others isUnknown inductionHypothesis =>
    exact inductionHypothesis
  | case4 offset first rest front extra stop others element length faults isElement
      inductionHypothesis =>
    cases element with
    | trivia trivia => exact inductionHypothesis
    | token token =>
      exact List.forall_mem_cons.mpr ⟨Front.wellFormed_of_read isElement, inductionHypothesis⟩

theorem lexical_of_scan {source : List Char} {pieces : List Piece}
    (scanned : scan source = .pieces pieces) : Lexical (Piece.tokens pieces) := by
  unfold scan at scanned
  dsimp only at scanned
  split at scanned
  · obtain rfl := Scan.pieces.inj scanned
    exact Scanned.lexical_all 0 source
  · cases scanned

/-! ### Tokens for the grammar -/

theorem TokenStream.tokens_build (comments : Tracker) (followsBrace : Bool) (pieces : List Piece) :
    (build comments followsBrace pieces).lexemes.map (·.token) = Piece.tokens pieces := by
  fun_induction build comments followsBrace pieces with
  | case1 => rfl
  | case2 comments followsBrace trivia span rest inductionHypothesis =>
    exact inductionHypothesis
  | case3 comments followsBrace token span rest inductionHypothesis =>
    exact congrArg (token :: ·) inductionHypothesis

/-- The grammar is given the tokens of the pieces. -/
theorem TokenStream.tokens_ofPieces (pieces : List Piece) :
    (ofPieces pieces).lexemes.map (·.token) = Piece.tokens pieces :=
  tokens_build .atStart false pieces

end ProtoSchema
