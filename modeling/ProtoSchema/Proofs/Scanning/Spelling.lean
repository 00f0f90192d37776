/-
This file says what it means for a text to spell some tokens: wherever the text
stands in a source, scanning the source yields the tokens and goes on directly
after the text. What may follow is part of the relation, because the end of a
word or number depends on the next character. Texts are put together piece by
piece; words, punctuation characters and white space are the first pieces.
-/

import ProtoSchema.Proofs.Scanning.Shift

namespace ProtoSchema

/-- The token of an element that is one. -/
def Element.token? : Element → Option Token
  | token found => some found
  | trivia _ => none

/-- The tokens of some pieces. -/
def Piece.tokens (pieces : List Piece) : List Token :=
  pieces.filterMap fun piece => piece.element.token?

@[simp] theorem Piece.tokens_nil : Piece.tokens [] = [] := rfl

@[simp] theorem Piece.tokens_append (first second : List Piece) :
    Piece.tokens (first ++ second) = Piece.tokens first ++ Piece.tokens second := by
  simp [Piece.tokens]

/-! ### What follows a text -/

/-- The next character does not extend a word. -/
def EndsWord (next : Option Char) : Prop :=
  ∀ character ∈ next, isIdentifierPart character = false

/-- The next character does not extend a number. -/
def EndsNumber (next : Option Char) : Prop :=
  ∀ character ∈ next, isIdentifierPart character = false ∧ character ≠ '.'

/-- The next character does not make a number of a point. -/
def EndsPoint (next : Option Char) : Prop :=
  ∀ character ∈ next, character.isDigit = false

/-- Nothing is asked of the next character. -/
def Anything (_ : Option Char) : Prop := True

theorem EndsNumber.endsWord {next : Option Char} (ends : EndsNumber next) : EndsWord next :=
  fun character member => (ends character member).1

theorem endsNumber_some {character : Char}
    (ends : (isIdentifierPart character || character = '.') = false) :
    EndsNumber (some character) := by
  rintro _ ⟨⟩
  simpa using ends

theorem endsWord_some {character : Char} (ends : isIdentifierPart character = false) :
    EndsWord (some character) := by
  rintro _ ⟨⟩
  exact ends

theorem endsPoint_some {character : Char} (ends : character.isDigit = false) :
    EndsPoint (some character) := by
  rintro _ ⟨⟩
  exact ends

/-! ### Spelling -/

/-- Wherever the text stands and whatever allowed character follows it, scanning yields the tokens
without a fault and goes on after the text. -/
def Spells (text : List Char) (tokens : List Token) (follow : Option Char → Prop) : Prop :=
  ∀ offset rest, follow rest.head? → ∃ pieces : List Piece,
    Scanned.all offset (text ++ rest) =
        pieces.map (Scanned.piece · []) ++ Scanned.all (offset + byteLength text) rest ∧
      Piece.tokens pieces = tokens

namespace Spells

variable {first second : List Char} {firstTokens secondTokens : List Token}
  {follow firstFollow secondFollow : Option Char → Prop}

theorem nil : Spells [] [] follow := fun _ _ _ => ⟨[], by simp, rfl⟩

/-- Less may follow than is allowed. -/
theorem weaken (spells : Spells first firstTokens firstFollow)
    (weaker : ∀ next, follow next → firstFollow next) : Spells first firstTokens follow :=
  fun offset rest allowed => spells offset rest (weaker _ allowed)

/-- Two texts spell their tokens one after the other if the second may follow the first. -/
theorem append (left : Spells first firstTokens firstFollow)
    (right : Spells second secondTokens follow)
    (fits : ∀ rest : List Char, follow rest.head? → firstFollow (second ++ rest).head?) :
    Spells (first ++ second) (firstTokens ++ secondTokens) follow := by
  intro offset rest allowed
  obtain ⟨leftPieces, leftScan, leftEq⟩ := left offset (second ++ rest) (fits rest allowed)
  obtain ⟨rightPieces, rightScan, rightEq⟩ := right (offset + byteLength first) rest allowed
  refine ⟨leftPieces ++ rightPieces, ?_, by rw [Piece.tokens_append, leftEq, rightEq]⟩
  rw [List.append_assoc, leftScan, rightScan, byteLength_append, Nat.add_assoc, List.map_append,
    List.append_assoc]

/-- A text after which anything may stand goes with every other text. -/
theorem then_ (left : Spells first firstTokens Anything)
    (right : Spells second secondTokens follow) :
    Spells (first ++ second) (firstTokens ++ secondTokens) follow :=
  left.append right fun _ _ => trivial

/-- Texts after which anything may stand, one after the other. -/
theorem flatMap {Item : Type} (text : Item → List Char) (tokens : Item → List Token)
    (items : List Item) (each : ∀ item ∈ items, Spells (text item) (tokens item) Anything) :
    Spells (items.flatMap text) (items.flatMap tokens) Anything := by
  induction items with
  | nil => exact nil
  | cons item rest inductionHypothesis =>
    rw [List.flatMap_cons, List.flatMap_cons]
    exact (each item List.mem_cons_self).then_
      (inductionHypothesis fun other member => each other (List.mem_cons_of_mem _ member))

/-! ### Single elements -/

/-- A text that is read as one element without a fault spells the token of the element, if it is
one. -/
theorem element {character : Char} {text : List Char} (found : Element)
    (front : ∀ offset rest, follow rest.head? →
      Front.read offset character (text ++ rest) = .element found (text.length + 1) []) :
    Spells (character :: text) found.token?.toList follow := by
  intro offset rest allowed
  refine ⟨[_], Scanned.all_element (front offset rest allowed), ?_⟩
  cases found <;> rfl

/-- A blank character spells nothing. -/
theorem blank {character : Char} (isBlank : isBlank character = true) :
    Spells [character] [] Anything := by
  intro offset rest _
  refine ⟨[], ?_, rfl⟩
  have front : Front.read offset character rest = .blank := if_pos isBlank
  rw [List.singleton_append, Scanned.all]
  simp only [front, Front.length, Nat.sub_self, List.take_zero, List.drop_zero, List.map_nil,
    List.nil_append]

theorem space : Spells [' '] [] Anything := blank (by decide)

theorem spaces (count : Nat) : Spells (List.replicate count ' ') [] Anything := by
  induction count with
  | zero => exact nil
  | succ count inductionHypothesis =>
    rw [List.replicate_succ]
    exact space.then_ inductionHypothesis

theorem newline : Spells ['\n'] [] Anything :=
  element (.trivia .newline) fun _ _ _ => rfl

end Spells

/-! ### Words -/

theorem isBlank_of_isIdentifierStart {character : Char}
    (start : isIdentifierStart character = true) : isBlank character = false := by
  refine Bool.eq_false_iff.mpr fun blank => ?_
  simp only [isBlank, Bool.or_eq_true, decide_eq_true_eq] at blank
  rcases blank with (((rfl | rfl) | rfl) | rfl) | rfl <;> exact absurd start (by decide)

theorem ne_newline_of_isIdentifierStart {character : Char}
    (start : isIdentifierStart character = true) : character ≠ '\n' := by
  rintro rfl
  exact absurd start (by decide)

theorem toNat_of_isDigit {character : Char} (digit : character.isDigit = true) :
    48 ≤ character.toNat ∧ character.toNat ≤ 57 := by
  simp only [Char.isDigit, Bool.and_eq_true, decide_eq_true_eq, ge_iff_le, UInt32.le_iff_toNat_le]
    at digit
  exact digit

theorem toNat_of_isAlpha {character : Char} (alpha : character.isAlpha = true) :
    65 ≤ character.toNat ∧ character.toNat ≤ 122 := by
  rcases Bool.or_eq_true_iff.mp alpha with upper | lower
  · have range : 65 ≤ character.toNat ∧ character.toNat ≤ 90 := of_decide_eq_true upper
    omega
  · obtain ⟨low, high⟩ := Bool.and_eq_true_iff.mp lower
    have low : 97 ≤ character.toNat := of_decide_eq_true low
    have high : character.toNat ≤ 122 := of_decide_eq_true high
    omega

theorem isIdentifierPart_of_isIdentifierStart {character : Char}
    (start : isIdentifierStart character = true) : isIdentifierPart character = true := by
  simp only [isIdentifierStart, isIdentifierPart, Char.isAlphanum, Bool.or_eq_true] at start ⊢
  exact start.imp_left Or.inl

/-- The characters that a test holds of are all taken if the next one fails it. -/
theorem takeWhile_append_of_ends (test : Char → Bool) (text rest : List Char)
    (all : text.all test = true) (ends : ∀ character ∈ rest.head?, test character = false) :
    (text ++ rest).takeWhile test = text := by
  rw [List.takeWhile_append_of_pos (by simpa using all)]
  cases rest with
  | nil => simp
  | cons character rest => simp [ends character rfl]

/-- The first character of an identifier and the others. -/
theorem isIdentifier_cons {word : String} (identifier : isIdentifier word = true) :
    ∃ first rest, word.toList = first :: rest ∧ isIdentifierStart first = true ∧
      rest.all isIdentifierPart = true := by
  simp only [isIdentifier] at identifier
  split at identifier
  · exact absurd identifier (by decide)
  · next first rest eq =>
    rw [Bool.and_eq_true] at identifier
    exact ⟨first, rest, eq, identifier⟩

/-- An identifier is scanned as the word that it is. -/
theorem Scanned.all_word {word : String} (identifier : isIdentifier word = true) (offset : Nat)
    {rest : List Char} (ends : EndsWord rest.head?) :
    all offset (word.toList ++ rest) =
      piece ⟨.token (.word word), ⟨offset, offset + byteLength word.toList⟩⟩ [] ::
        all (offset + byteLength word.toList) rest := by
  obtain ⟨first, others, eq, start, parts⟩ := isIdentifier_cons identifier
  rw [eq]
  refine all_element ?_
  have taken : (first :: (others ++ rest)).takeWhile isIdentifierPart = first :: others :=
    takeWhile_append_of_ends isIdentifierPart (first :: others) rest
      (by simp [isIdentifierPart_of_isIdentifierStart start, parts]) ends
  simp only [Front.read, isBlank_of_isIdentifierStart start,
    ne_newline_of_isIdentifierStart start, start, if_true, if_false, Front.word, taken, ← eq,
    String.ofList_toList, Bool.false_eq_true]
  rw [eq, List.length_cons]

/-- An identifier spells the word that it is. -/
theorem spells_word (word : String) (identifier : isIdentifier word = true) :
    Spells word.toList [.word word] EndsWord :=
  fun offset _ ends => ⟨[_], Scanned.all_word identifier offset ends, rfl⟩

/-! ### Punctuation -/

/-- A punctuation character spells its symbol; the point and the slash could start something
longer. -/
theorem spells_symbol (mark : Symbol) (notPoint : mark ≠ .dot) (notSlash : mark ≠ .slash) :
    Spells [mark.character] [.symbol mark] Anything := by
  refine Spells.element (.token (.symbol mark)) fun offset rest _ => ?_
  cases mark <;> first | rfl | exact absurd rfl notPoint | exact absurd rfl notSlash

theorem spells_dot : Spells ['.'] [.symbol .dot] EndsPoint := by
  refine Spells.element (.token (.symbol .dot)) fun offset rest ends => ?_
  cases rest with
  | nil => rfl
  | cons character rest =>
    have digit : character.isDigit = false := ends character rfl
    have letter : Char.isAlpha '.' = false := by decide
    simp [Front.read, isBlank, isIdentifierStart, Front.symbol, Symbol.ofCharacter?, digit, letter]

/-! ### Sources -/

theorem Scanned.faults_map_piece (pieces : List Piece) :
    Scanned.faults (pieces.map (Scanned.piece · [])) = [] := by
  induction pieces with
  | nil => rfl
  | cons piece rest inductionHypothesis => exact inductionHypothesis

/-- What is scanned without a fault is pieces without a fault. -/
theorem Scanned.eq_map_piece {scanned : List Scanned} (none : faults scanned = []) :
    scanned = (scanned.filterMap piece?).map (piece · []) := by
  induction scanned with
  | nil => rfl
  | cons first rest inductionHypothesis =>
    cases first with
    | piece found own =>
      obtain ⟨rfl, later⟩ := List.append_eq_nil_iff.mp none
      exact congrArg (piece found [] :: ·) (inductionHypothesis later)
    | unknown span =>
      unfold faults at none
      split at none
      · cases none
      · split at none <;> cases none

/-- A source is cut into pieces if nothing else is scanned. -/
theorem scan_eq_pieces_iff {source : List Char} {pieces : List Piece} :
    scan source = .pieces pieces ↔ Scanned.all 0 source = pieces.map (Scanned.piece · []) := by
  constructor
  · intro scanned
    unfold scan at scanned
    dsimp only at scanned
    split at scanned
    · next none =>
      obtain rfl := Scan.pieces.inj scanned
      exact Scanned.eq_map_piece none
    · cases scanned
  · intro all
    have kept : (pieces.map (Scanned.piece · [])).filterMap Scanned.piece? = pieces := by
      rw [List.filterMap_map]
      exact List.filterMap_some
    simp only [scan, all, Scanned.faults_map_piece, kept]

/-- A source that spells tokens is cut into pieces with those tokens. -/
theorem Spells.scan {text : List Char} {tokens : List Token}
    (spells : Spells text tokens Anything) :
    ∃ pieces, scan text = .pieces pieces ∧ Piece.tokens pieces = tokens := by
  obtain ⟨pieces, scanned, same⟩ := spells 0 [] trivial
  rw [List.append_nil, Scanned.all, List.append_nil] at scanned
  exact ⟨pieces, scan_eq_pieces_iff.mpr scanned, same⟩

end ProtoSchema
