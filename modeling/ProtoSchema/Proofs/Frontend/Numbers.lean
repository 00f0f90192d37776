/-
This file shows how numbers and identifiers are kept apart in a source whose tokens
are read: no letter and no underscore stands directly behind a number, but for the
literals that count as zero without a look at what follows them. Every integer is the
number that its text spells, but for those among these literals that have more digits
than the zero.
-/

import ProtoSchema.Proofs.Frontend.Listing
import ProtoSchema.Proofs.Scanning.Integers

namespace ProtoSchema

theorem ListedKind.eq_of_ofToken {token number : Token} (isNumber : number.IsNumber)
    (same : ofToken token = ofToken number) : token = number := by
  cases token with
  | word text =>
    rcases isNumber with ⟨value, rfl⟩ | ⟨value, rfl⟩
    all_goals
      rw [ofToken, ofToken] at same
      split at same <;> cases same
  | int value =>
    rcases isNumber with ⟨value, rfl⟩ | ⟨value, rfl⟩ <;> cases same
    rfl
  | float value =>
    rcases isNumber with ⟨value, rfl⟩ | ⟨value, rfl⟩ <;> cases same
    rfl
  | string bytes => rcases isNumber with ⟨value, rfl⟩ | ⟨value, rfl⟩ <;> cases same
  | symbol mark => rcases isNumber with ⟨value, rfl⟩ | ⟨value, rfl⟩ <;> cases same

/-- A listed token other than the end of the source is that of a piece. -/
theorem exists_piece_of_mem_listing {source : List Char} {pieces : List Piece}
    {listed : ListedToken} (member : listed ∈ listing source pieces) :
    listed.kind = .endOfFile ∨ ∃ piece ∈ pieces, ∃ token, piece.element = .token token ∧
      listed.kind = .ofToken token ∧ listed.span = piece.span := by
  rcases List.mem_append.mp member with isPlaced | isEnd
  · obtain ⟨piece, isPiece, found⟩ := List.mem_filterMap.mp isPlaced
    unfold ListedToken.ofPiece? at found
    split at found
    · next token isToken =>
      obtain rfl := Option.some.inj found
      exact .inr ⟨piece, isPiece, token, isToken, rfl, rfl⟩
    · cases found
  · rw [List.mem_singleton.mp isEnd]
    exact .inl rfl

/-- In a source whose tokens are read, only a zero literal may run into an identifier; and each zero
literal may, wherever it stands, unless the identifier starts like an exponent or like hexadecimal
digits. -/
theorem numbers_standApart (options : ParseOptions) :
    (∀ {source : String} {tokens : List ListedToken}, options.tokenize source = .ok tokens →
      ∀ listed ∈ tokens, ∀ number : Token, number.IsNumber → listed.kind = .ofToken number →
        StandsApart source.toList number listed.span) ∧
    ∀ {text : List Char} {word : String}, ZeroLiteral text → isIdentifier word = true →
      (∀ first ∈ word.toList.head?, first ∉ ['e', 'E', 'x', 'X']) →
      Spells (text ++ word.toList) [.int 0, .word word] EndsWord := by
  refine ⟨fun accepted => ?_, spells_zeroLiteral_word⟩
  obtain ⟨-, pieces, scanned, rfl⟩ := ParseOptions.tokenize_eq_ok_iff.mp accepted
  intro listed member number isNumber isKind
  rcases exists_piece_of_mem_listing member with
    isEnd | ⟨piece, isPiece, token, isToken, kind, span⟩
  · exact absurd (isKind.symm.trans isEnd) (ListedKind.ofToken_ne_endOfFile number)
  · obtain rfl := ListedKind.eq_of_ofToken isNumber (kind.symm.trans isKind)
    rw [span]
    exact standsApart_of_scan scanned piece isPiece token isToken isNumber

/-- A zero literal that runs into an identifier, and numbers of other forms. -/
theorem numbers_standApart_sample : ∃ tokens,
    ({} : ParseOptions).tokenize "089a 017 0x1F" = .ok tokens ∧
      tokens.map (fun listed => (listed.kind, listed.span)) =
        [(.int 0, ⟨0, 3⟩), (.identifier "a", ⟨3, 4⟩), (.int 15, ⟨5, 8⟩), (.int 31, ⟨9, 13⟩),
          (.endOfFile, ⟨13, 13⟩)] ∧
      (∀ listed ∈ tokens, ∀ number : Token, number.IsNumber → listed.kind = .ofToken number →
        StandsApart "089a 017 0x1F".toList number listed.span) ∧
      Spells ("089".toList ++ "a".toList) [.int 0, .word "a"] EndsWord := by
  have scanned : scan "089a 017 0x1F".toList = .pieces
      [⟨.token (.int 0), ⟨0, 3⟩⟩, ⟨.token (.word "a"), ⟨3, 4⟩⟩, ⟨.token (.int 15), ⟨5, 8⟩⟩,
        ⟨.token (.int 31), ⟨9, 13⟩⟩] := by decide +kernel
  have accepted : ({} : ParseOptions).tokenize "089a 017 0x1F" = .ok _ :=
    ParseOptions.tokenize_eq_ok_iff.mpr ⟨by decide, _, scanned, rfl⟩
  have isZero : ZeroLiteral "089".toList := .inr ⟨'8', ['9'], rfl, by decide, rfl⟩
  exact ⟨_, accepted, by decide, (numbers_standApart {}).1 accepted,
    (numbers_standApart {}).2 isZero (by decide) (by simp)⟩

/-- The literal zero runs into an identifier. -/
theorem zero_runs_into_word : ∃ tokens, ({} : ParseOptions).tokenize "0a" = .ok tokens ∧
    ∃ listed ∈ tokens, listed.kind = .int 0 ∧
      ∃ before text first behind, "0a".toList = before ++ text ++ first :: behind ∧
        listed.span = ⟨byteLength before, byteLength (before ++ text)⟩ ∧
          isIdentifierStart first = true := by
  have scanned : scan "0a".toList = .pieces
      [⟨.token (.int 0), ⟨0, 1⟩⟩, ⟨.token (.word "a"), ⟨1, 2⟩⟩] := by decide +kernel
  have accepted : ({} : ParseOptions).tokenize "0a" = .ok _ :=
    ParseOptions.tokenize_eq_ok_iff.mpr ⟨by decide, _, scanned, rfl⟩
  exact ⟨_, accepted, _, List.mem_cons_self, rfl, [], ['0'], 'a', [], rfl, rfl, by decide⟩

/-- In a source whose tokens are read, the integers are what is spelled where they stand, but for
zero literals. -/
theorem integers_spelledOut {options : ParseOptions} {source : String}
    {tokens : List ListedToken} (accepted : options.tokenize source = .ok tokens) :
    ∀ listed ∈ tokens, ∀ value : UInt64, listed.kind = .int value →
      SpelledOut source.toList value listed.span := by
  obtain ⟨-, pieces, scanned, rfl⟩ := ParseOptions.tokenize_eq_ok_iff.mp accepted
  intro listed member value isKind
  rcases exists_piece_of_mem_listing member with
    isEnd | ⟨piece, isPiece, token, isToken, kind, span⟩
  · exact nomatch isKind.symm.trans isEnd
  · obtain rfl := ListedKind.eq_of_ofToken (.inl ⟨value, rfl⟩) (kind.symm.trans isKind)
    rw [span]
    exact spelledOut_of_scan scanned piece isPiece value isToken

/-- Integers in each base, and digits that count as zero. -/
theorem integers_spelledOut_sample : ∃ tokens,
    ({} : ParseOptions).tokenize "0x1F 017 90 089" = .ok tokens ∧
      tokens.map (fun listed => (listed.kind, listed.span)) =
        [(.int 31, ⟨0, 4⟩), (.int 15, ⟨5, 8⟩), (.int 90, ⟨9, 11⟩), (.int 0, ⟨12, 15⟩),
          (.endOfFile, ⟨15, 15⟩)] ∧
      ∀ listed ∈ tokens, ∀ value : UInt64, listed.kind = .int value →
        SpelledOut "0x1F 017 90 089".toList value listed.span := by
  have scanned : scan "0x1F 017 90 089".toList = .pieces
      [⟨.token (.int 31), ⟨0, 4⟩⟩, ⟨.token (.int 15), ⟨5, 8⟩⟩, ⟨.token (.int 90), ⟨9, 11⟩⟩,
        ⟨.token (.int 0), ⟨12, 15⟩⟩] := by decide +kernel
  have accepted : ({} : ParseOptions).tokenize "0x1F 017 90 089" = .ok _ :=
    ParseOptions.tokenize_eq_ok_iff.mpr ⟨by decide, _, scanned, rfl⟩
  exact ⟨_, accepted, by decide, integers_spelledOut accepted⟩

/-- Digits that are no integer literal are read as the integer zero. -/
theorem misspelled_integer_is_zero : ∃ tokens,
    ({} : ParseOptions).tokenize "089" = .ok tokens ∧
      (∃ listed ∈ tokens, listed.kind = .int 0 ∧
        listed.span = ⟨0, byteLength "089".toList⟩) ∧
      ∀ value, ¬ SpellsInteger "089".toList value := by
  have scanned : scan "089".toList = .pieces [⟨.token (.int 0), ⟨0, 3⟩⟩] := by decide +kernel
  have accepted : ({} : ParseOptions).tokenize "089" = .ok _ :=
    ParseOptions.tokenize_eq_ok_iff.mpr ⟨by decide, _, scanned, rfl⟩
  refine ⟨_, accepted, ⟨_, List.mem_cons_self, rfl, rfl⟩, fun value spelled => ?_⟩
  cases spelled with
  | decimal _ _ noZero => exact noZero rfl
  | octal _ _ octal => exact absurd (octal '8' List.mem_cons_self) (by decide)
  | hexadecimal _ isMark => exact absurd isMark (by decide)

end ProtoSchema
