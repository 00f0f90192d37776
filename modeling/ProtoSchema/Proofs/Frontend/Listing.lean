/-
This file shows that reading the tokens of a source loses and invents nothing. The
pieces of an accepted source cover it but for what only separates tokens, and its
listing names the tokens among them in order, each with its place in the text, and
then the end of the source once.
-/

import ProtoSchema.Proofs.Frontend.Accepted
import ProtoSchema.Proofs.Scanning.Tiling
import ProtoSchema.Proofs.Source.Location

namespace ProtoSchema

/-- The sources whose tokens are listed: they are short enough and cut into pieces. -/
theorem ParseOptions.tokenize_eq_ok_iff {options : ParseOptions} {source : String}
    {listed : List ListedToken} :
    options.tokenize source = .ok listed ↔
      byteLength source.toList ≤ options.maxLength ∧
        ∃ pieces, scan source.toList = .pieces pieces ∧ listing source.toList pieces = listed := by
  constructor
  · intro accepted
    cases found : options.pieces source.toList with
    | error report =>
      rw [tokenize, found] at accepted
      cases accepted
    | ok pieces =>
      obtain ⟨fits, scanned⟩ := pieces_eq_ok_iff.mp found
      rw [tokenize, found] at accepted
      exact ⟨fits, pieces, scanned, Except.ok.inj accepted⟩
  · rintro ⟨fits, pieces, scanned, rfl⟩
    rw [tokenize, pieces_eq_ok_iff.mpr ⟨fits, scanned⟩]
    rfl

/-! ### Listed tokens -/

theorem ListedKind.ofToken_ne_endOfFile (token : Token) : ofToken token ≠ .endOfFile := by
  cases token with
  | word text =>
    rw [ofToken]
    split <;> exact fun same => nomatch same
  | int value => exact fun same => nomatch same
  | float value => exact fun same => nomatch same
  | string bytes => exact fun same => nomatch same
  | symbol mark => exact fun same => nomatch same

/-- What a listing says of a token that stands at a place, without its location. -/
def ListedToken.entry (placed : Token × Span) : ListedKind × Span :=
  (.ofToken placed.1, placed.2)

/-- What a listing says of the pieces of a source, without the locations: the tokens among them in
order, and then the end of the source. -/
def listed (source : List Char) (pieces : List Piece) : List (ListedKind × Span) :=
  (Piece.placedTokens pieces).map ListedToken.entry ++ [(.endOfFile, .point (byteLength source))]

/-- An entry of a listing with its location. -/
def ListedToken.located (source : List Char) (entry : ListedKind × Span) : ListedToken :=
  ⟨entry.1, entry.2, (LineIndex.ofSource source).locate entry.2.start⟩

/-- A listed token is located by where it starts, as is the end of the source. -/
theorem listing_eq_map (source : List Char) (pieces : List Piece) :
    listing source pieces = (listed source pieces).map (ListedToken.located source) := by
  have each (piece : Piece) : ListedToken.ofPiece? (LineIndex.ofSource source) piece =
      (piece.element.token?.map (·, piece.span)).map
        (ListedToken.located source ∘ ListedToken.entry) := by
    obtain ⟨element, span⟩ := piece
    cases element <;> rfl
  rw [listed, Piece.placedTokens, List.map_append, List.map_map, List.map_filterMap]
  exact congrArg (· ++ _) (List.filterMap_congr fun piece _ => each piece)

/-- The location of an entry is told by the text before it. -/
theorem ListedToken.located_eq {before behind : List Char} {entry : ListedKind × Span}
    (start : byteLength before = entry.2.start) :
    located (before ++ behind) entry = ⟨entry.1, entry.2, .behind before⟩ := by
  rw [located, ← start, LineIndex.locate_byteLength]

/-- Whatever is listed starts between two characters of the source. -/
theorem exists_before_of_mem_listed {source : List Char} {pieces : List Piece}
    (scanned : scan source = .pieces pieces) {entry : ListedKind × Span}
    (member : entry ∈ listed source pieces) :
    ∃ before behind, source = before ++ behind ∧ byteLength before = entry.2.start := by
  rcases List.mem_append.mp member with isToken | isEnd
  · obtain ⟨placed, isPlaced, rfl⟩ := List.mem_map.mp isToken
    obtain ⟨piece, isPiece, found⟩ := List.mem_filterMap.mp isPlaced
    obtain ⟨token, -, rfl⟩ := Option.map_eq_some_iff.mp found
    obtain ⟨left, first, rest, length, same, -, span⟩ := exists_front_of_scan scanned isPiece
    exact ⟨left, first :: rest, same, (congrArg Span.start span).symm⟩
  · obtain rfl := List.mem_singleton.mp isEnd
    exact ⟨source, [], (List.append_nil source).symm, rfl⟩

/-- The tokens of a source are listed as its pieces tell, each with the location of the text before
it, and only the last entry is the end of the source. -/
structure Lists (source : List Char) (pieces : List Piece) (tokens : List ListedToken) : Prop where
  entries : tokens.map (fun token => (token.kind, token.span)) = listed source pieces
  located : ∀ token ∈ tokens, ∃ before behind, source = before ++ behind ∧
    byteLength before = token.span.start ∧ token.location = .behind before
  once : ∀ token ∈ tokens.dropLast, token.kind ≠ .endOfFile

theorem lists_listing {source : List Char} {pieces : List Piece}
    (scanned : scan source = .pieces pieces) : Lists source pieces (listing source pieces) where
  entries := by
    rw [listing_eq_map, List.map_map]
    exact List.map_id _
  located := by
    rw [listing_eq_map]
    refine List.forall_mem_map.mpr fun entry member => ?_
    obtain ⟨before, behind, rfl, start⟩ := exists_before_of_mem_listed scanned member
    rw [ListedToken.located_eq start]
    exact ⟨before, behind, rfl, start, rfl⟩
  once := by
    rw [listing_eq_map, listed, List.map_append, List.map_singleton, List.dropLast_concat,
      List.map_map]
    exact List.forall_mem_map.mpr fun placed _ => ListedKind.ofToken_ne_endOfFile placed.1

/-- The pieces of a source whose tokens are read cover it but for what only separates tokens, and
the tokens among them are what is listed. -/
theorem tokens_tile {options : ParseOptions} {source : String} {tokens : List ListedToken}
    (accepted : options.tokenize source = .ok tokens) :
    ∃ pieces, scan source.toList = .pieces pieces ∧ Tiles source.toList pieces ∧
      Lists source.toList pieces tokens := by
  obtain ⟨-, pieces, scanned, rfl⟩ := ParseOptions.tokenize_eq_ok_iff.mp accepted
  exact ⟨pieces, scanned, tiles_of_scan scanned, lists_listing scanned⟩

/-- A comment with blanks behind it, a literal in which a comment seems to open, and a word on the
next line. -/
theorem tokens_tile_sample : ∃ tokens pieces,
    ({} : ParseOptions).tokenize "a/*é*/ \t'/*'\r\n  b1" = .ok tokens ∧
      tokens.map ListedToken.location = [⟨1, 1⟩, ⟨1, 10⟩, ⟨2, 3⟩, ⟨2, 5⟩] ∧
        pieces.map Piece.span = [⟨0, 1⟩, ⟨1, 9⟩, ⟨9, 13⟩, ⟨14, 15⟩, ⟨17, 19⟩] ∧
          Tiles "a/*é*/ \t'/*'\r\n  b1".toList pieces ∧
            Lists "a/*é*/ \t'/*'\r\n  b1".toList pieces tokens := by
  have scanned : scan "a/*é*/ \t'/*'\r\n  b1".toList = .pieces
      [⟨.token (.word "a"), ⟨0, 1⟩⟩, ⟨.trivia (.blockComment "é"), ⟨1, 9⟩⟩,
        ⟨.token (.string [47, 42]), ⟨9, 13⟩⟩, ⟨.trivia .newline, ⟨14, 15⟩⟩,
        ⟨.token (.word "b1"), ⟨17, 19⟩⟩] := by decide +kernel
  have accepted : ({} : ParseOptions).tokenize "a/*é*/ \t'/*'\r\n  b1" = .ok _ :=
    ParseOptions.tokenize_eq_ok_iff.mpr ⟨by decide, _, scanned, rfl⟩
  obtain ⟨pieces, same, tiles, lists⟩ := tokens_tile accepted
  obtain rfl := Scan.pieces.inj (scanned.symm.trans same)
  exact ⟨_, _, accepted, by decide, by decide, tiles, lists⟩

end ProtoSchema
