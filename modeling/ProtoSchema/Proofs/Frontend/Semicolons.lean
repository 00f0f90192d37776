/-
This file shows that a semicolon may stand behind every brace that closes a block,
where it makes no difference to the tree but in its places, and that no other
semicolon stands alone.
-/

import ProtoSchema.Proofs.Frontend.Accepted
import ProtoSchema.Proofs.Insertion.Endings
import ProtoSchema.Proofs.Insertion.Streams

namespace ProtoSchema

/-! ### Tokens with a semicolon more -/

/-- A semicolon inserted directly behind a brace is a token more behind the brace, if there is none
yet. Every other token is carried to its new place. -/
theorem TokenStream.inserted {source : List Char} {pieces : List Piece} {taken rest : List Lexeme}
    {brace : Lexeme} (scanned : scan source = .pieces pieces)
    (split : (ofPieces pieces).lexemes = taken ++ brace :: rest)
    (closes : brace.token = .symbol .rightBrace)
    (noSemicolon : rest.head?.map (·.token) ≠ some (.symbol .semicolon)) :
    ∃ left right others otherTail, source = left ++ '}' :: right ∧
      byteLength left = brace.span.start ∧
      scan (left ++ '}' :: ';' :: right) = .pieces others ∧
      (ofPieces others).lexemes = taken ++ otherTail ∧
      (ofPieces others).atEnd = (ofPieces pieces).atEnd ∧
      List.Forall₂ (Lexeme.Carried (.gap brace.span.stop)) taken taken ∧
      Gains (.gap brace.span.stop) (brace :: rest) otherTail := by
  have increasing := increasing_ofPieces (increasing_of_scan scanned)
  rw [split, List.map_append, List.map_cons] at increasing
  obtain ⟨before, some, -⟩ := increasing.around
  obtain ⟨front, back, rfl, isRest, prepared⟩ := exists_of_build split
  have same := prepared back
  have whole := prepared (.symbol .semicolon ⟨brace.span.stop, brace.span.stop + 1⟩ ::
    back.map (Piece.moved (.gap brace.span.stop)))
  rw [closes, decide_eq_true rfl] at same whole isRest
  rw [closes] at scanned
  obtain ⟨left, right, rfl, isSpan, inserted⟩ := scan_inserted scanned
  obtain ⟨carried, sameEnd⟩ := @carried_build (.gap brace.span.stop) .afterToken true false back
    fun isSemicolon => absurd (isRest ▸ isSemicolon) noSemicolon
  refine ⟨left, right, _, _, rfl, by rw [isSpan], inserted, congrArg lexemes whole, ?_, ?_, ?_⟩
  · rw [closes]
    exact ((congrArg atEnd whole).trans sameEnd).trans (congrArg atEnd same).symm
  · refine List.forall₂_same.mpr fun lexeme member => ⟨rfl, ?_, rfl, fun _ => rfl⟩
    obtain ⟨own, early⟩ := before lexeme.span (List.mem_map_of_mem member)
    exact (Span.moved_gap_before own (Nat.le_trans early (Nat.le_of_lt some))).symm
  · rw [isRest]
    refine .intro closes ⟨rfl, ?_, rfl, fun _ => rfl⟩ ⟨rfl, rfl⟩ carried
    exact (Span.moved_gap_before some (Nat.le_refl _)).symm

/-! ### Sources -/

/-- The parser comes to a spot of a source. -/
def Spot.Of (source : List Char) (spot : Spot) : Prop :=
  ∃ pieces, scan source = .pieces pieces ∧
    Spot.Visited ⟨none, byteLength source, (TokenStream.ofPieces pieces).atEnd⟩
      (TokenStream.ofPieces pieces).lexemes spot

/-- A brace of a source is taken as the end of a block, with the given tokens behind it. -/
def EndsBlock (source : List Char) (brace : Lexeme) (rest : List Lexeme) : Prop :=
  brace.token = .symbol .rightBrace ∧
    ∃ (kind : Block) (state : kind.State), Spot.Of source ⟨.block kind, state, brace :: rest⟩

/-- A semicolon of a source is taken as an empty statement, with the given tokens behind it. -/
def StandsAlone (source : List Char) (semicolon : Lexeme) (rest : List Lexeme) : Prop :=
  semicolon.token = .symbol .semicolon ∧
    ∃ (body : Body) (state : body.State), Spot.Of source ⟨body, state, semicolon :: rest⟩

/-- Whether an outcome is an answer without a fault that leaves the given tokens. -/
def Outcome.leaves {Value : Type} (outcome : Outcome Value) (left : List Lexeme) : Bool :=
  match outcome with
  | .done _ [] rest => rest = left
  | _ => false

/-- An outcome that passes a check made on what is left is done. -/
theorem Outcome.exists_of_check {Value : Type} (outcome : Outcome Value) (left : List Lexeme)
    (checked : outcome.leaves left = true) :
    ∃ value, outcome = .done value [] left := by
  match outcome with
  | .done value [] rest =>
    exact ⟨value, congrArg (Outcome.done value []) (of_decide_eq_true checked)⟩
  | .done value (first :: others) rest => cases checked
  | .stopped faults fault => cases checked

namespace ParseOptions

variable {options : ParseOptions}

theorem spanless_finish (parsed : File) (change : Span → Span) :
    (options.finish (parsed.shifted change)).spanless = (options.finish parsed).spanless := by
  unfold finish
  split
  · rw [File.resolve_shifted, File.spanless_shifted]
  · rw [File.spanless_shifted]

/-- A semicolon may be inserted behind any brace that ends a block. -/
theorem parse_inserted {source : String} {file : File} {brace : Lexeme} {rest : List Lexeme}
    (accepted : options.parse source = .ok file) (ends : EndsBlock source.toList brace rest)
    (noSemicolon : rest.head?.map (·.token) ≠ some (.symbol .semicolon))
    (fits : byteLength source.toList + 1 ≤ options.maxLength) :
    ∃ left right other, source.toList = left ++ '}' :: right ∧
      byteLength left = brace.span.start ∧
      options.parse (String.ofList (left ++ '}' :: ';' :: right)) = .ok other ∧
      other.spanless = file.spanless := by
  obtain ⟨pieces, parsed, ⟨-, scanned, behind, done⟩, rfl⟩ := parse_eq_ok_iff.mp accepted
  obtain ⟨closes, kind, state, _, sameScan, visited⟩ := ends
  obtain rfl := Scan.pieces.inj (scanned.symm.trans sameScan)
  obtain ⟨taken, split, again⟩ :=
    @Parser.file_inserted (.gap brace.span.stop) _ _ _ _ _ _ _ _ done closes visited
  obtain ⟨left, right, others, otherTail, isSource, starts, otherScan, otherTokens, sameEnd,
    carried, gains⟩ := TokenStream.inserted scanned split closes noSemicolon
  obtain ⟨otherLeft, otherDone⟩ := again ⟨none, byteLength (left ++ '}' :: ';' :: right),
    (TokenStream.ofPieces others).atEnd⟩ taken otherTail rfl sameEnd carried gains
  have size : byteLength (left ++ '}' :: ';' :: right) = byteLength source.toList + 1 := by
    have one : Char.utf8Size ';' = 1 := rfl
    simp only [isSource, byteLength_append, byteLength_cons, one]
    omega
  refine ⟨left, right, options.finish (parsed.shifted (Move.gap brace.span.stop)), isSource, starts,
    parse_eq_ok_iff.mpr ⟨others, _, ⟨?_, ?_, otherLeft, ?_⟩, rfl⟩, spanless_finish parsed _⟩
  · rw [String.toList_ofList, size]
    exact fits
  · rw [String.toList_ofList]
    exact otherScan
  · rw [String.toList_ofList, otherTokens]
    exact otherDone

/-- A semicolon that stands alone does so directly behind a brace that ends a block. -/
theorem exists_endsBlock {source : String} {file : File} {semicolon : Lexeme} {rest : List Lexeme}
    (accepted : options.parse source = .ok file)
    (alone : StandsAlone source.toList semicolon rest) :
    ∃ brace, EndsBlock source.toList brace (semicolon :: rest) := by
  obtain ⟨pieces, parsed, ⟨-, scanned, left, done⟩, rfl⟩ := parse_eq_ok_iff.mp accepted
  obtain ⟨isSemicolon, body, state, _, sameScan, visited⟩ := alone
  obtain rfl := Scan.pieces.inj (scanned.symm.trans sameScan)
  have follows := Spot.Visited.followsBrace done isSemicolon visited
  obtain first | ⟨taken, last, split, noBrace⟩ | ⟨kind, known, brace, closes, ended⟩ :=
    visited.behind
  · exact absurd (TokenStream.followsBrace_of_build first) (by simp [follows])
  · obtain ⟨front, back, -, isRest, -⟩ := TokenStream.exists_of_build split
    exact absurd (TokenStream.followsBrace_of_build isRest.symm) (by simp [follows, noBrace])
  · exact ⟨brace, closes, kind, known, pieces, scanned, ended⟩

/-- Behind every brace that ends a block of an accepted source, where no semicolon is next yet, one
may be inserted, if the length allows it: the source is still accepted, with the same tree, comments
included, but for its spans. And every semicolon that stands alone is next behind such a brace. -/
theorem semicolons_behind_blocks {source : String} {file : File}
    (accepted : options.parse source = .ok file) :
    (∀ brace rest, EndsBlock source.toList brace rest →
      rest.head?.map (·.token) ≠ some (.symbol .semicolon) →
        byteLength source.toList + 1 ≤ options.maxLength →
          ∃ left right other, source.toList = left ++ '}' :: right ∧
            byteLength left = brace.span.start ∧
            options.parse (String.ofList (left ++ '}' :: ';' :: right)) = .ok other ∧
            other.spanless = file.spanless) ∧
      ∀ semicolon rest, StandsAlone source.toList semicolon rest →
        ∃ brace, EndsBlock source.toList brace (semicolon :: rest) :=
  ⟨fun _ _ ends noSemicolon fits => parse_inserted accepted ends noSemicolon fits,
    fun _ _ alone => exists_endsBlock accepted alone⟩

/-- Two messages, of which the outer one has a semicolon behind it. -/
theorem semicolons_behind_blocks_nested :
    ∃ file, ({} : ParseOptions).parse "message M{message N{}};" = .ok file ∧
      (∃ left right other, "message M{message N{}};".toList = left ++ '}' :: right ∧
        byteLength left = 20 ∧
        ({} : ParseOptions).parse (String.ofList (left ++ '}' :: ';' :: right)) = .ok other ∧
        other.spanless = file.spanless) ∧
      ∃ brace, EndsBlock "message M{message N{}};".toList brace
        [⟨.symbol .semicolon, ⟨22, 23⟩, ⟨none, [], none⟩, true⟩] := by
  obtain ⟨file, accepted, -⟩ := exists_of_check
    (({} : ParseOptions).parse "message M{message N{}};") (fun _ => true) (by decide +kernel)
  have scanned : scan "message M{message N{}};".toList = .pieces
      [⟨.token (.word "message"), ⟨0, 7⟩⟩, ⟨.token (.word "M"), ⟨8, 9⟩⟩,
        .symbol .leftBrace ⟨9, 10⟩, ⟨.token (.word "message"), ⟨10, 17⟩⟩,
        ⟨.token (.word "N"), ⟨18, 19⟩⟩, .symbol .leftBrace ⟨19, 20⟩, .symbol .rightBrace ⟨20, 21⟩,
        .symbol .rightBrace ⟨21, 22⟩, .symbol .semicolon ⟨22, 23⟩] := by decide +kernel
  have inner : EndsBlock "message M{message N{}};".toList
      ⟨.symbol .rightBrace, ⟨20, 21⟩, ⟨none, [], none⟩, false⟩
      [⟨.symbol .rightBrace, ⟨21, 22⟩, ⟨none, [], none⟩, true⟩,
        ⟨.symbol .semicolon, ⟨22, 23⟩, ⟨none, [], none⟩, true⟩] := by
    refine ⟨rfl, .message (Nesting.message.limit - 2) [0, 0],
      ⟨⟨"N", ⟨18, 19⟩⟩, [], [], [], [], [], [], [], [], ⟨[], none, none⟩, ⟨10, 17⟩⟩, _, scanned,
      none, _, rfl, ?_⟩
    exact .tail (.single (.enter rfl rfl)) (.enter rfl rfl)
  have alone : StandsAlone "message M{message N{}};".toList
      ⟨.symbol .semicolon, ⟨22, 23⟩, ⟨none, [], none⟩, true⟩ [] := by
    obtain ⟨following, read⟩ : ∃ following, Parser.member (Body.member .file) (Body.expected .file)
        (Spot.first none []).state (.word "message") ⟨none, 23, ⟨none, [], none⟩⟩
        [⟨.word "message", ⟨0, 7⟩, ⟨none, [], none⟩, false⟩,
          ⟨.word "M", ⟨8, 9⟩, ⟨none, [], none⟩, false⟩,
          ⟨.symbol .leftBrace, ⟨9, 10⟩, ⟨none, [], none⟩, false⟩,
          ⟨.word "message", ⟨10, 17⟩, ⟨none, [], none⟩, false⟩,
          ⟨.word "N", ⟨18, 19⟩, ⟨none, [], none⟩, false⟩,
          ⟨.symbol .leftBrace, ⟨19, 20⟩, ⟨none, [], none⟩, false⟩,
          ⟨.symbol .rightBrace, ⟨20, 21⟩, ⟨none, [], none⟩, false⟩,
          ⟨.symbol .rightBrace, ⟨21, 22⟩, ⟨none, [], none⟩, true⟩,
          ⟨.symbol .semicolon, ⟨22, 23⟩, ⟨none, [], none⟩, true⟩] =
            .done following [] [⟨.symbol .semicolon, ⟨22, 23⟩, ⟨none, [], none⟩, true⟩] :=
      Outcome.exists_of_check _ _ (by decide +kernel)
    exact ⟨rfl, .file, following, _, scanned, none, _, rfl, .single (.member (by decide) read)⟩
  obtain ⟨inserted, behind⟩ := semicolons_behind_blocks accepted
  exact ⟨file, accepted, inserted _ _ inner (by decide) (by decide +kernel), behind _ _ alone⟩

end ParseOptions

end ProtoSchema
