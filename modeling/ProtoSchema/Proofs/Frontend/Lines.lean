/-
This file shows that tokens are read line by line: if two sources are accepted, then
so are both with a line break between them, and the tokens are those of the first
and then those of the second, which stand so many bytes and lines later in the same
columns.
-/

import ProtoSchema.Proofs.Frontend.Listing
import ProtoSchema.Proofs.Scanning.Joining

namespace ProtoSchema

/-- A listed token so many bytes and lines later, in the same column. -/
def ListedToken.later (bytes lines : Nat) (token : ListedToken) : ListedToken :=
  ⟨token.kind, token.span.later bytes, ⟨token.location.line + lines, token.location.column⟩⟩

/-- An entry of a listing so many bytes later. -/
def ListedToken.entryLater (bytes : Nat) (entry : ListedKind × Span) : ListedKind × Span :=
  (entry.1, entry.2.later bytes)

variable {first second : List Char}

/-- What starts within a source is located as before if a line break and more are added. -/
theorem ListedToken.located_first {before behind : List Char} {entry : ListedKind × Span}
    (same : first = before ++ behind) (start : byteLength before = entry.2.start) :
    located (first ++ '\n' :: second) entry = located first entry := by
  rw [same, List.append_assoc, located_eq start, located_eq start]

/-- Behind other lines, a source is located so many lines later. -/
theorem ListedToken.located_second {before behind : List Char} {entry : ListedKind × Span}
    (same : second = before ++ behind) (start : byteLength before = entry.2.start) :
    located (first ++ '\n' :: second) (entryLater (byteLength first + 1) entry) =
      (located second entry).later (byteLength first + 1) (first.count '\n' + 1) := by
  have later : byteLength (first ++ '\n' :: before) =
      (entryLater (byteLength first + 1) entry).2.start := by
    have one : '\n'.utf8Size = 1 := rfl
    rw [byteLength_append, byteLength_cons, start, one, Nat.add_comm 1, Nat.add_left_comm]
    rfl
  have whole : first ++ '\n' :: second = (first ++ '\n' :: before) ++ behind := by
    rw [same, List.append_assoc, List.cons_append]
  rw [whole, located_eq later, same, located_eq start, Location.behind_line]
  rfl

/-- Only the end of the source is listed as such. -/
theorem filter_listing (source : List Char) (pieces : List Piece) :
    (listing source pieces).filter (·.kind ≠ .endOfFile) =
      ((Piece.placedTokens pieces).map ListedToken.entry).map (ListedToken.located source) := by
  rw [listing_eq_map, listed, List.map_append, List.filter_append, List.filter_eq_self.mpr]
  · exact List.append_nil _
  · refine List.forall_mem_map.mpr (List.forall_mem_map.mpr fun placed _ => ?_)
    exact decide_eq_true (ListedKind.ofToken_ne_endOfFile placed.1)

theorem listed_joined {firstPieces secondPieces pieces : List Piece}
    (tokens : Piece.placedTokens pieces = Piece.placedTokens firstPieces ++
      (Piece.placedTokens secondPieces).map fun placed =>
        (placed.1, placed.2.later (byteLength first + 1))) :
    listed (first ++ '\n' :: second) pieces =
      (Piece.placedTokens firstPieces).map ListedToken.entry ++
        (listed second secondPieces).map (ListedToken.entryLater (byteLength first + 1)) := by
  have last : (ListedKind.endOfFile, Span.point (byteLength (first ++ '\n' :: second))) =
      ListedToken.entryLater (byteLength first + 1) (.endOfFile, .point (byteLength second)) := by
    have one : '\n'.utf8Size = 1 := rfl
    have total : byteLength (first ++ '\n' :: second) =
        byteLength second + (byteLength first + 1) := by
      rw [byteLength_append, byteLength_cons, one]
      omega
    rw [total]
    rfl
  rw [listed, listed, tokens, last, List.map_append, List.map_append, List.map_map, List.map_map,
    List.append_assoc]
  rfl

/-- If two sources are accepted, so are both with a line break between them, unless they are too
long together. The tokens are those of the first, as they are, and then those of the second, as far
behind as the first is long and in the same columns. -/
theorem tokenize_joined {options : ParseOptions} {first second : String}
    {firstTokens secondTokens : List ListedToken}
    (firstAccepted : options.tokenize first = .ok firstTokens)
    (secondAccepted : options.tokenize second = .ok secondTokens)
    (fits : byteLength (first ++ "\n" ++ second).toList ≤ options.maxLength) :
    options.tokenize (first ++ "\n" ++ second) =
      .ok (firstTokens.filter (·.kind ≠ .endOfFile) ++
        secondTokens.map
          (.later (byteLength first.toList + 1) (first.toList.count '\n' + 1))) := by
  obtain ⟨-, firstPieces, firstScanned, rfl⟩ := ParseOptions.tokenize_eq_ok_iff.mp firstAccepted
  obtain ⟨-, secondPieces, secondScanned, rfl⟩ := ParseOptions.tokenize_eq_ok_iff.mp secondAccepted
  have joined : (first ++ "\n" ++ second).toList = first.toList ++ '\n' :: second.toList := by
    rw [String.toList_append, String.toList_append, List.append_assoc]
    rfl
  obtain ⟨pieces, scanned, tokens⟩ := scan_joined firstScanned secondScanned
  refine ParseOptions.tokenize_eq_ok_iff.mpr ⟨fits, pieces, joined ▸ scanned, ?_⟩
  have onFirst : ((Piece.placedTokens firstPieces).map ListedToken.entry).map
      (ListedToken.located (first.toList ++ '\n' :: second.toList)) =
        (listing first.toList firstPieces).filter (·.kind ≠ .endOfFile) := by
    rw [filter_listing]
    refine List.map_congr_left fun entry member => ?_
    obtain ⟨before, behind, same, start⟩ :=
      exists_before_of_mem_listed firstScanned (List.mem_append_left _ member)
    exact ListedToken.located_first same start
  have onSecond : ((listed second.toList secondPieces).map
      (ListedToken.entryLater (byteLength first.toList + 1))).map
        (ListedToken.located (first.toList ++ '\n' :: second.toList)) =
          (listing second.toList secondPieces).map
            (.later (byteLength first.toList + 1) (first.toList.count '\n' + 1)) := by
    rw [listing_eq_map, List.map_map, List.map_map]
    refine List.map_congr_left fun entry member => ?_
    obtain ⟨before, behind, same, start⟩ := exists_before_of_mem_listed secondScanned member
    exact ListedToken.located_second same start
  rw [joined, listing_eq_map, listed_joined tokens, List.map_append, onFirst, onSecond]

/-- The comment at the end of the first source takes up the line break, and the word at the start of
the second one does not run into a number. -/
theorem tokenize_joined_sample : ∃ firstTokens secondTokens,
    ({} : ParseOptions).tokenize "a\n1 // '" = .ok firstTokens ∧
      ({} : ParseOptions).tokenize "x1\n 'é'" = .ok secondTokens ∧
        byteLength ("a\n1 // '" ++ "\n" ++ "x1\n 'é'").toList ≤ defaultMaxLength ∧
          ({} : ParseOptions).tokenize ("a\n1 // '" ++ "\n" ++ "x1\n 'é'") =
            .ok (firstTokens.filter (·.kind ≠ .endOfFile) ++ secondTokens.map (.later 9 2)) := by
  have firstScanned : scan "a\n1 // '".toList = .pieces
      [⟨.token (.word "a"), ⟨0, 1⟩⟩, ⟨.trivia .newline, ⟨1, 2⟩⟩, ⟨.token (.int 1), ⟨2, 3⟩⟩,
        ⟨.trivia (.lineComment " '"), ⟨4, 8⟩⟩] := by decide +kernel
  have secondScanned : scan "x1\n 'é'".toList = .pieces
      [⟨.token (.word "x1"), ⟨0, 2⟩⟩, ⟨.trivia .newline, ⟨2, 3⟩⟩,
        ⟨.token (.string [195, 169]), ⟨4, 8⟩⟩] := by decide +kernel
  have firstAccepted : ({} : ParseOptions).tokenize "a\n1 // '" = .ok _ :=
    ParseOptions.tokenize_eq_ok_iff.mpr ⟨by decide, _, firstScanned, rfl⟩
  have secondAccepted : ({} : ParseOptions).tokenize "x1\n 'é'" = .ok _ :=
    ParseOptions.tokenize_eq_ok_iff.mpr ⟨by decide, _, secondScanned, rfl⟩
  have fits : byteLength ("a\n1 // '" ++ "\n" ++ "x1\n 'é'").toList ≤ defaultMaxLength := by
    decide
  exact ⟨_, _, firstAccepted, secondAccepted, fits,
    tokenize_joined firstAccepted secondAccepted fits⟩

end ProtoSchema
