/-
This file shows that comments, line breaks and the widths of gaps make no
difference to what is accepted and to what is reported: two sources with the
same tokens are both accepted, with trees that are equal but for their places
and comments, or both rejected with the same list of diagnostics.
-/

import ProtoSchema.Proofs.Diagnostic.Arrange
import ProtoSchema.Proofs.Frontend.Reports
import ProtoSchema.Proofs.Movement.Layout
import ProtoSchema.Proofs.Movement.Resolve

namespace ProtoSchema

/-! ### Tokens -/

namespace TokenStream

/-- Tokens, each with a note whether it directly follows a closing brace. -/
def marked (followsBrace : Bool) : List Token → List (Token × Bool)
  | [] => []
  | token :: rest => (token, followsBrace) :: marked (token = .symbol .rightBrace) rest

theorem marked_build (comments : Tracker) (followsBrace : Bool) (pieces : List Piece) :
    (build comments followsBrace pieces).lexemes.map (fun lexeme =>
      (lexeme.token, lexeme.followsBrace)) = marked followsBrace (Piece.tokens pieces) := by
  fun_induction build comments followsBrace pieces with
  | case1 => rfl
  | case2 comments followsBrace trivia span rest inductionHypothesis => exact inductionHypothesis
  | case3 comments followsBrace token span rest inductionHypothesis =>
    exact congrArg ((token, followsBrace) :: ·) inductionHypothesis

/-- Numbered tokens do not depend on what stands between the tokens. -/
theorem numbered_ofPieces {first second : List Piece}
    (same : Piece.tokens first = Piece.tokens second) :
    Lexeme.numbered (ofPieces first).lexemes = Lexeme.numbered (ofPieces second).lexemes := by
  have numbered (lexemes : List Lexeme) : Lexeme.numbered lexemes =
      (lexemes.map fun lexeme => (lexeme.token, lexeme.followsBrace)).mapIdx fun index marked =>
        ⟨marked.1, ⟨index, index + 1⟩, .empty, marked.2⟩ :=
    List.ext_getElem (by simp [Lexeme.numbered]) fun index _ _ => by simp [Lexeme.numbered]
  rw [numbered, numbered, ofPieces, ofPieces, marked_build, marked_build, same]

end TokenStream

/-! ### What is said -/

/-- What a list of diagnostics says once it is arranged, wherever it is. -/
def Diagnostic.said (diagnostics : List Diagnostic) : List Diagnostic :=
  (arrange diagnostics).map erased

namespace Outcome

variable {Value : Type} {move : Move} {image : Value → Value} {outcome : Outcome Value}

theorem diagnostics_moved (outcome : Outcome Value) :
    (outcome.moved move image).diagnostics =
      outcome.diagnostics.map (Diagnostic.mapSpan (Span.moved move)) := by
  rw [diagnostics, diagnostics, List.map_append, List.map_map, List.map_map]
  cases outcome with
  | done value faults rest => exact congrArg (· ++ []) List.map_map
  | stopped faults fault => exact congrArg (· ++ [_]) List.map_map

theorem start_mapSpan :
    ∀ diagnostic ∈ outcome.diagnostics,
      (diagnostic.mapSpan (Span.moved move)).span.start = move.start diagnostic.span.start :=
  List.forall_mem_append.mpr
    ⟨List.forall_mem_map.mpr fun _ _ => rfl, List.forall_mem_map.mpr fun _ _ => rfl⟩

/-- Diagnostics are told apart if the broken rules are: the parser stops but once. -/
theorem mapSpan_injective {change : Span → Span} {places : Set Span}
    (injective : Set.InjOn change places)
    (inside : ∀ fault ∈ outcome.broken, ∀ span ∈ SemanticFault.spans fault, span ∈ places) :
    ∀ first ∈ outcome.diagnostics, ∀ second ∈ outcome.diagnostics,
      first.mapSpan change = second.mapSpan change → first = second := by
  intro first firstMember second secondMember same
  rcases List.mem_append.mp firstMember with firstMember | firstMember
  · obtain ⟨fault, faultMember, rfl⟩ := List.mem_map.mp firstMember
    rcases List.mem_append.mp secondMember with secondMember | secondMember
    · obtain ⟨other, otherMember, rfl⟩ := List.mem_map.mp secondMember
      exact congrArg Diagnostic.semantic (SemanticFault.mapSpan_injective injective
        (inside fault faultMember) (inside other otherMember) (Diagnostic.semantic.inj same))
    · obtain ⟨other, -, rfl⟩ := List.mem_map.mp secondMember
      cases same
  · obtain ⟨fault, faultMember, rfl⟩ := List.mem_map.mp firstMember
    rcases List.mem_append.mp secondMember with secondMember | secondMember
    · obtain ⟨other, -, rfl⟩ := List.mem_map.mp secondMember
      cases same
    · obtain ⟨other, otherMember, rfl⟩ := List.mem_map.mp secondMember
      rw [Option.mem_toList] at faultMember otherMember
      exact congrArg Diagnostic.grammatical (Option.mem_unique faultMember otherMember)

/-- The same is said after a move that tells the broken rules apart. -/
theorem said_moved (move : Move) (image : Value → Value) {places : Set Span}
    (injective : Set.InjOn (Span.moved move) places)
    (inside : ∀ fault ∈ outcome.broken, ∀ span ∈ SemanticFault.spans fault, span ∈ places) :
    Diagnostic.said (outcome.moved move image).diagnostics =
      Diagnostic.said outcome.diagnostics := by
  have arranged : (Diagnostic.arrange outcome.diagnostics).map
        (Diagnostic.mapSpan (Span.moved move)) =
      Diagnostic.arrange (outcome.diagnostics.map (Diagnostic.mapSpan (Span.moved move))) := by
    refine Diagnostic.map_arrange (fun first firstMember second secondMember => ?_)
      (mapSpan_injective injective inside)
    rw [start_mapSpan first firstMember, start_mapSpan second secondMember, Move.start_le_iff]
  rw [diagnostics_moved, Diagnostic.said, Diagnostic.said, ← arranged, List.map_map]
  exact List.map_congr_left fun diagnostic _ => diagnostic.erased_mapSpan

/-- What is said does not depend on where the tokens stand. -/
theorem said_numbered {length : Nat} {lexemes : List Lexeme}
    (increasing : Increasing length (lexemes.map Lexeme.span)) (atEnd : Surroundings) :
    Diagnostic.said (Parser.file ⟨none, length, atEnd⟩ lexemes).diagnostics =
      Diagnostic.said (numberedOutcome lexemes).diagnostics := by
  have doubled : Set.InjOn (Span.moved .doubled) Set.univ := by
    rintro ⟨start, stop⟩ - ⟨otherStart, otherStop⟩ - same
    obtain ⟨sameStart, sameStop⟩ := Span.mk.inj same
    dsimp only [Move.doubled] at sameStart sameStop
    congr 1
    · omega
    · omega
  rw [← said_moved .doubled (File.moved Move.doubled) doubled fun _ _ _ _ => trivial,
    moved_file increasing atEnd]
  exact said_moved _ _ (Move.layout_injective increasing) (passed_numberedOutcome lexemes)

end Outcome

/-! ### What is accepted -/

namespace Outcome

/-- The tree that is accepted, if one is, without its places. -/
def accepted? : Outcome File → Option File
  | .done file [] _ => some file.placeless
  | _ => none

theorem accepted?_moved (move : Move) (outcome : Outcome File) :
    (outcome.moved move (File.moved move)).accepted? = outcome.accepted? := by
  match outcome with
  | .done file [] rest => exact congrArg some (file.placeless_moved move)
  | .done file (first :: others) rest => rfl
  | .stopped faults fault => rfl

theorem accepted?_numbered {length : Nat} {lexemes : List Lexeme}
    (increasing : Increasing length (lexemes.map Lexeme.span)) (atEnd : Surroundings) :
    (Parser.file ⟨none, length, atEnd⟩ lexemes).accepted? =
      (numberedOutcome lexemes).accepted? := by
  rw [← accepted?_moved .doubled, moved_file increasing atEnd, accepted?_moved]

/-- What is not accepted is rejected with diagnostics. -/
theorem accepted?_eq_none {outcome : Outcome File} {first : Diagnostic} {others : List Diagnostic}
    (found : outcome.diagnostics = first :: others) : outcome.accepted? = none := by
  match outcome with
  | .done file [] rest => cases found
  | .done file (first :: others) rest => rfl
  | .stopped faults fault => rfl

end Outcome

/-! ### Results -/

/-- Two diagnostics are alike if they differ in their places at most. -/
structure Diagnostic.Alike (first second : Diagnostic) : Prop where
  category : first.category = second.category
  message : first.message = second.message
  erased : first.erased = second.erased

/-- Two results of parsing agree: in the tree but for its places and comments, before and after
resolving, or in the diagnostics of the report, one by one. -/
def ParsedFile.Agrees : ParsedFile → ParsedFile → Prop
  | .accepted first, .accepted second =>
    first.placeless = second.placeless ∧ first.resolve.placeless = second.resolve.placeless
  | .rejected first others, .rejected second rest =>
    ∀ (file : String) (source other : List Char), List.Forall₂ Diagnostic.Alike
      (Report.ofDiagnostics file source first others).diagnostics
      (Report.ofDiagnostics file other second rest).diagnostics
  | _, _ => False

theorem Diagnostic.alike_of_said {first second : List Diagnostic} (same : said first = said second) :
    List.Forall₂ Alike (arrange first) (arrange second) := by
  have erased : List.Forall₂ (fun left right => left.erased = right.erased) (arrange first)
      (arrange second) := by
    have equal : List.Forall₂ Eq ((arrange first).map Diagnostic.erased)
      ((arrange second).map Diagnostic.erased) := List.forall₂_eq_eq_eq ▸ same
    rwa [List.forall₂_map_left_iff, List.forall₂_map_right_iff] at equal
  refine erased.imp fun left right same => ⟨?_, ?_, same⟩
  · rw [← left.category_mapSpan, ← right.category_mapSpan]
    exact congrArg Diagnostic.category same
  · rw [← left.message_mapSpan, ← right.message_mapSpan]
    exact congrArg Diagnostic.message same

/-- What stands between the tokens makes no difference to a file but in its places and comments. -/
theorem parseFile_agrees {firstLength secondLength : Nat} {first second : List Piece}
    (firstIncreasing : Increasing firstLength (first.map Piece.span))
    (secondIncreasing : Increasing secondLength (second.map Piece.span))
    (same : Piece.tokens first = Piece.tokens second) :
    (parseFile firstLength (.ofPieces first)).Agrees (parseFile secondLength (.ofPieces second)) := by
  have firstOrder := TokenStream.increasing_ofPieces firstIncreasing
  have secondOrder := TokenStream.increasing_ofPieces secondIncreasing
  have numbered : numberedOutcome (TokenStream.ofPieces first).lexemes =
      numberedOutcome (TokenStream.ofPieces second).lexemes :=
    numberedOutcome_congr (TokenStream.numbered_ofPieces same)
  have firstAccepted := Outcome.accepted?_numbered firstOrder (TokenStream.ofPieces first).atEnd
  have secondAccepted := Outcome.accepted?_numbered secondOrder (TokenStream.ofPieces second).atEnd
  rw [← numbered] at secondAccepted
  have accepted := firstAccepted.trans secondAccepted.symm
  rcases parseFile_eq firstLength (.ofPieces first) with
    ⟨file, rest, done, result⟩ | ⟨found, others, diagnostics, result⟩
  all_goals
    rcases parseFile_eq secondLength (.ofPieces second) with
      ⟨otherFile, otherRest, otherDone, otherResult⟩ |
        ⟨otherFound, otherOthers, otherDiagnostics, otherResult⟩
    all_goals rw [result, otherResult]
  · rw [done, otherDone] at accepted
    have placeless : file.placeless = otherFile.placeless := Option.some.inj accepted
    refine ⟨placeless, ?_⟩
    rw [File.placeless, File.placeless, ← file.resolve_moved, ← otherFile.resolve_moved]
    exact congrArg File.resolve placeless
  · rw [done, Outcome.accepted?_eq_none otherDiagnostics] at accepted
    cases accepted
  · rw [otherDone, Outcome.accepted?_eq_none diagnostics] at accepted
    cases accepted
  · intro name source other
    have firstSaid := Outcome.said_numbered firstOrder (TokenStream.ofPieces first).atEnd
    have secondSaid := Outcome.said_numbered secondOrder (TokenStream.ofPieces second).atEnd
    rw [diagnostics] at firstSaid
    rw [otherDiagnostics, ← numbered] at secondSaid
    rw [Report.diagnostics_ofDiagnostics, Report.diagnostics_ofDiagnostics]
    exact Diagnostic.alike_of_said (firstSaid.trans secondSaid.symm)

/-- The tokens of `message m {};;` without gaps, but for the one that keeps the words apart. -/
def denseMessage : List Piece :=
  [⟨.token (.word "message"), ⟨0, 7⟩⟩, ⟨.token (.word "m"), ⟨8, 9⟩⟩,
    ⟨.token (.symbol .leftBrace), ⟨9, 10⟩⟩, ⟨.token (.symbol .rightBrace), ⟨10, 11⟩⟩,
    ⟨.token (.symbol .semicolon), ⟨11, 12⟩⟩, ⟨.token (.symbol .semicolon), ⟨12, 13⟩⟩]

/-- The same tokens, with comments and line breaks between them. -/
def looseMessage : List Piece :=
  [⟨.trivia (.lineComment " first\n"), ⟨0, 9⟩⟩, ⟨.token (.word "message"), ⟨9, 16⟩⟩,
    ⟨.trivia (.blockComment "m"), ⟨16, 21⟩⟩, ⟨.token (.word "m"), ⟨21, 22⟩⟩,
    ⟨.trivia .newline, ⟨22, 23⟩⟩, ⟨.token (.symbol .leftBrace), ⟨23, 24⟩⟩,
    ⟨.token (.symbol .rightBrace), ⟨25, 26⟩⟩, ⟨.trivia .newline, ⟨26, 27⟩⟩,
    ⟨.token (.symbol .semicolon), ⟨27, 28⟩⟩, ⟨.trivia (.blockComment ""), ⟨28, 32⟩⟩,
    ⟨.token (.symbol .semicolon), ⟨32, 33⟩⟩]

/-- Both are rejected, for the name and for the second semicolon. -/
theorem parseFile_agrees_message :
    Increasing 13 (denseMessage.map Piece.span) ∧ Increasing 40 (looseMessage.map Piece.span) ∧
      Piece.tokens denseMessage = Piece.tokens looseMessage ∧
        (parseFile 13 (.ofPieces denseMessage)).Agrees (parseFile 40 (.ofPieces looseMessage)) := by
  have dense : Increasing 13 (denseMessage.map Piece.span) := ⟨by decide, by decide⟩
  have loose : Increasing 40 (looseMessage.map Piece.span) := ⟨by decide, by decide⟩
  exact ⟨dense, loose, rfl, parseFile_agrees dense loose rfl⟩

end ProtoSchema
