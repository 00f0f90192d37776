/-
This file takes acceptance apart: what a source of an allowed length was scanned
to, what the grammar answered, and what resolving added. Whatever is accepted
was well formed before it was resolved.
-/

import ProtoSchema.Frontend.Parse
import ProtoSchema.Proofs.Canonical.Lines
import ProtoSchema.Proofs.Grammar.Files
import ProtoSchema.Proofs.Resolution.Resolve

namespace ProtoSchema

namespace ParseOptions

variable {options : ParseOptions}

/-- What is answered for a tree of the grammar. -/
def finish (options : ParseOptions) (parsed : File) : File :=
  if options.resolves then parsed.resolve else parsed

theorem erased_finish (parsed : File) :
    (options.finish parsed).erased = options.finish parsed.erased := by
  rw [finish, finish]
  split
  · exact parsed.resolve_erased.symm
  · rfl

theorem render_finish (parsed : File) : (options.finish parsed).render = parsed.render := by
  rw [finish]
  split
  · exact parsed.render_resolve
  · rfl

theorem declaredEdition_finish (parsed : File) :
    (options.finish parsed).declaredEdition = parsed.declaredEdition := by
  rw [finish]
  split <;> rfl

theorem definitions_finish (parsed : File) :
    (options.finish parsed).definitions = parsed.definitions := by
  rw [finish]
  split
  · exact parsed.definitions_resolve
  · rfl

/-! ### Acceptance -/

/-- The grammar goes through the source without a fault. -/
def Answers (options : ParseOptions) (source : String) (pieces : List Piece) (parsed : File) :
    Prop :=
  byteLength source.toList ≤ options.maxLength ∧ scan source.toList = .pieces pieces ∧
    ∃ rest, Parser.file
      ⟨none, byteLength source.toList, (TokenStream.ofPieces pieces).atEnd⟩
      (TokenStream.ofPieces pieces).lexemes = .done parsed [] rest

theorem pieces_eq_ok_iff {characters : List Char} {pieces : List Piece} :
    options.pieces characters = .ok pieces ↔
      byteLength characters ≤ options.maxLength ∧ scan characters = .pieces pieces := by
  unfold ParseOptions.pieces
  split
  · next long => exact ⟨fun ok => (nomatch ok), fun fits => absurd fits.1 (Nat.not_le.mpr long)⟩
  · next short =>
    cases scanned : scan characters with
    | faulty first others =>
      exact ⟨fun ok => (nomatch ok), fun fits => (nomatch fits.2)⟩
    | pieces found =>
      constructor
      · intro ok
        exact ⟨Nat.not_lt.mp short, congrArg Scan.pieces (Except.ok.inj ok)⟩
      · rintro ⟨-, same⟩
        exact congrArg Except.ok (Scan.pieces.inj same)

theorem parseFile_eq_accepted_iff {length : Nat} {stream : TokenStream} {parsed : File} :
    parseFile length stream = .accepted parsed ↔
      ∃ rest, Parser.file ⟨none, length, stream.atEnd⟩ stream.lexemes = .done parsed [] rest := by
  unfold parseFile
  split
  · next file rest done =>
    rw [done]
    constructor
    · intro same
      obtain rfl := ParsedFile.accepted.inj same
      exact ⟨rest, rfl⟩
    · rintro ⟨others, same⟩
      obtain ⟨rfl, -, -⟩ := Outcome.done.inj same
      rfl
  all_goals
    next stopped =>
    rw [stopped]
    exact ⟨fun same => (nomatch same), fun ⟨_, same⟩ => (nomatch same)⟩

section Answer

variable {source : String} {pieces : List Piece}

theorem parse_of_error {report : Report} (found : options.pieces source.toList = .error report) :
    options.parse source = .error report := by
  rw [parse, found]
  rfl

theorem parse_of_accepted {parsed : File} (found : options.pieces source.toList = .ok pieces)
    (accepted : parseFile (byteLength source.toList) (.ofPieces pieces) = .accepted parsed) :
    options.parse source = .ok (options.finish parsed) := by
  simp only [parse, found, bind, Except.bind, accepted]
  rfl

theorem parse_of_rejected {first : Diagnostic} {others : List Diagnostic}
    (found : options.pieces source.toList = .ok pieces)
    (rejected : parseFile (byteLength source.toList) (.ofPieces pieces) = .rejected first others) :
    options.parse source = .error (options.report source.toList first others) := by
  simp only [parse, found, bind, Except.bind, rejected]
  rfl

end Answer

/-- A source is accepted if the grammar goes through it without a fault. -/
theorem parse_eq_ok_iff {source : String} {file : File} :
    options.parse source = .ok file ↔
      ∃ pieces parsed, options.Answers source pieces parsed ∧ file = options.finish parsed := by
  constructor
  · intro ok
    cases found : options.pieces source.toList with
    | error report =>
      rw [parse_of_error found] at ok
      cases ok
    | ok pieces =>
      obtain ⟨fits, scanned⟩ := pieces_eq_ok_iff.mp found
      cases parsed : parseFile (byteLength source.toList) (.ofPieces pieces) with
      | accepted read =>
        rw [parse_of_accepted found parsed] at ok
        obtain ⟨rest, done⟩ := parseFile_eq_accepted_iff.mp parsed
        exact ⟨pieces, read, ⟨fits, scanned, rest, done⟩, (Except.ok.inj ok).symm⟩
      | rejected first others =>
        rw [parse_of_rejected found parsed] at ok
        cases ok
  · rintro ⟨pieces, parsed, ⟨fits, scanned, done⟩, rfl⟩
    exact parse_of_accepted (pieces_eq_ok_iff.mpr ⟨fits, scanned⟩)
      (parseFile_eq_accepted_iff.mpr done)

/-! ### What is accepted -/

/-- What the grammar answers was well formed, and it took each label that it dropped. -/
theorem wellFormed_of_parseFile {length : Nat} {pieces : List Piece} {parsed : File}
    (lexical : Lexical (Piece.tokens pieces))
    (accepted : parseFile length (.ofPieces pieces) = .accepted parsed) :
    parsed.WellFormed ∧ requiredWords parsed.tokens + parsed.droppedLabels ≤
      requiredWords (Piece.tokens pieces) := by
  obtain ⟨rest, done⟩ := parseFile_eq_accepted_iff.mp accepted
  have tokens := TokenStream.tokens_ofPieces pieces
  have ensures : Parser.Ensures none (Piece.tokens pieces) Parser.file fun found _ =>
      found.WellFormed ∧ requiredWords found.tokens + found.droppedLabels ≤
        requiredWords (Piece.tokens pieces) := Parser.ensures_file
  exact (ensures lexical _ _ parsed rest rfl tokens done).2

theorem Answers.wellFormed {source : String} {pieces : List Piece} {parsed : File}
    (answers : options.Answers source pieces parsed) :
    parsed.WellFormed ∧ requiredWords parsed.tokens + parsed.droppedLabels ≤
      requiredWords (Piece.tokens pieces) := by
  obtain ⟨-, scanned, done⟩ := answers
  exact wellFormed_of_parseFile (lexical_of_scan scanned) (parseFile_eq_accepted_iff.mpr done)

/-- What is accepted comes of a well-formed tree. -/
theorem wellFormed_of_parse {source : String} {file : File}
    (accepted : options.parse source = .ok file) :
    ∃ parsed : File, parsed.WellFormed ∧ file = options.finish parsed := by
  obtain ⟨pieces, parsed, answers, rfl⟩ := parse_eq_ok_iff.mp accepted
  exact ⟨parsed, answers.wellFormed.1, rfl⟩

end ParseOptions

/-- Whether a result is a file that passes a check. -/
def fileChecked (result : Except Report File) (check : File → Bool) : Bool :=
  match result with
  | .ok file => check file
  | .error _ => false

/-- A result that passes a check made on files is a file. -/
theorem exists_of_check (result : Except Report File) (check : File → Bool)
    (checked : fileChecked result check = true) :
    ∃ file, result = .ok file ∧ check file = true := by
  cases result with
  | ok file => exact ⟨file, rfl, checked⟩
  | error report => cases checked

/-- Whether an outcome is an answer that passes a check, with the faults found in it. -/
def Outcome.answerChecked {Value : Type} (outcome : Outcome Value)
    (check : Value → List SemanticFault → Bool) : Bool :=
  match outcome with
  | .done value faults _ => check value faults
  | .stopped _ _ => false

/-- An outcome that passes a check made on what is answered and on the faults with it is done. -/
theorem Outcome.exists_of_answer {Value : Type} (outcome : Outcome Value)
    (check : Value → List SemanticFault → Bool) (checked : outcome.answerChecked check = true) :
    ∃ value faults rest, outcome = .done value faults rest ∧ check value faults = true := by
  cases outcome with
  | done value faults rest => exact ⟨value, faults, rest, rfl, checked⟩
  | stopped faults fault => cases checked

end ProtoSchema
