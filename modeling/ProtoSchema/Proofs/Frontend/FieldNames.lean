/-
This file shows what the names of fields may be. No word is reserved: every field of
an accepted file may get any name that is not taken in its message, and every field of
an extension block any name at all. And the words are the identifiers, so the names
that may be reserved are those that may be given to fields.
-/

import ProtoSchema.Proofs.Canonical.Phrases
import ProtoSchema.Proofs.Frontend.Accepted
import ProtoSchema.Proofs.Renaming.Files
import ProtoSchema.Proofs.Tracking.Phrases

namespace ProtoSchema

/-- The tokens of a file with the word in the place of the name of a field are those of a file, which
differs in the name of that field alone. -/
def Renameable (length : Nat) (pieces : List Piece) (file : File) (field : Field) (word : String) :
    Prop :=
  ∃ front back renamed,
    pieces = front ++ ⟨.token (.word field.name.text), field.name.span⟩ :: back ∧
      parseFile length (.ofPieces (front ++ ⟨.token (.word word), field.name.span⟩ :: back)) =
        .accepted renamed ∧
      file.Renames field word renamed

/-- A file in which a field is renamed is parsed from tokens in which its name is another word. -/
theorem Renameable.of_renames {length : Nat} {pieces : List Piece} {file renamed : File}
    {field : Field} {word : String}
    (accepted : parseFile length (.ofPieces pieces) = .accepted file)
    (renames : file.Renames field word renamed) : Renameable length pieces file field word := by
  obtain ⟨left, done⟩ := ParseOptions.parseFile_eq_accepted_iff.mp accepted
  obtain ⟨otherInput, swaps, otherDone⟩ := Parser.file_swaps done renames
  obtain ⟨taken, ⟨token, span, before, follows⟩, rest, isWord, isHere, split, rfl⟩ :=
    swaps.exists_split
  obtain rfl : span = field.name.span := isHere
  obtain ⟨front, back, rfl, again⟩ := TokenStream.exists_of_word split isWord
  refine ⟨front, back, renamed, rfl, ?_, renames⟩
  rw [ParseOptions.parseFile_eq_accepted_iff, TokenStream.ofPieces, again word]
  exact ⟨left, otherDone⟩

/-- Every word may stand in the place of the name of a field, directly in a message or in one of its
oneofs, unless it is the name of another field or of a oneof of that message or is reserved there. In
the place of the name of a field in an extension block, every word may stand. -/
theorem field_names_unreserved {length : Nat} {pieces : List Piece} {file : File}
    (lexical : Lexical (Piece.tokens pieces))
    (accepted : parseFile length (.ofPieces pieces) = .accepted file) (field : Field)
    (word : String) :
    (∀ around message, file.Place around → message ∈ file.messagesAt around →
      field ∈ message.allFields → message.Free field word →
        Renameable length pieces file field word) ∧
      ∀ around extension, file.Place around → extension ∈ file.extensionsAt around →
        field ∈ extension.fields → Renameable length pieces file field word := by
  have wellFormed := (ParseOptions.wellFormed_of_parseFile lexical accepted).1
  constructor
  · intro around message place member fieldMember free
    obtain ⟨renamed, renames⟩ := wellFormed.exists_renames place member fieldMember free
    exact .of_renames accepted renames
  · intro around extension place member fieldMember
    obtain ⟨renamed, renames⟩ : ∃ renamed, file.Renames field word renamed :=
      wellFormed.exists_renames_extension place member fieldMember
    exact .of_renames accepted renames

/-- A member of a oneof may be called `message`, and a field of an extension block as another one. -/
theorem field_names_unreserved_sample : ∃ pieces file,
    scan "message M{oneof o{int32 a=1;}reserved 5;}extend M{int32 c=2;int32 d=3;}".toList =
        .pieces pieces ∧
      parseFile 71 (.ofPieces pieces) = .accepted file ∧
      (∃ field, field.name.text = "a" ∧ Renameable 71 pieces file field "message") ∧
      ∃ field, field.name.text = "c" ∧ Renameable 71 pieces file field "d" := by
  obtain ⟨file, read, checked⟩ := exists_of_check
    (({ resolves := false } : ParseOptions).parse
      "message M{oneof o{int32 a=1;}reserved 5;}extend M{int32 c=2;int32 d=3;}")
    (fun file =>
      (file.messages.map fun message => (message.allFields.map (·.name.text),
          message.oneofs.map (·.name.text), (Reserved.namesOf message.reserved).map (·.text)),
        file.extensions.map fun extension => extension.fields.map (·.name.text)) =
      ([(["a"], ["o"], [])], [["c", "d"]]))
    (by decide +kernel)
  rw [decide_eq_true_eq, Prod.mk.injEq, List.map_eq_singleton_iff, List.map_eq_singleton_iff]
    at checked
  obtain ⟨⟨message, messages, names⟩, extension, extensions, extended⟩ := checked
  simp only [Prod.mk.injEq] at names
  obtain ⟨fields, oneofs, reserved⟩ := names
  obtain ⟨pieces, parsed, ⟨-, scanned, behind, done⟩, same⟩ := ParseOptions.parse_eq_ok_iff.mp read
  obtain rfl : file = parsed := same
  have accepted : parseFile 71 (.ofPieces pieces) = .accepted file :=
    ParseOptions.parseFile_eq_accepted_iff.mpr ⟨behind, done⟩
  refine ⟨pieces, file, scanned, accepted, ?_, ?_⟩
  · obtain ⟨field, isField, name⟩ := List.map_eq_singleton_iff.mp fields
    refine ⟨field, name, (field_names_unreserved (lexical_of_scan scanned) accepted field
      "message").1 [] message .top ?_ ?_ ⟨?_, ?_, ?_⟩⟩
    · rw [File.messagesAt, messages]
      exact List.mem_singleton_self _
    · rw [isField]
      exact List.mem_singleton_self _
    · rw [isField]
      exact fun other member different => absurd (List.mem_singleton.mp member) different
    · have apart : ∀ text ∈ message.oneofs.map (·.name.text), text ≠ "message" := by
        rw [oneofs]
        decide
      exact fun _ member => apart _ (List.mem_map_of_mem member)
    · rw [List.map_eq_nil_iff.mp reserved]
      exact fun _ member => absurd member List.not_mem_nil
  · obtain ⟨field, others, isField, name, -⟩ := List.map_eq_cons_iff.mp extended
    refine ⟨field, name, (field_names_unreserved (lexical_of_scan scanned) accepted field
      "d").2 [] extension .top ?_ ?_⟩
    · rw [File.extensionsAt, extensions]
      exact List.mem_singleton_self _
    · rw [isField]
      exact List.mem_cons_self

/-! ### Names that are reserved -/

/-- The only fault of a name in quotes is that it is no identifier. -/
theorem Parser.faults_reservedName {setting : Setting} {lexemes rest : List Lexeme} {name : Name}
    {faults : List SemanticFault} (done : reservedName setting lexemes = .done name faults rest) :
    faults = [] ↔ isIdentifier name.text = true := by
  obtain ⟨found, earlier, middle, later, isText, reported, rfl⟩ := exists_of_bind done
  have noFault := Quiet.text setting lexemes
  rw [isText] at noFault
  obtain rfl : earlier = [] := noFault
  obtain ⟨rfl, rfl, rfl⟩ := Outcome.done.inj reported
  by_cases identifier : isIdentifier found.text = true <;> simp [identifier]

/-- A word alone in a source is scanned as itself just in case it is an identifier. -/
theorem isIdentifier_iff_scan (word : String) :
    isIdentifier word = true ↔
      scan word.toList = .pieces [⟨.token (.word word), ⟨0, byteLength word.toList⟩⟩] := by
  constructor
  · intro identifier
    have ends : EndsWord ([] : List Char).head? := by rintro _ ⟨⟩
    have all := Scanned.all_word identifier 0 ends
    rw [List.append_nil, Nat.zero_add, Scanned.all] at all
    exact scan_eq_pieces_iff.mpr all
  · intro scanned
    exact lexical_of_scan scanned (.word word) (List.mem_singleton_self _)

/-- The identifiers are the words of the scanner: each is scanned as one token, which spans all of
it, and no other text is. So a name in quotes, which is always read, is reserved without a fault
just in case its text could stand where a field is named. -/
theorem identifiers_exact (word : String) :
    (isIdentifier word = true ↔
      scan word.toList = .pieces [⟨.token (.word word), ⟨0, byteLength word.toList⟩⟩]) ∧
    (∀ setting lexemes rest, lexemes.map (·.token) = textToken word :: rest →
      Parser.EndsString rest → ∃ name faults left,
        Parser.reservedName setting lexemes = .done name faults left ∧
          name.text = word ∧ left.map (·.token) = rest) ∧
    ∀ setting lexemes name faults left,
      Parser.reservedName setting lexemes = .done name faults left → name.text = word →
      (faults = [] ↔ ∃ pieces, scan word.toList = .pieces pieces ∧ ∀ inField,
        Parser.name inField (TokenStream.ofPieces pieces).lexemes =
          .done ⟨word, ⟨0, byteLength word.toList⟩⟩ [] []) := by
  refine ⟨isIdentifier_iff_scan word, ?_, ?_⟩
  · intro setting lexemes rest tokens ends
    obtain ⟨name, left, isText, same, isLeft⟩ :=
      Parser.reads_text word ends setting lexemes rfl tokens
    have named : Parser.reservedName setting lexemes = .done name
        (if isIdentifier name.text then [] else [⟨.badReservedName, name.span⟩]) left := by
      rw [Parser.reservedName, Parser.bind_eq, isText]
      simp [Parser.bind_eq, Parser.report, Parser.pure_eq, Outcome.after]
    exact ⟨name, _, left, named, same, isLeft⟩
  · rintro setting lexemes name faults left done rfl
    rw [Parser.faults_reservedName done]
    constructor
    · intro identifier
      exact ⟨_, (isIdentifier_iff_scan _).mp identifier, fun _ => rfl⟩
    · rintro ⟨pieces, scanned, named⟩
      obtain ⟨lexeme, text, lexemes, isWord, same⟩ := Parser.exists_of_name (named setting)
      obtain ⟨rfl, -⟩ := Name.mk.inj same
      have member : .word name.text ∈ Piece.tokens pieces := by
        rw [← TokenStream.tokens_ofPieces, lexemes, List.map_cons, isWord]
        exact List.mem_cons_self
      exact lexical_of_scan scanned _ member

/-- A name in quotes may be a word of the grammar, but not one that starts with a digit. -/
theorem identifiers_exact_sample :
    (∃ name, Parser.reservedName ⟨none, 5, ⟨none, [], none⟩⟩
        (TokenStream.ofPieces [⟨.token (textToken "max"), ⟨0, 5⟩⟩]).lexemes = .done name [] [] ∧
          name.text = "max") ∧
      ∃ name faults, Parser.reservedName ⟨none, 5, ⟨none, [], none⟩⟩
        (TokenStream.ofPieces [⟨.token (textToken "1st"), ⟨0, 5⟩⟩]).lexemes =
          .done name faults [] ∧ faults ≠ [] := by
  constructor
  · obtain ⟨words, reads, agrees⟩ := identifiers_exact "max"
    obtain ⟨name, faults, left, done, same, none⟩ :=
      reads ⟨none, 5, ⟨none, [], none⟩⟩
        (TokenStream.ofPieces [⟨.token (textToken "max"), ⟨0, 5⟩⟩]).lexemes [] rfl
        (by rintro _ ⟨⟩)
    obtain rfl := List.map_eq_nil_iff.mp none
    have scanned := words.mp (by decide)
    obtain rfl := (agrees _ _ name faults _ done same).mpr ⟨_, scanned, fun _ => rfl⟩
    exact ⟨name, done, same⟩
  · obtain ⟨-, reads, agrees⟩ := identifiers_exact "1st"
    obtain ⟨name, faults, left, done, same, none⟩ :=
      reads ⟨none, 5, ⟨none, [], none⟩⟩
        (TokenStream.ofPieces [⟨.token (textToken "1st"), ⟨0, 5⟩⟩]).lexemes [] rfl
        (by rintro _ ⟨⟩)
    obtain rfl := List.map_eq_nil_iff.mp none
    refine ⟨name, faults, done, fun sound => ?_⟩
    obtain ⟨pieces, scanned, -⟩ := (agrees _ _ name faults _ done same).mp sound
    have faulty : scan "1st".toList = .faulty ⟨.numberRunsIntoIdentifier, ⟨0, 3⟩⟩ [] := by
      decide +kernel
    cases scanned.symm.trans faulty

end ProtoSchema
