/-
This file says what holds of every enum in an accepted file, at whatever depth it
is declared: the rule for enums, that it is spelled by tokens of the source that
stand together, and that the last statement about aliases among them says whether
there may be any. The check of an enum finds nothing just in case the rule is kept.
-/

import ProtoSchema.Proofs.Comment.Files
import ProtoSchema.Proofs.Derivation.Enums
import ProtoSchema.Proofs.Frontend.Spans
import ProtoSchema.Proofs.Layout.Paths
import ProtoSchema.Proofs.Resolution.Places
import ProtoSchema.Proofs.Validation.Numbers

namespace ProtoSchema

/-! ### Well-formed enums -/

namespace File

variable {file : File} {around : List Message}

theorem WellFormed.enumAt (wellFormed : file.WellFormed) (place : file.Place around) :
    ∀ enumeration ∈ file.enumsAt around, enumeration.WellFormed := by
  cases place with
  | top => exact wellFormed.members.enums
  | @inside parent _ outer parentMember =>
    obtain ⟨depth, path, parentWellFormed⟩ := wellFormed.messageAt outer parent parentMember
    cases depth with
    | zero => cases parentWellFormed
    | succ depth => exact parentWellFormed.2.1.enums

end File

/-- What holds of an enum in a file that is accepted: it keeps the rule, its numbers fit, and the
statements that set its options stand in the order of the source. -/
structure Enumeration.Accepted (enumeration : Enumeration) : Prop where
  legal : enumeration.Legal
  numbers : ∀ value ∈ enumeration.values, value.number.FitsInt32
  optionsInOrder : enumeration.options.Pairwise fun first second =>
    first.span.stop ≤ second.span.start

theorem Enumeration.WellFormed.accepted {source : List Char} {enumeration : Enumeration}
    (wellFormed : enumeration.WellFormed) (placed : enumeration.outline.WellPlaced source) :
    enumeration.Accepted where
  legal := Enumeration.faults_eq_nil_iff_legal.mp wellFormed.sound
  numbers := fun value member =>
    (Parser.enumNumberFaults_eq_nil_iff _).mp (wellFormed.members.values value member).number
  optionsInOrder := Enumeration.optionsInOrder placed

/-! ### Enums that are spelled -/

/-- Tokens that stand together in the stream spell the enum. -/
def Enumeration.SpelledIn (stream : List Lexeme) (enumeration : Enumeration) : Prop :=
  ∃ taken, taken <:+: stream ∧ enumeration.SpelledBy taken

/-- The enums of a message, and those of the messages in it, are spelled in the stream. -/
inductive Message.SpelledIn (stream : List Lexeme) : Message → Prop where
  | message {message : Message}
      (enums : ∀ enumeration ∈ message.enums, enumeration.SpelledIn stream)
      (messages : ∀ inner ∈ message.messages, SpelledIn stream inner) : SpelledIn stream message

/-- The enums of a file, and those of its messages, are spelled in the stream. -/
structure File.SpelledIn (stream : List Lexeme) (file : File) : Prop where
  enums : ∀ enumeration ∈ file.enums, enumeration.SpelledIn stream
  messages : ∀ message ∈ file.messages, message.SpelledIn stream

namespace File.SpelledIn

variable {stream : List Lexeme} {file : File} {around : List Message}

theorem messageAt (spelled : file.SpelledIn stream) (place : file.Place around) :
    ∀ message ∈ file.messagesAt around, message.SpelledIn stream := by
  induction place with
  | top => exact spelled.messages
  | @inside parent _ _ parentMember inductionHypothesis =>
    obtain ⟨-, messages⟩ := inductionHypothesis parent parentMember
    exact messages

theorem enumAt (spelled : file.SpelledIn stream) (place : file.Place around) :
    ∀ enumeration ∈ file.enumsAt around, enumeration.SpelledIn stream := by
  cases place with
  | top => exact spelled.enums
  | @inside parent _ outer parentMember =>
    obtain ⟨enums, -⟩ := spelled.messageAt outer parent parentMember
    exact enums

end File.SpelledIn

namespace Parser

variable {atEnd : Surroundings} {stream lexemes : List Lexeme}

/-- What is built from a part that was read holds, and the tokens left are still of the stream. -/
theorem Notes.build {Value State : Type} {part : Parser Value}
    {goal : Value → List Lexeme → Prop} {add : Value → State} {holds : State → Prop}
    (within : lexemes <:+ stream)
    (notes : Notes atEnd lexemes part goal)
    (kept : ∀ value rest, goal value rest → holds (add value)) :
    Notes atEnd lexemes (do return add (← part)) fun state rest => rest <:+ stream ∧ holds state :=
  notes.bind fun value rest left met => .pure ⟨left.trans within, kept value rest met⟩

theorem spells_enumeration (within : lexemes <:+ stream) :
    Notes atEnd lexemes enumeration fun found _ => found.SpelledIn stream := by
  intro setting found rest _ done
  obtain ⟨before, rfl⟩ := within
  obtain ⟨taken, rfl, spelled⟩ := derives_enumeration setting found [] rest done
  refine ⟨List.suffix_append _ _, taken, ⟨before, rest, ?_⟩, spelled⟩
  rw [List.append_assoc]

/-- The messages that a parser answers have enums that are spelled. -/
def SpellsNested (atEnd : Surroundings) (stream : List Lexeme)
    (nested : MessagePath → Parser Message) : Prop :=
  ∀ (path : MessagePath) (lexemes : List Lexeme), lexemes <:+ stream →
    Notes atEnd lexemes (nested path) fun found _ => found.SpelledIn stream

/-- Only enums and messages add enums to a message. -/
theorem spelling_messageMember {nested : MessagePath → Parser Message} {path : MessagePath}
    (nestedSpells : SpellsNested atEnd stream nested) :
    Noting atEnd (messageMember nested path) fun message lexemes =>
      lexemes <:+ stream ∧ message.SpelledIn stream where
  later := fun left known => ⟨left.trans known.1, known.2⟩
  member := by
    rintro message next parser lexemes found ⟨within, ⟨enums, messages⟩⟩
    unfold messageMember at found
    split at found
    · split_ifs at found
      all_goals obtain rfl := Option.some.inj found
      · exact .build within (nestedSpells _ _ within) fun inner _ spelled =>
          .message enums (forall_mem_concat messages spelled)
      · exact .build within (spells_enumeration within) fun enumeration _ spelled =>
          .message (forall_mem_concat enums spelled) messages
      · exact .build within notes_oneof fun _ _ _ => .message enums messages
      · exact .build within notes_reserved fun _ _ _ => .message enums messages
      · exact .build within notes_extensionRanges fun _ _ _ => .message enums messages
      · exact .build within notes_optionStatement fun _ _ _ => .message enums messages
      · exact .build within notes_extension fun _ _ _ => .message enums messages
      · exact .build within notes_field fun _ _ _ => .message enums messages
    · obtain rfl := Option.some.inj found
      exact .build within notes_field fun _ _ _ => .message enums messages
    · cases found

theorem spells_message (depth : Nat) : SpellsNested atEnd stream (message depth) := by
  induction depth with
  | zero => exact fun path lexemes within => .expect fun _ _ _ => .stop
  | succ depth inductionHypothesis =>
    rintro path lexemes within
    refine .leadingComments (.expect fun first tail split => ?_)
    subst split
    refine .takes (.of_carries carries_name) fun name rest leftName => ?_
    refine .openBrace fun opening inside split => ?_
    subst split
    have start : inside <:+ stream :=
      (((List.suffix_cons _ _).trans leftName).trans (List.suffix_cons _ _)).trans within
    refine (notes_body (spelling_messageMember inductionHypothesis)
      ⟨start, .message (by simp) (by simp)⟩).bind ?_
    rintro ⟨read, stop⟩ rest - ⟨-, enums, messages⟩
    exact .stays stays_report fun _ => .pure (.message enums messages)

/-- Only enums and messages add enums to a file. -/
theorem spelling_fileMember :
    Noting atEnd fileMember fun file lexemes => lexemes <:+ stream ∧ file.SpelledIn stream where
  later := fun left known => ⟨left.trans known.1, known.2⟩
  member := by
    rintro file next parser lexemes found ⟨within, enums, messages⟩
    unfold fileMember at found
    split at found
    · split_ifs at found
      all_goals obtain rfl := Option.some.inj found
      · exact .build within notes_import fun _ _ _ => ⟨enums, messages⟩
      · refine notes_package.bind fun package rest left _ => ?_
        rw [addPackage]
        split
        · exact .faulty
        · exact .pure ⟨left.trans within, enums, messages⟩
      · exact .build within notes_optionStatement fun _ _ _ => ⟨enums, messages⟩
      · exact .build within (spells_message _ _ _ within) fun message _ spelled =>
          ⟨enums, forall_mem_concat messages spelled⟩
      · exact .build within (spells_enumeration within) fun enumeration _ spelled =>
          ⟨forall_mem_concat enums spelled, messages⟩
      · exact .build within notes_service fun _ _ _ => ⟨enums, messages⟩
      · exact .build within notes_extension fun _ _ _ => ⟨enums, messages⟩
    · cases found

/-- Every enum of a file that the grammar answers is spelled by tokens of the source. -/
theorem spells_file : Notes atEnd lexemes file fun file _ => file.SpelledIn lexemes := by
  refine .takes (.of_carries carries_declaredEdition) fun declared rest left => Notes.inEdition ?_
  have start : ({ File.empty with declaredEdition := declared } : File).SpelledIn lexemes :=
    ⟨by simp [File.empty], by simp [File.empty]⟩
  refine (notes_topLevel spelling_fileMember ⟨left, start⟩).bind fun file rest _ known => ?_
  exact .stays stays_report fun _ => .pure known.2

end Parser

namespace ParseOptions

/-- The enums of an accepted file keep the rule and are spelled by tokens of its source. -/
theorem accepted_enumAt {options : ParseOptions} {source : String} {file : File}
    (accepted : options.parse source = .ok file) :
    ∃ pieces, options.pieces source.toList = .ok pieces ∧
      ∀ around, file.Place around → ∀ enumeration ∈ file.enumsAt around,
        enumeration.Accepted ∧ enumeration.SpelledIn (TokenStream.ofPieces pieces).lexemes := by
  obtain ⟨pieces, parsed, answers, rfl⟩ := parse_eq_ok_iff.mp accepted
  have ⟨fits, scanned, rest, done⟩ := answers
  have spelled : parsed.SpelledIn (TokenStream.ofPieces pieces).lexemes :=
    (Parser.spells_file _ _ _ rfl done).2
  have each {around : List Message} (place : parsed.Place around) :
      ∀ enumeration ∈ parsed.enumsAt around,
        enumeration.Accepted ∧ enumeration.SpelledIn (TokenStream.ofPieces pieces).lexemes := by
    intro enumeration member
    have wellFormed := answers.wellFormed.1.enumAt place enumeration member
    exact ⟨wellFormed.accepted (File.wellPlaced_enumAt answers.laid place enumeration member),
      spelled.enumAt place enumeration member⟩
  refine ⟨pieces, pieces_eq_ok_iff.mpr ⟨fits, scanned⟩, fun around place => ?_⟩
  rw [finish] at place ⊢
  split at place
  · next resolves =>
    obtain ⟨original, originalPlace, rfl⟩ := place.exists_of_resolve
    rw [if_pos resolves, File.enumsAt_resolve]
    exact each originalPlace
  · next unresolved =>
    rw [if_neg unresolved]
    exact each place

end ParseOptions

/-- The check of an enum finds nothing just in case the rule for enums is kept. Whatever enum the
grammar answers, with faults or without, is spelled by the tokens that it takes: its members are
those between the braces, and it may have aliases just in case the last of the statements about
them there says so. Every enum in an accepted file is spelled so by tokens of the source that stand
together, and keeps the rule, with numbers that fit. -/
theorem enum_checks_exact :
    (∀ enumeration : Enumeration, enumeration.faults = [] ↔ enumeration.Legal) ∧
    (∀ (setting : Setting) (lexemes : List Lexeme) (enumeration : Enumeration)
      (faults : List SemanticFault) (rest : List Lexeme),
      Parser.enumeration setting lexemes = .done enumeration faults rest →
        ∃ taken, lexemes = taken ++ rest ∧ enumeration.SpelledBy taken) ∧
    ∀ (options : ParseOptions) (source : String) (file : File), options.parse source = .ok file →
      ∃ pieces, options.pieces source.toList = .ok pieces ∧
        ∀ around, file.Place around → ∀ enumeration ∈ file.enumsAt around,
          enumeration.Accepted ∧ enumeration.SpelledIn (TokenStream.ofPieces pieces).lexemes := by
  refine ⟨fun enumeration => Enumeration.faults_eq_nil_iff_legal, ?_, ?_⟩
  · intro setting lexemes enumeration faults rest done
    exact Parser.derives_enumeration setting enumeration faults rest done
  · intro options source file accepted
    exact ParseOptions.accepted_enumAt accepted

/-- The tokens of an enum in which two values have one number. -/
def repeatedZero : List Lexeme :=
  match scan
    "enum E { option allow_alias = true; A = 0; B = -0; option allow_alias = 0; }".toList with
  | .pieces pieces => (TokenStream.ofPieces pieces).lexemes
  | .faulty _ _ => []

/-- In the one enum a number is taken twice before a statement allows it, and after one that does
not. In the other the last statement takes back what the first one allows, so that the check of the
enum finds a fault. -/
theorem enum_checks_exact_sample :
    (∃ file pieces,
      parse "enum E { option allow_alias = 0; A = 0; B = -0; option allow_alias = true; }" =
        .ok file ∧
      ∃ enumeration ∈ file.enumsAt [], enumeration.values.map (·.number.value) = [0, 0] ∧
        enumeration.Accepted ∧
        enumeration.SpelledIn (TokenStream.ofPieces pieces).lexemes) ∧
    ∃ enumeration faults rest taken,
      Parser.enumeration ⟨none, 0, ⟨none, [], none⟩⟩ repeatedZero = .done enumeration faults rest ∧
        faults = enumeration.faults ∧ faults ≠ [] ∧ enumeration.allowsAliases = false ∧
        repeatedZero = taken ++ rest ∧ enumeration.SpelledBy taken := by
  refine ⟨?_, ?_⟩
  · obtain ⟨file, accepted, checked⟩ := exists_of_check
      (parse "enum E { option allow_alias = 0; A = 0; B = -0; option allow_alias = true; }")
      (fun file => file.enums.map (fun enumeration => enumeration.values.map (·.number.value)) =
        [[0, 0]]) (by decide +kernel)
    rw [decide_eq_true_eq, List.map_eq_singleton_iff] at checked
    obtain ⟨enumeration, enums, numbers⟩ := checked
    have member : enumeration ∈ file.enumsAt [] := by
      rw [File.enumsAt, enums]
      exact List.mem_singleton_self _
    obtain ⟨pieces, -, each⟩ := enum_checks_exact.2.2 {} _ file accepted
    exact ⟨file, pieces, accepted, enumeration, member, numbers, each [] .top enumeration member⟩
  · obtain ⟨enumeration, faults, rest, run, checked⟩ := Outcome.exists_of_answer
      (Parser.enumeration ⟨none, 0, ⟨none, [], none⟩⟩ repeatedZero)
      (fun enumeration faults =>
        faults = enumeration.faults ∧ faults ≠ [] ∧ enumeration.allowsAliases = false)
      (by decide +kernel)
    obtain ⟨same, some, forbidden⟩ := of_decide_eq_true checked
    obtain ⟨taken, split, spelled⟩ := enum_checks_exact.2.1 _ _ enumeration faults rest run
    exact ⟨enumeration, faults, rest, taken, run, same, some, forbidden, split, spelled⟩

end ProtoSchema
