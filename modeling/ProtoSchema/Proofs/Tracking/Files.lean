/-
This file keeps track of oneofs, extension blocks and messages, and of a whole
file from its first token to its end. Messages are followed down to the depth that
they may nest to, where the word that starts one more is read and then stopped at.
What is declared in a file has been checked by its end, and the checks across
declarations point at places that lie before the end.
-/

import ProtoSchema.Grammar.Files
import ProtoSchema.Proofs.Tracking.Declarations

namespace ProtoSchema

namespace Parser

variable {limit : Nat} {lexemes : List Lexeme}

/-! ### Oneofs -/

theorem tracksMember_oneof {index : Nat} : TracksMember limit (oneofMember index) Oneof.spans := by
  intro oneof next parser lexemes found before
  have known := before
  rw [Oneof.spans, passed_cons] at known
  obtain ⟨name, fields⟩ := known
  unfold oneofMember at found
  split_ifs at found with isOption isField
  all_goals obtain rfl := Option.some.inj found
  · exact tracks_optionStatement.bind fun _ rest later _ => Tracks.pure rfl (before.later later)
  · refine tracks_field.bind fun field rest later passed => Tracks.pure rfl ?_
    rw [Oneof.spans, passed_cons, List.flatMap_append, passed_append]
    exact ⟨name.later later, fields.later later, passed⟩

theorem tracks_oneof {index : Nat} : Tracks limit lexemes (oneof index) (fun _ => 1)
    fun found after => Passed after found.spans := by
  refine Tracks.leadingComments fun _ => Tracks.expect fun start rest _ _ => ?_
  refine tracks_name.bind fun name rest _ reached => ?_
  refine tracks_openBrace.bind fun trailing rest later _ => ?_
  refine (tracks_body tracksMember_oneof ?_).bind fun ⟨read, stop⟩ rest _ passed => ?_
  · exact List.forall_mem_singleton.mpr (reached.before.later later)
  · exact Tracks.report (Oneof.passedFaults passed) (Tracks.pure rfl passed)

/-! ### Extension blocks -/

theorem tracksMember_extension : TracksMember limit extensionMember Extension.spans := by
  intro extension next parser lexemes found before
  have known := before
  rw [Extension.spans, passed_cons] at known
  obtain ⟨extendee, fields⟩ := known
  unfold extensionMember at found
  split_ifs at found with isOption isField
  all_goals obtain rfl := Option.some.inj found
  · exact tracks_optionStatement.bind fun _ rest later _ => Tracks.pure rfl (before.later later)
  · refine tracks_field.bind fun field rest later passed => Tracks.pure rfl ?_
    rw [Extension.spans, passed_cons, List.flatMap_append, passed_append]
    exact ⟨extendee.later later, fields.later later, passed⟩

theorem tracks_extension {parent : Option MessagePath} :
    Tracks limit lexemes (extension parent) (fun _ => 1) fun _ _ => True := by
  refine Tracks.leadingComments fun _ => Tracks.expect fun start rest _ _ => ?_
  refine tracks_typeName.bind fun extendee rest _ reached => ?_
  refine tracks_openBrace.bind fun trailing rest later _ => ?_
  refine (tracks_body tracksMember_extension ?_).bind fun ⟨read, stop⟩ rest _ passed => ?_
  · exact List.forall_mem_singleton.mpr (reached.before.later later)
  · exact Tracks.edition fun declared =>
      Tracks.report (Extension.passedFaults passed) (Tracks.pure rfl trivial)

/-! ### Messages -/

/-- Nested messages take a token and hand on their places, wherever they stand. -/
def TracksMessages (limit : Nat) (nested : MessagePath → Parser Message) : Prop :=
  ∀ path lexemes, Tracks limit lexemes (nested path) (fun _ => 1)
    fun found after => Passed after found.spans

theorem tracksMember_message {nested : MessagePath → Parser Message} {path : MessagePath}
    (inner : TracksMessages limit nested) :
    TracksMember limit (messageMember nested path) Message.spans := by
  intro message next parser lexemes found before
  have known {after : Nat} (later : position limit lexemes ≤ after) : message.Passed after :=
    Message.passed_spans.mp (before.later later)
  have field : Tracks limit lexemes (Parser.field .message >>= fun field =>
      pure { message with fields := message.fields ++ field.toList }) (fun _ => 1)
      fun found after => Passed after found.spans := by
    refine tracks_field.bind fun field rest later passed =>
      Tracks.pure rfl (Message.passed_spans.mpr ?_)
    exact { known later with
      fields := by
        rw [List.flatMap_append, passed_append]
        exact ⟨(known later).fields, passed⟩ }
  unfold messageMember at found
  split at found
  · split_ifs at found with isMessage isEnum isOneof isReserved isExtensions isOption isExtend
    all_goals obtain rfl := Option.some.inj found
    · refine (inner _ _).bind fun _ rest later passed =>
        Tracks.pure rfl (Message.passed_spans.mpr ?_)
      exact { known later with messages := passed_concat.mpr ⟨(known later).messages, passed⟩ }
    · refine tracks_enumeration.bind fun _ rest later passed =>
        Tracks.pure rfl (Message.passed_spans.mpr ?_)
      exact { known later with enums := passed_concat.mpr ⟨(known later).enums, passed⟩ }
    · refine tracks_oneof.bind fun _ rest later passed =>
        Tracks.pure rfl (Message.passed_spans.mpr ?_)
      exact { known later with oneofs := passed_concat.mpr ⟨(known later).oneofs, passed⟩ }
    · refine tracks_reserved.bind fun _ rest later passed =>
        Tracks.pure rfl (Message.passed_spans.mpr ?_)
      exact { known later with reserved := passed_concat.mpr ⟨(known later).reserved, passed⟩ }
    · refine tracks_extensionRanges.bind fun _ rest later passed =>
        Tracks.pure rfl (Message.passed_spans.mpr ?_)
      exact { known later with
        extensionRanges := passed_concat.mpr ⟨(known later).extensionRanges, passed⟩ }
    · exact tracks_optionStatement.bind fun _ rest later _ =>
        Tracks.pure rfl (Message.passed_spans.mpr { known later with })
    · exact tracks_extension.bind fun _ rest later _ =>
        Tracks.pure rfl (Message.passed_spans.mpr { known later with })
    · exact field
  · obtain rfl := Option.some.inj found
    exact field
  · cases found

theorem tracks_messageRest {nested : MessagePath → Parser Message} {path : MessagePath}
    {comments : Comments} {start : Span} (inner : TracksMessages limit nested) :
    Tracks limit lexemes (messageRest nested path comments start) (fun _ => 1)
      fun found after => Passed after found.spans := by
  refine tracks_name.bind fun name rest _ reached => ?_
  refine tracks_openBrace.bind fun trailing rest later _ => ?_
  refine (tracks_body (tracksMember_message inner) ?_).bind fun ⟨read, stop⟩ rest _ passed => ?_
  · rw [Message.spans_eq]
    exact List.forall_mem_singleton.mpr (reached.before.later later)
  · have whole : ({ read with span := start.through stop } : Message).Passed (position limit rest) :=
      { Message.passed_spans.mp passed with }
    exact Tracks.report (Message.passedFaults whole)
      (Tracks.pure rfl (Message.passed_spans.mpr whole))

theorem tracks_message (depth : Nat) : TracksMessages limit (message depth) := by
  induction depth with
  | zero =>
    refine fun path lexemes => Tracks.bind_quiet Quiet.expect Tracks.expect_last fun span => ?_
    exact .inr ⟨.nestedTooDeeply .message, GrammarCause.noConfusion, rfl⟩
  | succ depth inductionHypothesis =>
    refine fun path lexemes => Tracks.leadingComments fun comments => ?_
    refine Tracks.expect fun start rest _ _ => ?_
    exact (tracks_messageRest inductionHypothesis).fewer fun _ => Nat.zero_le _

/-! ### Statements -/

theorem tracks_editionStatement :
    Tracks limit lexemes editionStatement (fun _ => 0) fun _ _ => True := by
  refine Tracks.expect fun _ rest _ _ => Tracks.expect fun _ rest _ _ => ?_
  refine tracks_text.bind fun name rest _ reached => Tracks.report ?_ ?_
  · split
    · exact passedFaults_nil
    · exact List.forall_mem_singleton.mpr (List.forall_mem_singleton.mpr reached.before)
  · exact tracks_terminator.bind fun _ _ _ _ => Tracks.pure rfl trivial

theorem tracks_declaredEdition :
    Tracks limit lexemes declaredEdition (fun _ => 0) fun _ _ => True := by
  refine Tracks.look ?_
  split
  · exact tracks_editionStatement.bind fun _ _ _ _ => Tracks.pure rfl trivial
  · exact Tracks.pure rfl trivial

theorem tracks_package : Tracks limit lexemes package (fun _ => 1)
    fun found after => Passed after found.spans := by
  refine Tracks.leadingComments fun _ => Tracks.expect fun start rest later opened => ?_
  refine tracks_dottedName.bind fun name rest afterName reached => ?_
  refine tracks_terminator.bind fun ⟨stop, _⟩ rest afterStop closed => Tracks.pure rfl ?_
  have whole := closed.through opened.1 (Nat.le_trans later afterName)
  refine passed_cons.mpr ⟨whole.before, passed_flatMap.mpr fun part member => ?_⟩
  obtain ⟨starts, partBefore⟩ := reached.parts part member
  refine passed_cons.mpr ⟨partBefore.later afterStop, List.forall_mem_singleton.mpr ⟨?_, ?_⟩⟩
  · exact Nat.lt_of_le_of_lt (reached.whole.1 ▸ starts) partBefore.1
  · exact Nat.le_trans partBefore.2 afterStop

theorem tracks_importKind : Tracks limit lexemes importKind (fun _ => 0) fun _ _ => True := by
  refine Tracks.look ?_
  split
  · next head => exact Tracks.advance head fun _ _ _ _ => Tracks.pure rfl trivial
  · next head => exact Tracks.advance head fun _ _ _ _ => Tracks.pure rfl trivial
  · exact Tracks.pure rfl trivial
  · exact Tracks.unexpected

theorem tracks_import : Tracks limit lexemes «import» (fun _ => 1)
    fun found after => Passed after found.spans := by
  refine Tracks.leadingComments fun _ => Tracks.expect fun start rest later opened => ?_
  refine tracks_importKind.bind fun kind rest afterKind _ => ?_
  refine tracks_text.bind fun path rest afterPath reached => ?_
  refine tracks_terminator.bind fun ⟨stop, _⟩ rest afterStop closed => Tracks.pure rfl ?_
  have whole := closed.through opened.1 (by omega)
  exact passed_cons.mpr ⟨reached.before.later afterStop, List.forall_mem_singleton.mpr whole.before⟩

/-! ### Files -/

theorem tracks_addPackage {file : File} {package : Package}
    (before : file.Passed (position limit lexemes))
    (passed : Passed (position limit lexemes) package.spans) :
    Tracks limit lexemes (addPackage file package) (fun _ => 0)
      fun found after => Passed after found.spans := by
  rw [addPackage]
  split
  · next first eq =>
    have firstPassed := before.package
    rw [eq] at firstPassed
    refine Tracks.report (List.forall_mem_singleton.mpr (passed_pair ?_ ?_))
      (Tracks.pure rfl (File.passed_spans.mpr before))
    · exact firstPassed _ (List.mem_append_left _ List.mem_cons_self)
    · exact passed _ List.mem_cons_self
  · refine Tracks.pure rfl (File.passed_spans.mpr ?_)
    exact { before with package := passed_flatMap.mpr (List.forall_mem_singleton.mpr passed) }

theorem tracksMember_file : TracksMember limit fileMember File.spans := by
  intro file next parser lexemes found before
  have known {after : Nat} (later : position limit lexemes ≤ after) : file.Passed after :=
    File.passed_spans.mp (before.later later)
  unfold fileMember at found
  split at found
  · split_ifs at found with isImport isPackage isOption isMessage isEnum isService isExtend
    all_goals obtain rfl := Option.some.inj found
    · refine tracks_import.bind fun _ rest later passed =>
        Tracks.pure rfl (File.passed_spans.mpr ?_)
      exact { known later with imports := passed_concat.mpr ⟨(known later).imports, passed⟩ }
    · exact tracks_package.bind fun package rest later passed =>
        tracks_addPackage (known later) passed
    · exact tracks_optionStatement.bind fun _ rest later _ =>
        Tracks.pure rfl (File.passed_spans.mpr { known later with })
    · refine (tracks_message _ _ _).bind fun _ rest later passed =>
        Tracks.pure rfl (File.passed_spans.mpr ?_)
      exact { known later with messages := passed_concat.mpr ⟨(known later).messages, passed⟩ }
    · refine tracks_enumeration.bind fun _ rest later passed =>
        Tracks.pure rfl (File.passed_spans.mpr ?_)
      exact { known later with enums := passed_concat.mpr ⟨(known later).enums, passed⟩ }
    · refine tracks_service.bind fun _ rest later passed =>
        Tracks.pure rfl (File.passed_spans.mpr ?_)
      exact { known later with services := passed_concat.mpr ⟨(known later).services, passed⟩ }
    · exact tracks_extension.bind fun _ rest later _ =>
        Tracks.pure rfl (File.passed_spans.mpr { known later with })
  · cases found

theorem tracks_declarations {declared : Option Edition} :
    Tracks limit lexemes (declarations declared) (fun _ => 0) fun _ _ => True := by
  refine (tracks_topLevel tracksMember_file passed_nil).bind fun file rest _ passed => ?_
  exact Tracks.report (File.passedFaults (File.passed_spans.mp passed)) (Tracks.pure rfl trivial)

/-- A parser in another edition is where it would be otherwise. -/
theorem Tracks.inEdition {Value : Type} {parser : Parser Value} {declared : Option Edition}
    {count : Value → Nat} {goal : Value → Nat → Prop}
    (tracks : Tracks limit lexemes parser count goal) :
    Tracks limit lexemes (inEdition declared parser) count goal :=
  fun increasing setting inside => tracks increasing { setting with edition := declared } inside

/-- All that a file's faults point at lies before its end, or before where the parser stopped. -/
theorem tracks_file : Tracks limit lexemes file (fun _ => 0) fun _ _ => True :=
  tracks_declaredEdition.bind fun _ _ _ _ => tracks_declarations.inEdition

end Parser

/-! ### What is found -/

namespace Outcome

variable {Value : Type}

/-- The broken rules that the parser went past. -/
def broken : Outcome Value → List SemanticFault
  | done _ faults _ | stopped faults _ => faults

/-- The place at which the parser stopped, if it did. -/
def last? : Outcome Value → Option GrammarFault
  | done _ _ _ => none
  | stopped _ fault => some fault

/-- All that was found, the place at which the parser stopped last. -/
def diagnostics (outcome : Outcome Value) : List Diagnostic :=
  outcome.broken.map .semantic ++ outcome.last?.toList.map .grammatical

variable {limit length : Nat} {lexemes : List Lexeme} {outcome : Outcome Value}
variable {count : Value → Nat} {goal : Value → Nat → Prop}

theorem Tracks.broken_passed (tracks : outcome.Tracks limit length lexemes count goal) :
    PassedFaults limit outcome.broken := by
  cases outcome with
  | done value faults rest =>
    obtain ⟨increasing, -, -, passed, -⟩ := tracks
    exact passed.later (position_le_limit increasing)
  | stopped faults fault =>
    obtain ⟨-, -, -, -, -, passed⟩ := tracks
    exact passed

/-- The parser stops for a reason, after all broken rules. -/
theorem Tracks.after_broken (tracks : outcome.Tracks limit length lexemes count goal) :
    ∀ fault ∈ outcome.last?, fault.cause ≠ .stalled ∧
      ∀ earlier ∈ outcome.broken, earlier.span.start < fault.span.start := by
  cases outcome with
  | done value faults rest => exact fun fault member => nomatch member
  | stopped faults fault =>
    intro last member
    obtain rfl := Option.some.inj member
    obtain ⟨cause, -, -, -, passed, -⟩ := tracks
    refine ⟨cause, fun earlier earlierMember => ?_⟩
    obtain ⟨some, before⟩ :=
      passed earlier earlierMember _ (SemanticFault.span_mem_spans earlier)
    exact Nat.lt_of_lt_of_le some before

end Outcome

/-- A file is accepted if nothing was found. -/
theorem parseFile_eq (length : Nat) (stream : TokenStream) :
    (∃ file rest,
      Parser.file ⟨none, length, stream.atEnd⟩ stream.lexemes = .done file [] rest ∧
        parseFile length stream = .accepted file) ∨
    ∃ first others,
      (Parser.file ⟨none, length, stream.atEnd⟩ stream.lexemes).diagnostics = first :: others ∧
        parseFile length stream = .rejected first others := by
  rw [parseFile]
  split
  · next file rest done => exact .inl ⟨file, rest, done, rfl⟩
  · next file first others rest done =>
    exact .inr ⟨_, _, by rw [done]; exact List.append_nil _, rfl⟩
  · next fault stopped => exact .inr ⟨_, _, by rw [stopped]; rfl, rfl⟩
  · next first others fault stopped => exact .inr ⟨_, _, by rw [stopped]; rfl, rfl⟩

end ProtoSchema
