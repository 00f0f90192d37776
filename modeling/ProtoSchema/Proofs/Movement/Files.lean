/-
This file follows oneofs, extension blocks and messages on moved input, and with
them whole files. A block or message declared inside a message has the same path
there. What comes of tokens that were moved is what comes of the tokens, moved.
-/

import ProtoSchema.Grammar.Files
import ProtoSchema.Proofs.Movement.Declarations

namespace ProtoSchema

namespace Parser

variable {move : Move}

/-! ### Oneofs -/

theorem movesMember_oneof {index : Nat} :
    MovesMember move (oneofMember index) (Oneof.moved move) fun _ => True := by
  intro oneof next _
  unfold oneofMember
  split_ifs with isOption isField
  · refine .some (moves_optionStatement.bind fun _ _ => Moves.pure ?_ trivial)
    simp [Oneof.moved]
  · refine .some (moves_field.bind fun _ _ => Moves.pure ?_ trivial)
    simp [Oneof.moved, Option.toList_map]
  · exact .none

theorem moves_oneof {index : Nat} :
    Moves move (oneof index) (oneof index) (Oneof.moved move) fun _ => True := by
  refine moves_leadingComments.bind fun _ _ => Moves.expect fun start => ?_
  refine moves_name.bind fun name _ => moves_openBrace.bind fun trailing _ => ?_
  refine (moves_body movesMember_oneof trivial rfl).bind fun ⟨read, stop⟩ _ => ?_
  exact Moves.report (Oneof.faults_moved _) (Moves.pure rfl trivial)

/-! ### Extension blocks -/

theorem movesMember_extension :
    MovesMember move extensionMember (Extension.moved move)
      fun extension => extension.extendee.path.parts ≠ [] := by
  intro extension next some
  unfold extensionMember
  split_ifs with isOption isField
  · refine .some (moves_optionStatement.bind fun _ _ => Moves.pure ?_ some)
    simp [Extension.moved]
  · refine .some (moves_field.bind fun _ _ => Moves.pure ?_ some)
    simp [Extension.moved, Option.toList_map]
  · exact .none

theorem moves_extension {parent : Option MessagePath} :
    Moves move (extension parent) (extension parent) (Extension.moved move) fun _ => True := by
  refine moves_leadingComments.bind fun _ _ => Moves.expect fun start => ?_
  refine moves_typeName.bind fun extendee some => moves_openBrace.bind fun trailing _ => ?_
  refine (moves_body movesMember_extension some ?_).bind fun ⟨read, stop⟩ some => ?_
  · rw [TypeName.namesOptions_moved]
    rfl
  · exact Moves.edition fun declared =>
      Moves.report (Extension.faults_moved declared some) (Moves.pure rfl trivial)

/-! ### Messages -/

/-- Nested messages are read alike on moved input. -/
def MovesMessages (move : Move) (nested : MessagePath → Parser Message) : Prop :=
  ∀ path, Moves move (nested path) (nested path) (Message.moved move) fun _ => True

theorem movesMember_message {nested : MessagePath → Parser Message} {path : MessagePath}
    (inner : MovesMessages move nested) :
    MovesMember move (messageMember nested path) (Message.moved move) fun _ => True := by
  intro message next _
  have fields (field : Option Field) :
      ({ message.moved move with
          fields := (message.moved move).fields ++ (field.map (Field.moved move)).toList } :
        Message) = Message.moved move { message with fields := message.fields ++ field.toList } := by
    simp [Message.moved_eq, Option.toList_map]
  have count : (message.moved move).messages.length = message.messages.length := by
    simp [Message.moved_eq]
  have oneofs : (message.moved move).oneofs.length = message.oneofs.length := by
    simp [Message.moved_eq]
  unfold messageMember
  split
  · split_ifs with isMessage isEnum isOneof isReserved isExtensions isOption isExtend
    · rw [count]
      refine .some ((inner _).bind fun _ _ => Moves.pure ?_ trivial)
      simp [Message.moved_eq]
    · refine .some (moves_enumeration.bind fun _ _ => Moves.pure ?_ trivial)
      simp [Message.moved_eq]
    · rw [oneofs]
      refine .some (moves_oneof.bind fun _ _ => Moves.pure ?_ trivial)
      simp [Message.moved_eq]
    · refine .some (moves_reserved.bind fun _ _ => Moves.pure ?_ trivial)
      simp [Message.moved_eq]
    · refine .some (moves_extensionRanges.bind fun _ _ => Moves.pure ?_ trivial)
      simp [Message.moved_eq]
    · refine .some (moves_optionStatement.bind fun _ _ => Moves.pure ?_ trivial)
      simp [Message.moved_eq]
    · refine .some (moves_extension.bind fun _ _ => Moves.pure ?_ trivial)
      simp [Message.moved_eq]
    · exact .some (moves_field.bind fun field _ => Moves.pure (fields field) trivial)
  · exact .some (moves_field.bind fun field _ => Moves.pure (fields field) trivial)
  · exact .none

theorem moves_messageRest {nested : MessagePath → Parser Message} {path : MessagePath}
    {comments : Comments} {start : Span} (inner : MovesMessages move nested) :
    Moves move (messageRest nested path comments start)
      (messageRest nested path .none (start.moved move)) (Message.moved move) fun _ => True := by
  refine moves_name.bind fun name _ => moves_openBrace.bind fun trailing _ => ?_
  refine (moves_body (movesMember_message inner) trivial rfl).bind fun ⟨read, stop⟩ _ => ?_
  have whole : ({ read.moved move with
        span := (start.moved move).through (stop.moved move) } : Message) =
      Message.moved move { read with span := start.through stop } := by
    rw [Message.moved_eq, Message.moved_eq]
    rfl
  dsimp only [Prod.map]
  rw [whole]
  exact Moves.report (Message.faults_moved _) (Moves.pure rfl trivial)

theorem moves_message (depth : Nat) : MovesMessages move (message depth) := by
  induction depth with
  | zero => exact fun path => Moves.expect fun _ => Moves.stop
  | succ depth inductionHypothesis =>
    exact fun path => moves_leadingComments.bind fun comments _ => Moves.expect fun start =>
      moves_messageRest inductionHypothesis

/-! ### Statements -/

theorem moves_editionStatement :
    Moves move editionStatement editionStatement id fun _ => True := by
  refine Moves.expect fun _ => Moves.expect fun _ => moves_text.bind fun name _ => ?_
  refine Moves.report ?_ (moves_terminator.bind fun _ _ => Moves.pure rfl trivial)
  change (if (Edition.ofName? name.text).isSome = true then _ else _) = _
  split <;> rfl

theorem moves_declaredEdition :
    Moves move declaredEdition declaredEdition id fun _ => True := by
  refine Moves.look fun next => ?_
  split
  · exact moves_editionStatement.bind fun _ _ => Moves.pure rfl trivial
  · exact Moves.pure rfl trivial

theorem moves_package : Moves move package package (Package.moved move) fun _ => True := by
  refine moves_leadingComments.bind fun _ _ => Moves.expect fun start => ?_
  refine moves_dottedName.bind fun name _ => moves_terminator.bind fun _ _ => ?_
  exact Moves.pure rfl trivial

theorem moves_importKind : Moves move importKind importKind id fun _ => True := by
  refine Moves.look fun next => ?_
  split
  · exact Moves.advance fun _ => Moves.pure rfl trivial
  · exact Moves.advance fun _ => Moves.pure rfl trivial
  · exact Moves.pure rfl trivial
  · exact Moves.unexpected

theorem moves_import : Moves move «import» «import» (Import.moved move) fun _ => True := by
  refine moves_leadingComments.bind fun _ _ => Moves.expect fun start => ?_
  refine moves_importKind.bind fun kind _ => moves_text.bind fun path _ => ?_
  exact moves_terminator.bind fun _ _ => Moves.pure rfl trivial

/-! ### Files -/

theorem moves_addPackage {file : File} {package : Package} :
    Moves move (addPackage file package) (addPackage (file.moved move) (package.moved move))
      (File.moved move) fun _ => True := by
  rw [addPackage, addPackage]
  obtain ⟨edition, declared, first, imports, options, messages, enums, services, extensions⟩ := file
  cases first with
  | none => exact Moves.pure rfl trivial
  | some first => exact Moves.report rfl (Moves.pure rfl trivial)

theorem movesMember_file : MovesMember move fileMember (File.moved move) fun _ => True := by
  intro file next _
  have count : (file.moved move).messages.length = file.messages.length := List.length_map _
  unfold fileMember
  split
  · split_ifs with isImport isPackage isOption isMessage isEnum isService isExtend
    · refine .some (moves_import.bind fun _ _ => Moves.pure ?_ trivial)
      simp [File.moved]
    · exact .some (moves_package.bind fun _ _ => moves_addPackage)
    · refine .some (moves_optionStatement.bind fun _ _ => Moves.pure ?_ trivial)
      simp [File.moved]
    · rw [count]
      refine .some ((moves_message _ _).bind fun _ _ => Moves.pure ?_ trivial)
      simp [File.moved]
    · refine .some (moves_enumeration.bind fun _ _ => Moves.pure ?_ trivial)
      simp [File.moved]
    · refine .some (moves_service.bind fun _ _ => Moves.pure ?_ trivial)
      simp [File.moved]
    · refine .some (moves_extension.bind fun _ _ => Moves.pure ?_ trivial)
      simp [File.moved]
    · exact .none
  · exact .none

theorem moves_declarations {declared : Option Edition} :
    Moves move (declarations declared) (declarations declared) (File.moved move)
      fun _ => True := by
  refine (moves_topLevel movesMember_file trivial rfl).bind fun file _ => ?_
  exact Moves.report file.faults_moved (Moves.pure rfl trivial)

theorem moves_file (move : Move) : Moves move file file (File.moved move) fun _ => True :=
  moves_declaredEdition.bind fun _ _ => moves_declarations.inEdition

end Parser

end ProtoSchema
