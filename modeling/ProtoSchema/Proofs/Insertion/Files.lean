/-
This file carries oneofs, extension blocks and messages to other places, and with
them the members of files and whole files. A block or message declared inside a
message has the same path there.
-/

import ProtoSchema.Grammar.Files
import ProtoSchema.Proofs.Insertion.Declarations

namespace ProtoSchema

namespace Parser

variable {move : Move}

/-! ### Oneofs -/

theorem carriesMember_oneof {index : Nat} :
    CarriesMember move (oneofMember index) (Oneof.shifted move) fun _ => True := by
  intro oneof next _
  unfold oneofMember
  split_ifs with isOption isField
  · refine .some (carries_optionStatement.bind fun _ _ => CarriesAt.pure ?_ trivial)
    simp [Oneof.shifted, Oneof.moved]
  · refine .some (carries_field.bind fun _ _ => CarriesAt.pure ?_ trivial)
    simp [Oneof.shifted, Oneof.moved, Option.toList_map]
  · exact .none

theorem carries_oneofBlock {index : Nat} :
    CarriesBlock move (.oneof index) (Oneof.shifted move) (Oneof.shifted move) (fun _ => True)
      (fun _ => True) fun _ => True where
  header := by
    refine CarriesAt.leadingComments fun _ => CarriesAt.expect fun start => ?_
    refine carries_name.bind fun name _ => carries_openBrace.bind fun trailing _ => ?_
    exact CarriesAt.pure rfl trivial
  start _ _ := trivial
  startImage _ := rfl
  members := carriesMember_oneof
  closeImage _ _ _ := rfl
  faults _ _ _ _ _ none := Oneof.faults_shifted none
  goal _ _ _ _ := trivial

theorem carries_oneof {index : Nat} :
    Carries move (oneof index) (oneof index) (Oneof.shifted move) fun _ => True := by
  rw [oneof_eq]
  exact carries_oneofBlock.parser

/-! ### Extension blocks -/

theorem carriesMember_extension :
    CarriesMember move extensionMember (Extension.shifted move)
      fun extension => extension.extendee.path.parts ≠ [] := by
  intro extension next some
  unfold extensionMember
  split_ifs with isOption isField
  · refine .some (carries_optionStatement.bind fun _ _ => CarriesAt.pure ?_ some)
    simp [Extension.shifted, Extension.moved]
  · refine .some (carries_field.bind fun _ _ => CarriesAt.pure ?_ some)
    simp [Extension.shifted, Extension.moved, Option.toList_map]
  · exact .none

theorem carries_extensionBlock {parent : Option MessagePath} :
    CarriesBlock move (.extension parent) (Extension.shifted move) (Extension.shifted move)
      (fun extension => extension.extendee.path.parts ≠ [])
      (fun extension => extension.extendee.path.parts ≠ []) fun _ => True where
  header := by
    refine CarriesAt.leadingComments fun _ => CarriesAt.expect fun start => ?_
    refine carries_typeName.bind fun extendee some => ?_
    refine carries_openBrace.bind fun trailing _ => CarriesAt.pure ?_ some
    rw [TypeName.namesOptions_moved]
    rfl
  start _ some := some
  startImage _ := rfl
  members := carriesMember_extension
  closeImage _ _ _ := rfl
  faults _ _ _ _ some none := Extension.faults_shifted some none
  goal _ _ _ _ := trivial

theorem carries_extension {parent : Option MessagePath} :
    Carries move (extension parent) (extension parent) (Extension.shifted move)
      fun _ => True := by
  rw [extension_eq]
  exact carries_extensionBlock.parser

/-! ### Messages -/

/-- Nested messages are carried. -/
def CarriesMessages (move : Move) (nested : MessagePath → Parser Message) : Prop :=
  ∀ path, Carries move (nested path) (nested path) (Message.shifted move) fun _ => True

theorem carriesMember_message {nested : MessagePath → Parser Message} {path : MessagePath}
    (inner : CarriesMessages move nested) :
    CarriesMember move (messageMember nested path) (Message.shifted move) fun _ => True := by
  intro message next _
  have fields (field : Option Field) :
      ({ message.shifted move with
          fields := (message.shifted move).fields ++ (field.map (Field.shifted move)).toList } :
        Message) =
      Message.shifted move { message with fields := message.fields ++ field.toList } := by
    simp [Message.shifted_eq, Option.toList_map]
  have count : (message.shifted move).messages.length = message.messages.length := by
    simp [Message.shifted_eq]
  have oneofs : (message.shifted move).oneofs.length = message.oneofs.length := by
    simp [Message.shifted_eq]
  unfold messageMember
  split
  · split_ifs with isMessage isEnum isOneof isReserved isExtensions isOption isExtend
    · rw [count]
      refine .some ((inner _).bind fun _ _ => CarriesAt.pure ?_ trivial)
      simp [Message.shifted_eq]
    · refine .some (carries_enumeration.bind fun _ _ => CarriesAt.pure ?_ trivial)
      simp [Message.shifted_eq]
    · rw [oneofs]
      refine .some (carries_oneof.bind fun _ _ => CarriesAt.pure ?_ trivial)
      simp [Message.shifted_eq]
    · refine .some (carries_reserved.bind fun _ _ => CarriesAt.pure ?_ trivial)
      simp [Message.shifted_eq]
    · refine .some (carries_extensionRanges.bind fun _ _ => CarriesAt.pure ?_ trivial)
      simp [Message.shifted_eq]
    · refine .some (carries_optionStatement.bind fun _ _ => CarriesAt.pure ?_ trivial)
      simp [Message.shifted_eq]
    · refine .some (carries_extension.bind fun _ _ => CarriesAt.pure ?_ trivial)
      simp [Message.shifted_eq]
    · exact .some (carries_field.bind fun field _ => CarriesAt.pure (fields field) trivial)
  · exact .some (carries_field.bind fun field _ => CarriesAt.pure (fields field) trivial)
  · exact .none

theorem carries_messageBlock {nested : MessagePath → Parser Message} {path : MessagePath}
    (inner : CarriesMessages move nested) :
    CarriesBlock move (.message nested path) (Message.shifted move) (Message.shifted move)
      (fun _ => True) (fun _ => True) fun _ => True where
  header := by
    refine CarriesAt.leadingComments fun _ => CarriesAt.expect fun start => ?_
    refine carries_name.bind fun name _ => carries_openBrace.bind fun trailing _ => ?_
    exact CarriesAt.pure rfl trivial
  start _ _ := trivial
  startImage _ := rfl
  members := carriesMember_message inner
  closeImage value read stop := by
    simp only [BlockForm.message, Message.shifted_eq]
    rfl
  faults _ _ _ _ _ none := Message.faults_shifted none
  goal _ _ _ _ := trivial

theorem carries_message (depth : Nat) : CarriesMessages move (message depth) := by
  induction depth with
  | zero => exact fun path => CarriesAt.expect fun _ => CarriesAt.stop
  | succ depth inductionHypothesis =>
    intro path
    rw [message_eq]
    exact (carries_messageBlock inductionHypothesis).parser

/-! ### Statements -/

/-- The edition is known wherever its name stands. -/
theorem carries_editionStatement :
    Carries move editionStatement editionStatement id fun _ => True := by
  refine CarriesAt.expect fun _ => CarriesAt.expect fun _ => carries_text.bind fun name _ => ?_
  refine CarriesAt.report (fun none => ?_) fun _ =>
    carries_terminator.bind fun _ _ => CarriesAt.pure rfl trivial
  by_cases known : (Edition.ofName? name.text).isSome
  · exact if_pos known
  · rw [if_neg known] at none
    cases none

theorem carries_declaredEdition :
    Carries move declaredEdition declaredEdition id fun _ => True := by
  refine CarriesAt.look ?_
  split
  · exact carries_editionStatement.bind fun _ _ => CarriesAt.pure rfl trivial
  · exact CarriesAt.pure rfl trivial

theorem carries_package :
    Carries move package package (Package.shifted move) fun _ => True := by
  refine CarriesAt.leadingComments fun _ => CarriesAt.expect fun start => ?_
  refine carries_dottedName.bind fun name _ => carries_terminator.bind fun _ _ => ?_
  exact CarriesAt.pure rfl trivial

theorem carries_importKind : Carries move importKind importKind id fun _ => True := by
  refine CarriesAt.look ?_
  split
  · exact CarriesAt.advance fun _ => CarriesAt.pure rfl trivial
  · exact CarriesAt.advance fun _ => CarriesAt.pure rfl trivial
  · exact CarriesAt.pure rfl trivial
  · exact CarriesAt.unexpected

theorem carries_import :
    Carries move «import» «import» (Import.shifted move) fun _ => True := by
  refine CarriesAt.leadingComments fun _ => CarriesAt.expect fun start => ?_
  refine carries_importKind.bind fun kind _ => carries_text.bind fun path _ => ?_
  exact carries_terminator.bind fun _ _ => CarriesAt.pure rfl trivial

/-! ### Files -/

/-- A second package is a fault, so there is nothing to carry. -/
theorem carries_addPackage {file : File} {package : Package} :
    Carries move (addPackage file package)
      (addPackage (file.shifted move) (package.shifted move)) (File.shifted move)
      fun _ => True := by
  rw [addPackage, addPackage]
  obtain ⟨edition, declared, first, imports, options, messages, enums, services, extensions⟩ := file
  cases first with
  | none => exact CarriesAt.pure rfl trivial
  | some first => exact CarriesAt.report (fun found => nomatch found) fun _ =>
      CarriesAt.pure rfl trivial

theorem carriesMember_file :
    CarriesMember move fileMember (File.shifted move) fun _ => True := by
  intro file next _
  have count : (file.shifted move).messages.length = file.messages.length := List.length_map _
  unfold fileMember
  split
  · split_ifs with isImport isPackage isOption isMessage isEnum isService isExtend
    · refine .some (carries_import.bind fun _ _ => CarriesAt.pure ?_ trivial)
      simp [File.shifted]
    · exact .some (carries_package.bind fun _ _ => carries_addPackage)
    · refine .some (carries_optionStatement.bind fun _ _ => CarriesAt.pure ?_ trivial)
      simp [File.shifted]
    · rw [count]
      refine .some ((carries_message _ _).bind fun _ _ => CarriesAt.pure ?_ trivial)
      simp [File.shifted]
    · refine .some (carries_enumeration.bind fun _ _ => CarriesAt.pure ?_ trivial)
      simp [File.shifted]
    · refine .some (carries_service.bind fun _ _ => CarriesAt.pure ?_ trivial)
      simp [File.shifted]
    · refine .some (carries_extension.bind fun _ _ => CarriesAt.pure ?_ trivial)
      simp [File.shifted]
    · exact .none
  · exact .none

end Parser

end ProtoSchema
