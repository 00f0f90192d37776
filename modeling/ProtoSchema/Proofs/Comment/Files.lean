/-
This file notes the comments of messages, of what else holds fields, and of files.
A message in another is a member like any other, so that the comments in it come
between those of the members around it, at every depth.
-/

import ProtoSchema.Grammar.Files
import ProtoSchema.Proofs.Comment.Declarations

namespace ProtoSchema

namespace Parser

variable {atEnd : Surroundings} {lexemes : List Lexeme}

/-! ### Oneofs and extension blocks -/

theorem noting_oneofMember {index : Nat} {comments : Comments} {first : List Lexeme} :
    Noting atEnd (oneofMember index) (Collected atEnd RemarkShape.oneof comments first) where
  later := Collected.later
  member := by
    intro state next parser lexemes found collected
    unfold oneofMember at found
    split_ifs at found with isOption isField
    all_goals obtain rfl := Option.some.inj found
    · exact collected.add notes_optionStatement 1 (by decide) (fun _ => rfl)
        (by simp [RemarkShape.oneof, Oneof.memberRemarks])
    · exact collected.add notes_field 0 (by decide) (fun _ => rfl)
        (by simp [RemarkShape.oneof, Oneof.memberRemarks])

theorem notes_oneof {index : Nat} : Notes atEnd lexemes (oneof index) fun oneof rest =>
    Noted atEnd lexemes rest oneof.remarks :=
  .block .oneof (fun comments start name => ⟨name, [], [], comments, start⟩)
    (.of_carries carries_name) (fun _ _ _ => rfl)
    (by simp [RemarkShape.oneof, Oneof.memberRemarks]) noting_oneofMember
    fun _ _ _ _ noted => .stays stays_report fun _ => .pure noted

theorem noting_extensionMember {comments : Comments} {first : List Lexeme} :
    Noting atEnd extensionMember (Collected atEnd RemarkShape.extension comments first) where
  later := Collected.later
  member := by
    intro state next parser lexemes found collected
    unfold extensionMember at found
    split_ifs at found with isOption isField
    all_goals obtain rfl := Option.some.inj found
    · exact collected.add notes_optionStatement 1 (by decide) (fun _ => rfl)
        (by simp [RemarkShape.extension, Extension.memberRemarks])
    · exact collected.add notes_field 0 (by decide) (fun _ => rfl)
        (by simp [RemarkShape.extension, Extension.memberRemarks])

theorem notes_extension {parent : Option MessagePath} :
    Notes atEnd lexemes (extension parent) fun extension rest =>
      Noted atEnd lexemes rest extension.remarks :=
  .block .extension (fun comments start extendee =>
      ⟨extendee, [], [], parent, extendee.namesOptions, comments, start⟩)
    (.of_carries carries_typeName) (fun _ _ _ => rfl)
    (by simp [RemarkShape.extension, Extension.memberRemarks]) noting_extensionMember
    fun _ _ _ _ noted => .stays stays_edition fun _ => .stays stays_report fun _ => .pure noted

/-! ### Messages -/

/-- The comments of nested messages are noted. -/
def NotesNested (atEnd : Surroundings) (nested : MessagePath → Parser Message) : Prop :=
  ∀ (path : MessagePath) (lexemes : List Lexeme), Notes atEnd lexemes (nested path)
    fun message rest => Noted atEnd lexemes rest message.remarks

theorem noting_messageMember {nested : MessagePath → Parser Message} {path : MessagePath}
    {comments : Comments} {first : List Lexeme} (nestedNotes : NotesNested atEnd nested) :
    Noting atEnd (messageMember nested path)
      (Collected atEnd RemarkShape.message comments first) where
  later := Collected.later
  member := by
    intro state next parser lexemes found collected
    have field : Notes atEnd lexemes (do
        return { state with fields := state.fields ++ (← Parser.field .message).toList })
        (Collected atEnd RemarkShape.message comments first) :=
      collected.add notes_field 0 (by decide) (fun _ => rfl)
        (by simp [RemarkShape.message, Message.memberRemarks])
    unfold messageMember at found
    split at found
    · split_ifs at found
      all_goals obtain rfl := Option.some.inj found
      · exact collected.add (nestedNotes _ _) 2 (by decide) (fun _ => rfl)
          (by simp [RemarkShape.message, Message.memberRemarks])
      · exact collected.add notes_enumeration 3 (by decide) (fun _ => rfl)
          (by simp [RemarkShape.message, Message.memberRemarks])
      · exact collected.add notes_oneof 1 (by decide) (fun _ => rfl)
          (by simp [RemarkShape.message, Message.memberRemarks])
      · exact collected.add notes_reserved 7 (by decide) (fun _ => rfl)
          (by simp [RemarkShape.message, Message.memberRemarks])
      · exact collected.add notes_extensionRanges 5 (by decide) (fun _ => rfl)
          (by simp [RemarkShape.message, Message.memberRemarks])
      · exact collected.add notes_optionStatement 6 (by decide) (fun _ => rfl)
          (by simp [RemarkShape.message, Message.memberRemarks])
      · exact collected.add notes_extension 4 (by decide) (fun _ => rfl)
          (by simp [RemarkShape.message, Message.memberRemarks])
      · exact field
    · obtain rfl := Option.some.inj found
      exact field
    · cases found

theorem notes_message (depth : Nat) : NotesNested atEnd (message depth) := by
  induction depth with
  | zero => exact fun path lexemes => .expect fun _ _ _ => .stop
  | succ depth inductionHypothesis =>
    intro path lexemes
    refine .block .message
      (fun comments start name => ⟨name, [], [], [], [], [], [], [], [], comments, start⟩)
      (.of_carries carries_name) (fun _ _ _ => rfl)
      (by simp [RemarkShape.message, Message.memberRemarks])
      (noting_messageMember inductionHypothesis) fun start read stop rest noted => ?_
    refine .stays stays_report fun _ => .pure ?_
    rw [Message.remarks_eq]
    exact noted

/-! ### Files -/

/-- A package is one more declaration unless there is one, which would be a fault. -/
theorem notes_addPackage {comments : Comments} {first : List Lexeme} {state : File}
    (collected : Collected atEnd RemarkShape.file comments first state lexemes) :
    Notes atEnd lexemes (do addPackage state (← package))
      (Collected atEnd RemarkShape.file comments first) := by
  cases known : state.package with
  | some other =>
    refine notes_package.bind fun package rest _ _ => ?_
    rw [addPackage, known]
    exact .faulty
  | none =>
    have added : (do addPackage state (← package)) =
        (do return { state with package := some (← package) } : Parser File) := by
      simp only [addPackage, known]
    rw [added]
    exact collected.add notes_package 0 (by decide) (fun _ => rfl)
      (by simp [RemarkShape.file, File.memberRemarks, known])

theorem noting_fileMember {comments : Comments} {first : List Lexeme} :
    Noting atEnd fileMember (Collected atEnd RemarkShape.file comments first) where
  later := Collected.later
  member := by
    intro state next parser lexemes found collected
    unfold fileMember at found
    split at found
    · split_ifs at found
      all_goals obtain rfl := Option.some.inj found
      · exact collected.add notes_import 1 (by decide) (fun _ => rfl)
          (by simp [RemarkShape.file, File.memberRemarks])
      · exact notes_addPackage collected
      · exact collected.add notes_optionStatement 2 (by decide) (fun _ => rfl)
          (by simp [RemarkShape.file, File.memberRemarks])
      · exact collected.add (notes_message _ _ _) 3 (by decide) (fun _ => rfl)
          (by simp [RemarkShape.file, File.memberRemarks])
      · exact collected.add notes_enumeration 4 (by decide) (fun _ => rfl)
          (by simp [RemarkShape.file, File.memberRemarks])
      · exact collected.add notes_service 5 (by decide) (fun _ => rfl)
          (by simp [RemarkShape.file, File.memberRemarks])
      · exact collected.add notes_extension 6 (by decide) (fun _ => rfl)
          (by simp [RemarkShape.file, File.memberRemarks])
    · cases found

theorem notes_declarations {declared : Option Edition} :
    Notes atEnd lexemes (declarations declared) fun file rest =>
      Noted atEnd lexemes rest file.remarks := by
  refine (notes_topLevel noting_fileMember (.opening rfl (by simp [RemarkShape.file,
    File.memberRemarks, File.empty]))).bind fun file rest _ collected => ?_
  exact .stays stays_report fun _ => .pure collected.noted

theorem Notes.inEdition {Value : Type} {declared : Option Edition} {parser : Parser Value}
    {goal : Value → List Lexeme → Prop} (notes : Notes atEnd lexemes parser goal) :
    Notes atEnd lexemes (inEdition declared parser) goal :=
  fun setting value rest sameEnd done =>
    notes { setting with edition := declared } value rest sameEnd done

/-- The statement that declares the edition has no comments. -/
theorem notes_file : Notes atEnd lexemes file fun file rest =>
    Noted atEnd lexemes rest file.remarks := by
  refine .takes (.of_carries carries_declaredEdition) fun declared rest left => ?_
  exact (notes_declarations.inEdition).mono fun file last noted => noted.earlier left

end Parser

end ProtoSchema
