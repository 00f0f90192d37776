/-
This file shows that a message tells which kind of fault it is about. The wording
up to the first quote or number differs from kind to kind, except for two pairs of
kinds, which end in different letters. So no name or number that is told can make
a message that of another kind of fault.
-/

import Mathlib.Data.List.Nodup
import ProtoSchema.Proofs.Layout.Findings
import ProtoSchema.Proofs.Scanning.Numeral

namespace ProtoSchema

theorem LexicalCause.message_injective : Function.Injective message := by
  intro first second same
  cases first <;> cases second <;> first | rfl | exact absurd same (by decide)

/-! ### Clues -/

/-- Whether what is told of the source may start with the character. -/
def marks (character : Char) : Bool :=
  character = '\'' || character = '-' || character.isDigit

/-- The wording of a message up to what is told of the source, and whether the message ends in the
letter that tells apart what starts alike. -/
def clue (message : String) : List Char × Bool :=
  (message.toList.takeWhile (!marks ·), message.toList.getLast? == some 'd')

variable {opening text ending : String}

theorem getLast?_append_ending (nonempty : ending ≠ "") :
    (text ++ ending).toList.getLast? = ending.toList.getLast? := by
  have some : ending.toList ≠ [] := fun none => nonempty (String.toList_eq_nil_iff.mp none)
  rw [String.toList_append, List.getLast?_append, List.getLast?_eq_some_getLast some,
    Option.some_or]

/-- What is told behind a mark is no part of the clue, up to the end of the message. -/
theorem clue_of_opening (marked : opening.toList.any marks = true) (nonempty : ending ≠ "") :
    clue (opening ++ text ++ ending) =
      (opening.toList.takeWhile (!marks ·), ending.toList.getLast? == some 'd') := by
  have partly : (opening.toList.takeWhile (!marks ·)).length ≠ opening.toList.length := by
    intro whole
    have all := List.all_takeWhile (p := (!marks ·)) (l := opening.toList)
    rw [(List.takeWhile_prefix _).eq_of_length whole, List.all_eq_not_any_not] at all
    simp [marked] at all
  rw [clue, getLast?_append_ending nonempty, String.append_assoc, String.toList_append,
    List.takeWhile_append, if_neg partly]

/-- A number is told with marks. -/
theorem marks_toString (number : Int) :
    (toString number).toList ≠ [] ∧
      ∀ character ∈ (toString number).toList, marks character = true := by
  have digits (number : Nat) : ∀ character ∈ Nat.toDigits 10 number, marks character = true :=
    fun character member => by
      simp [marks, List.all_eq_true.mp (all_isDigit_toDigits number) character member]
  cases number with
  | ofNat number =>
    have text : (toString (Int.ofNat number)).toList = Nat.toDigits 10 number := by
      simp [toString, Int.repr]
    rw [text]
    exact ⟨Nat.toDigits_ne_nil, digits number⟩
  | negSucc number =>
    have text : (toString (Int.negSucc number)).toList = '-' :: Nat.toDigits 10 (number + 1) := by
      simp [toString, Int.repr]
    rw [text]
    exact ⟨List.cons_ne_nil _ _, List.forall_mem_cons.mpr ⟨rfl, digits (number + 1)⟩⟩

/-- A number is no part of the clue. -/
theorem clue_of_number {number : Int} (nonempty : ending ≠ "") :
    clue (opening ++ toString number ++ ending) =
      (opening.toList.takeWhile (!marks ·), ending.toList.getLast? == some 'd') := by
  obtain ⟨some, marked⟩ := marks_toString number
  obtain ⟨first, rest, isText⟩ := List.exists_cons_of_ne_nil some
  rw [isText] at marked
  have isMark := marked first List.mem_cons_self
  rw [clue, getLast?_append_ending nonempty, String.toList_append, String.toList_append, isText,
    List.append_assoc, List.takeWhile_append, List.cons_append,
    List.takeWhile_cons_of_neg (by simp [isMark]), List.append_nil]
  split
  · next whole => rw [(List.takeWhile_prefix _).eq_of_length whole]
  · rfl

/-! ### Kinds -/

namespace SemanticCause

/-- The kinds of causes. -/
def kinds : List SemanticCause :=
  [unknownEdition "", badReservedName, badTypeName .message "", badTypeName .enumeration "",
    badTypeName .enumValue "", badTypeName .service "", badTypeName .method "", badPackageName "",
    badImportPath, repeatedImport "" default, repeatedPackage default, fieldNumberOutOfRange,
    fieldNumberSetAside, enumNumberOutOfRange, reversedRange 0 0, repeatedName "" default,
    repeatedFieldNumber 0 default, repeatedEnumNumber 0 default, reservedNumberUsed 0 default,
    reservedNameUsed "" default, emptyEnum, firstEnumValueNotZero, emptyOneof, labelInOneof,
    mapInOneof, labelOnMap, badMapKey, mapInExtension, requiredInExtension, badExtendee "",
    requiredInProto3, defaultInProto3, badMethodType ""]

theorem kind_mem_kinds (cause : SemanticCause) : cause.kind ∈ kinds := by
  cases cause with
  | badTypeName kind => cases kind <;> simp [kind, kinds]
  | _ => simp [kind, kinds]

/-- Each kind has its own wording. -/
theorem nodup_clues : (kinds.map fun kind => clue kind.message).Nodup := by
  rw [kinds]
  repeat rw [List.map_cons]
  rw [List.map_nil]
  unfold message
  dsimp only [TypeLike.name]
  -- Literals are taken apart by rewriting, since evaluation would decode them from bytes.
  unfold clue
  repeat rw [String.toList_append]
  repeat rw [String.toList_ofList]
  decide +kernel

/-- A reversed range is told by its bounds, of which the last ends the message. -/
theorem clue_reversedRange (first last : Int) : clue (reversedRange first last).message =
    ("invalid reserved range: ".toList.takeWhile (!marks ·), false) := by
  obtain ⟨some, marked⟩ := marks_toString last
  have nonempty : toString last ≠ "" := fun none => some (String.toList_eq_nil_iff.mpr none)
  have noLetter : (toString last).toList.getLast? ≠ .some 'd' := fun isLast =>
    absurd (marked 'd' (List.mem_of_getLast? isLast)) (by decide)
  show clue ("invalid reserved range: " ++ toString first ++ " is greater than " ++
    toString last) = _
  rw [String.append_assoc, clue_of_number (by simp),
    getLast?_append_ending nonempty, beq_false_of_ne noLetter]

/-- The clue does not depend on what is told of the source. -/
theorem clue_kind (cause : SemanticCause) : clue cause.kind.message = clue cause.message := by
  have quoted (opening ending first second : String) (marked : opening.toList.any marks = true)
      (nonempty : ending ≠ "") : clue (opening ++ first ++ ending) =
        clue (opening ++ second ++ ending) :=
    (clue_of_opening marked nonempty).trans (clue_of_opening marked nonempty).symm
  have counted (opening ending : String) (first second : Int) (nonempty : ending ≠ "") :
      clue (opening ++ toString first ++ ending) = clue (opening ++ toString second ++ ending) :=
    (clue_of_number nonempty).trans (clue_of_number nonempty).symm
  cases cause with
  | unknownEdition name => exact quoted _ _ _ _ (by decide) (by decide)
  | badTypeName kind name => cases kind <;> exact quoted _ _ _ _ (by decide) (by decide)
  | badPackageName name => exact quoted _ _ _ _ (by decide) (by decide)
  | repeatedImport path first => exact quoted _ _ _ _ (by decide) (by decide)
  | reversedRange first last =>
    exact (clue_reversedRange 0 0).trans (clue_reversedRange first last).symm
  | repeatedName name first => exact quoted _ _ _ _ (by decide) (by decide)
  | repeatedFieldNumber number first => exact counted _ _ _ _ (by decide)
  | repeatedEnumNumber number first => exact counted _ _ _ _ (by decide)
  | reservedNumberUsed number reserved => exact counted _ _ _ _ (by decide)
  | reservedNameUsed name reserved => exact quoted _ _ _ _ (by decide) (by decide)
  | badExtendee name => exact quoted _ _ _ _ (by decide) (by decide)
  | badMethodType name => exact quoted _ _ _ _ (by decide) (by decide)
  | _ => rfl

/-- Causes with one message are of one kind. -/
theorem kind_eq_of_message {first second : SemanticCause}
    (same : first.message = second.message) : first.kind = second.kind := by
  refine List.inj_on_of_nodup_map nodup_clues first.kind_mem_kinds second.kind_mem_kinds ?_
  rw [clue_kind, clue_kind, same]

end SemanticCause

end ProtoSchema
