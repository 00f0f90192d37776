/-
This file reads a field with another word for its name. Nothing that is read before
the name depends on it: where the parser looks ahead, for a group, a map or the name
of a type, it goes by the token that it is at and by those ahead that are no words. So
the same type is read before any word, and the field is the same but for its name.
-/

import ProtoSchema.Proofs.Derivation.Completeness
import ProtoSchema.Proofs.Derivation.Soundness
import ProtoSchema.Proofs.Insertion.Spots
import ProtoSchema.Proofs.Renaming.Tree

namespace ProtoSchema

open ProtoSchema.Parser

/-! ### Another word -/

/-- A token that is not moved is carried. -/
theorem Lexeme.Carried.stay (lexeme : Lexeme) : lexeme.Carried .stay lexeme :=
  ⟨rfl, rfl, rfl, fun _ => rfl⟩

theorem Lexeme.carried_stay (lexemes : List Lexeme) :
    List.Forall₂ (Lexeme.Carried .stay) lexemes lexemes :=
  List.forall₂_same.mpr fun lexeme _ => .stay lexeme

/-- A word that is not the first token is another word. -/
theorem Alongside.of_word {first lexeme other : Lexeme} {before after : List Lexeme}
    (isWord : ∃ text, lexeme.token = .word text) (isOther : ∃ text, other.token = .word text) :
    Alongside .stay (first :: (before ++ lexeme :: after)) (first :: (before ++ other :: after)) := by
  induction before generalizing first with
  | nil => exact .word (.stay first) isWord isOther (Lexeme.carried_stay after)
  | cons second before inductionHypothesis => exact .cons (.stay first) inductionHypothesis

namespace Parser

variable {Value Result : Type} {setting : Setting} {input rest otherRest after : List Lexeme}

/-- What is carried to where it is taken from does not depend on what follows. -/
theorem Carries.stays {parser : Parser Value} {image : Value → Value} {goal : Value → Prop}
    {value : Value} (carries : Carries .stay parser parser image goal)
    (done : parser setting input = .done value [] rest) (alongside : Alongside .stay rest otherRest) :
    goal value ∧ image value = value ∧ ∃ taken, input = taken ++ rest ∧
      parser setting (taken ++ otherRest) = .done value [] otherRest := by
  obtain ⟨meets, taken, rfl, again⟩ := carries.run rfl done
  have same := again setting taken rest rfl rfl (Lexeme.carried_stay taken)
    (.of_carried (Lexeme.carried_stay rest))
  obtain ⟨fixed, -, -⟩ := Outcome.done.inj (same.symm.trans done)
  refine ⟨meets, fixed, taken, rfl, ?_⟩
  have other := again setting taken otherRest rfl rfl (Lexeme.carried_stay taken) alongside
  rwa [fixed] at other

theorem ahead_bind {count : Nat} {next : List Token → Parser Value} :
    (ahead count >>= next) setting input = next ((input.take count).map (·.token)) setting input :=
  after_nil _

/-! ### Types -/

/-- The parser takes some tokens before the first of the two words and does the same, whichever of
the words is behind them. -/
def Overlooks (lexeme other : Lexeme) (parser : Parser Value) : Prop :=
  ∀ (setting : Setting) (input after : List Lexeme) (value : Value),
    parser setting input = .done value [] (lexeme :: after) →
      ∃ first before, input = first :: (before ++ lexeme :: after) ∧
        parser setting (first :: (before ++ other :: after)) = .done value [] (other :: after)

section Types

variable {lexeme other : Lexeme} (isWord : ∃ text, lexeme.token = .word text)
variable (isOther : ∃ text, other.token = .word text)

include isOther

theorem overlooks_typeName : Overlooks lexeme other typeName := by
  intro setting input after name done
  obtain ⟨taken, rfl, isType⟩ := derives_typeName setting name [] _ done
  obtain ⟨first, before, rfl⟩ : ∃ first before, taken = first :: before := by
    cases isType with
    | absolute => exact ⟨_, _, rfl⟩
    | relative isPath =>
      cases isPath with
      | single isName => cases isName; exact ⟨_, _, rfl⟩
      | more before => exact List.exists_cons_of_ne_nil (by simp)
  refine ⟨first, before, rfl, typeName_eq_done isType ?_⟩
  obtain ⟨text, isOther⟩ := isOther
  rintro _ ⟨⟩ isDot
  exact nomatch isOther.symm.trans isDot

/-- A type that is given by its name. -/
theorem overlooks_reference : Overlooks lexeme other reference := by
  intro setting input after type done
  obtain ⟨name, middle, named, ended⟩ := bind_eq_done done
  obtain ⟨rfl, -, rfl⟩ := Outcome.done.inj ended
  obtain ⟨first, before, rfl, again⟩ := overlooks_typeName isOther _ _ _ _ named
  exact ⟨first, before, rfl, bind_of_done again⟩

include isWord

/-- The name behind a type may be any word, which makes no difference to the type. -/
theorem overlooks_valueType : Overlooks lexeme other valueType := by
  intro setting input after type done
  have sameScalar (first : Lexeme) (before : List Lexeme) :
      scalarAhead? (((first :: (before ++ other :: after)).take 2).map (·.token)) =
        scalarAhead? (((first :: (before ++ lexeme :: after)).take 2).map (·.token)) :=
    scalarAhead?_eq ((Alongside.of_word isWord isOther).ahead 2)
  cases input with
  | nil => cases done
  | cons first rest =>
    rw [valueType, look_bind] at done
    cases isFirst : first.token with
    | word text =>
      rw [List.head?_cons, Option.map_some, isFirst] at done
      dsimp only at done
      rw [ahead_bind] at done
      cases scalar : scalarAhead? (((first :: rest).take 2).map (·.token)) with
      | some kind =>
        rw [scalar] at done
        obtain ⟨span, middle, taken, ended⟩ := bind_eq_done done
        obtain ⟨rfl, -, rfl⟩ := Outcome.done.inj taken
        obtain ⟨rfl, -, rfl⟩ := Outcome.done.inj ended
        refine ⟨first, [], rfl, ?_⟩
        refine (look_cons isFirst).trans (ahead_bind.trans ?_)
        rw [(sameScalar first []).trans scalar]
        rfl
      | none =>
        rw [scalar] at done
        obtain ⟨first, before, split, again⟩ := overlooks_reference isOther _ _ _ _ done
        obtain ⟨rfl, rfl⟩ := List.cons.inj split
        refine ⟨_, before, rfl, (look_cons isFirst).trans (ahead_bind.trans ?_)⟩
        rw [(sameScalar _ before).trans scalar]
        exact again
    | symbol mark =>
      rw [List.head?_cons, Option.map_some, isFirst] at done
      cases mark with
      | dot =>
        obtain ⟨first, before, split, again⟩ := overlooks_reference isOther _ _ _ _ done
        obtain ⟨rfl, rfl⟩ := List.cons.inj split
        exact ⟨_, before, rfl, (look_cons isFirst).trans again⟩
      | _ => cases done
    | _ =>
      rw [List.head?_cons, Option.map_some, isFirst] at done
      cases done

/-- Nothing is looked at behind the bracket that closes a map type. -/
theorem overlooks_mapType : Overlooks lexeme other mapType := by
  intro setting input after type done
  obtain ⟨start, _, wordDone, done⟩ := bind_eq_done done
  obtain ⟨_, _, markDone, done⟩ := bind_eq_done done
  obtain ⟨key, _, keyDone, done⟩ := bind_eq_done done
  obtain ⟨_, _, commaDone, done⟩ := bind_eq_done done
  obtain ⟨value, _, valueDone, done⟩ := bind_eq_done done
  obtain ⟨stop, left, angleDone, done⟩ := bind_eq_done done
  obtain ⟨map, rfl, isMap, rfl⟩ := expect_eq_done wordDone
  obtain ⟨mark, rfl, isMark, rfl⟩ := expect_eq_done markDone
  obtain ⟨comma, rfl, isComma, rfl⟩ := expect_eq_done commaDone
  obtain ⟨angle, rfl, isAngle, rfl⟩ := expect_eq_done angleDone
  have isKey : ∃ scalar, mapKey? key = some scalar ∧
      type = some (.map ⟨scalar, key.span, .single value, map.span.through angle.span⟩) ∧
        left = lexeme :: after := by
    cases isKey : mapKey? key with
    | some scalar =>
      rw [isKey] at done
      obtain ⟨rfl, -, rfl⟩ := Outcome.done.inj done
      exact ⟨scalar, rfl, rfl, rfl⟩
    | none =>
      rw [isKey] at done
      obtain ⟨_, _, reported, -⟩ := bind_eq_done done
      cases reported
  obtain ⟨scalar, isKey, rfl, rfl⟩ := isKey
  have behind : Alongside .stay (angle :: lexeme :: after) (angle :: other :: after) :=
    @Alongside.of_word angle lexeme other [] after isWord isOther
  obtain ⟨-, -, taken, rfl, valueAgain⟩ := Carries.stays carries_valueType valueDone behind
  obtain ⟨-, -, keyTaken, rfl, keyAgain⟩ := Carries.stays carries_typeName keyDone
    (behind.append (Lexeme.carried_stay (comma :: taken)))
  refine ⟨map, mark :: (keyTaken ++ comma :: (taken ++ [angle])), by simp, ?_⟩
  have shape : mark :: (keyTaken ++ comma :: (taken ++ [angle])) ++ other :: after =
      mark :: (keyTaken ++ (comma :: taken ++ angle :: other :: after)) := by simp
  rw [shape]
  refine (expect_cons isMap).trans ((expect_cons isMark).trans ((bind_of_done keyAgain).trans ?_))
  refine (expect_cons isComma).trans ((bind_of_done valueAgain).trans ((expect_cons isAngle).trans ?_))
  rw [isKey]
  rfl

/-- The same of any type. -/
theorem overlooks_fieldType : Overlooks lexeme other fieldType := by
  intro setting input after type done
  rw [fieldType, ahead_bind] at done
  have sameMap (first : Lexeme) (before : List Lexeme) :
      startsMap (((first :: (before ++ other :: after)).take 2).map (·.token)) =
        startsMap (((first :: (before ++ lexeme :: after)).take 2).map (·.token)) :=
    startsMap_eq ((Alongside.of_word isWord isOther).ahead 2)
  split at done
  · next isMap =>
    obtain ⟨first, before, rfl, again⟩ := overlooks_mapType isWord isOther _ _ _ _ done
    refine ⟨first, before, rfl, ahead_bind.trans ?_⟩
    rw [sameMap, if_pos isMap]
    exact again
  · next noMap =>
    obtain ⟨found, middle, read, ended⟩ := bind_eq_done done
    obtain ⟨rfl, -, rfl⟩ := Outcome.done.inj ended
    obtain ⟨first, before, rfl, again⟩ := overlooks_valueType isWord isOther _ _ _ _ read
    refine ⟨first, before, rfl, ahead_bind.trans ?_⟩
    rw [sameMap, if_neg noMap]
    exact bind_of_done again

end Types

end Parser

/-! ### Fields -/

/-- The token that the name of the field is read from, not the first one, is another word. -/
inductive Swaps (field : Field) (word : String) : List Lexeme → List Lexeme → Prop where
  | intro {first lexeme : Lexeme} {before after : List Lexeme}
      (isName : lexeme.token = .word field.name.text) (isHere : lexeme.span = field.name.span) :
      Swaps field word (first :: (before ++ lexeme :: after))
        (first :: (before ++ { lexeme with token := .word word } :: after))

namespace Swaps

variable {field : Field} {word : String} {input otherInput : List Lexeme}

theorem alongside (swaps : Swaps field word input otherInput) :
    Alongside .stay input otherInput := by
  obtain ⟨isName, -⟩ := swaps
  exact .of_word ⟨_, isName⟩ ⟨word, rfl⟩

theorem append (swaps : Swaps field word input otherInput) (taken : List Lexeme) :
    Swaps field word (taken ++ input) (taken ++ otherInput) := by
  obtain @⟨first, lexeme, before, after, isName, isHere⟩ := swaps
  cases taken with
  | nil => exact .intro isName isHere
  | cons head taken =>
    simpa using @Swaps.intro field word head lexeme (taken ++ first :: before) after isName isHere

theorem exists_split (swaps : Swaps field word input otherInput) :
    ∃ taken lexeme rest, lexeme.token = .word field.name.text ∧ lexeme.span = field.name.span ∧
      input = taken ++ lexeme :: rest ∧
        otherInput = taken ++ { lexeme with token := .word word } :: rest := by
  obtain @⟨first, lexeme, before, after, isName, isHere⟩ := swaps
  exact ⟨first :: before, lexeme, after, isName, isHere, rfl, rfl⟩

theorem length_eq (swaps : Swaps field word input otherInput) :
    otherInput.length = input.length := by
  obtain ⟨-, -⟩ := swaps
  simp

/-- The first token is no other one. -/
theorem exists_cons {lexeme : Lexeme} {rest : List Lexeme}
    (swaps : Swaps field word (lexeme :: rest) otherInput) :
    ∃ otherRest, otherInput = lexeme :: otherRest := by
  cases swaps with
  | intro => exact ⟨_, rfl⟩

end Swaps

section Fields

variable {setting : Setting} {input left : List Lexeme} {context : FieldContext} {field : Field}

theorem Parser.exists_of_name {name : Name} (done : Parser.name setting input = .done name [] left) :
    ∃ lexeme text, input = lexeme :: left ∧ lexeme.token = .word text ∧
      name = ⟨text, lexeme.span⟩ := by
  obtain ⟨_, rfl, @⟨lexeme, text, isWord⟩⟩ := derives_name setting name [] _ done
  exact ⟨lexeme, text, rfl, isWord, rfl⟩

/-- A field is read with any word for its name. -/
theorem Parser.field_swaps
    (done : Parser.field context setting input = .done (some field) [] left) (word : String) :
    ∃ otherInput, Swaps field word input otherInput ∧
      Parser.field context setting otherInput = .done (some (field.renamed word)) [] left := by
  cases input with
  | nil => cases done
  | cons first rest =>
    obtain ⟨comments, _, commented, done⟩ := bind_eq_done done
    obtain ⟨rfl, -, rfl⟩ := Outcome.done.inj commented
    obtain ⟨start, _, started, done⟩ := bind_eq_done done
    obtain ⟨rfl, -, rfl⟩ := Outcome.done.inj started
    obtain ⟨⟨label, labelSpan⟩, between, labelled, done⟩ := bind_eq_done done
    dsimp only at done
    rw [ahead_bind] at done
    split at done
    · obtain ⟨_, _, -, stopped⟩ := bind_eq_done done
      cases stopped
    · next noGroup =>
      obtain ⟨type, _, typed, done⟩ := bind_eq_done done
      obtain ⟨name, after, named, done⟩ := bind_eq_done done
      obtain ⟨lexeme, text, rfl, isWord, rfl⟩ := exists_of_name named
      obtain ⟨_, _, equals, done⟩ := bind_eq_done done
      obtain ⟨number, _, numbered, done⟩ := bind_eq_done done
      obtain ⟨options, _, set, done⟩ := bind_eq_done done
      obtain ⟨declared, _, asked, done⟩ := bind_eq_done done
      obtain ⟨_, _, reported, done⟩ := bind_eq_done done
      obtain ⟨⟨stop, trailing⟩, _, ended, done⟩ := bind_eq_done done
      obtain ⟨same, -, rfl⟩ := Outcome.done.inj done
      obtain ⟨type, rfl, rfl⟩ := Option.map_eq_some_iff.mp same
      have isOther : ∃ text, ({ lexeme with token := .word word } : Lexeme).token = .word text :=
        ⟨word, rfl⟩
      obtain ⟨head, before, rfl, typedAgain⟩ :=
        overlooks_fieldType ⟨text, isWord⟩ isOther _ _ _ _ typed
      have behind := @Alongside.of_word head lexeme _ before after ⟨text, isWord⟩ isOther
      obtain ⟨-, -, taken, split, labelledAgain⟩ := Carries.stays carries_fieldLabel labelled behind
      refine ⟨taken ++ head :: (before ++ { lexeme with token := .word word } :: after), ?_, ?_⟩
      · rw [split]
        exact Swaps.append (.intro isWord rfl) taken
      -- Whether there is a label or not, the first token is the same.
      obtain ⟨otherRest, starts⟩ : ∃ otherRest, taken ++ head ::
          (before ++ { lexeme with token := .word word } :: after) = first :: otherRest := by
        cases taken with
        | nil => exact ⟨_, congrArg (· :: _) (List.cons.inj split).1.symm⟩
        | cons found taken => exact ⟨_, congrArg (· :: _) (List.cons.inj split).1.symm⟩
      rw [starts] at labelledAgain ⊢
      refine (bind_of_done rfl).trans ((bind_of_done rfl).trans ?_)
      refine (bind_of_done labelledAgain).trans ?_
      dsimp only
      rw [ahead_bind, startsGroup_eq (behind.ahead 5), if_neg noGroup]
      refine (bind_of_done typedAgain).trans ((bind_of_done (name_eq_done (.word rfl))).trans ?_)
      refine (bind_of_done equals).trans ((bind_of_done numbered).trans ((bind_of_done set).trans ?_))
      exact (bind_of_done asked).trans ((bind_of_done reported).trans ((bind_of_done ended).trans rfl))

end Fields

end ProtoSchema
