/-
This file carries the phrases that declarations are made of to other places. The
comments around a declaration are taken along. An empty statement is carried like
any other: that it follows a closing brace is known of the semicolon itself.
-/

import ProtoSchema.Proofs.Canonical.Phrases
import ProtoSchema.Proofs.Insertion.Rules

namespace ProtoSchema

namespace Parser

variable {Value State Result : Type} {move : Move}

/-! ### Names -/

theorem carries_name : Carries move name name (Name.moved move) fun _ => True := by
  refine CarriesAt.look ?_
  split
  · exact CarriesAt.advance fun _ => CarriesAt.pure rfl trivial
  · exact CarriesAt.unexpected

theorem carries_dottedName :
    Carries move dottedName dottedName (DottedName.moved move) fun found => found.parts ≠ [] := by
  refine carries_name.bind fun first _ => ?_
  refine CarriesAt.repeating (List.map (Name.moved move)) (· ≠ [])
    (List.cons_ne_nil _ _) rfl fun parts nonempty => CarriesAt.accept fun taken => ?_
  split
  · refine carries_name.bind fun part _ => CarriesAt.pure ?_ ?_
    · rw [Sum.map_inl, List.map_append, List.map_singleton]
    · exact List.append_ne_nil_of_right_ne_nil _ (List.cons_ne_nil _ _)
  · exact CarriesAt.pure rfl nonempty

theorem carries_typeName :
    Carries move typeName typeName (TypeName.moved move) fun found => found.path.parts ≠ [] := by
  refine CarriesAt.look ?_
  split
  · exact CarriesAt.advance fun _ =>
      carries_dottedName.bind fun _ some => CarriesAt.pure rfl some
  · exact carries_dottedName.bind fun _ some => CarriesAt.pure rfl some
  · exact CarriesAt.unexpected

/-! ### Literals -/

theorem carries_positiveInt :
    Carries move positiveInt positiveInt (IntLiteral.moved move) fun _ => True := by
  refine CarriesAt.look ?_
  split
  · exact CarriesAt.advance fun _ => CarriesAt.pure rfl trivial
  · exact CarriesAt.unexpected

theorem carries_signedInt {expected : String} :
    Carries move (signedInt expected) (signedInt expected) (IntLiteral.moved move)
      fun _ => True := by
  intro head
  cases head with
  | none => exact CarriesAt.atEnd fun _ _ _ done => nomatch done
  | some first =>
    refine CarriesAt.here fun start => CarriesAt.accept fun negative => CarriesAt.look ?_
    split
    · exact CarriesAt.advance fun _ => CarriesAt.pure rfl trivial
    · exact CarriesAt.unexpected

/-! ### Strings -/

theorem carries_bytes :
    Carries move bytes bytes (Prod.map id (Span.moved move)) fun _ => True := by
  refine CarriesAt.look ?_
  split
  · refine CarriesAt.advance fun start => ?_
    refine CarriesAt.repeating (Prod.map id (Span.moved move)) (fun _ => True) trivial rfl
      fun ⟨value, span⟩ _ => CarriesAt.look ?_
    split
    · exact CarriesAt.advance fun _ => CarriesAt.pure rfl trivial
    · exact CarriesAt.pure rfl trivial
  · exact CarriesAt.unexpected

theorem carries_text : Carries move text text (Name.moved move) fun _ => True := by
  refine carries_bytes.bind fun ⟨value, span⟩ _ => ?_
  dsimp only [Prod.map, id]
  split
  · exact CarriesAt.pure rfl trivial
  · exact CarriesAt.stop

/-! ### Lists -/

theorem carries_commaList {item : Parser Value} {image : Value → Value}
    {ends : Token → Bool} {expected : String}
    (each : Carries move item item image fun _ => True) :
    Carries move (commaList item ends expected) (commaList item ends expected) (List.map image)
      fun _ => True := by
  refine each.bind fun first _ => ?_
  refine CarriesAt.repeating (List.map image) (fun _ => True) trivial rfl
    fun items _ => CarriesAt.look ?_
  split
  · refine CarriesAt.advance fun _ => each.bind fun item _ => CarriesAt.pure ?_ trivial
    rw [Sum.map_inl, List.map_append, List.map_singleton]
  · split
    · exact CarriesAt.pure rfl trivial
    · exact CarriesAt.unexpected
  · exact CarriesAt.unexpected

/-! ### Ends of declarations -/

/-- The comments before a declaration are taken along, and the next token stays. -/
theorem CarriesAt.leadingComments {head : Option Token} {next otherNext : Comments → Parser Value}
    {image : Value → Value} {goal : Value → Prop}
    (carries : ∀ comments, CarriesAt move head (next comments) (otherNext comments) image goal) :
    CarriesAt move head (leadingComments >>= next) (leadingComments >>= otherNext) image goal := by
  rw [Parser.leadingComments, bind_assoc, bind_assoc]
  simp only [pure_bind]
  exact CarriesAt.surroundings fun _ => carries _

theorem carries_trailingComment :
    Carries move trailingComment trailingComment id fun _ => True :=
  CarriesAt.surroundings fun _ => CarriesAt.pure rfl trivial

theorem carries_terminator :
    Carries move terminator terminator (Prod.map (Span.moved move) id) fun _ => True :=
  CarriesAt.expect fun _ =>
    carries_trailingComment.bind fun _ _ => CarriesAt.pure rfl trivial

theorem carries_openBrace : Carries move openBrace openBrace id fun _ => True :=
  CarriesAt.expect fun _ => carries_trailingComment

theorem carries_emptyStatement :
    CarriesAt move (some (.symbol .semicolon)) emptyStatement emptyStatement id
      fun _ => True := by
  refine CarriesAt.followsBrace fun follows => ?_
  split
  · exact CarriesAt.expect fun _ => CarriesAt.pure rfl trivial
  · exact CarriesAt.hereStop

/-! ### Bodies -/

/-- What starts with a token is carried, and keeps an invariant of the state. -/
def CarriesMember (move : Move) (parse : Member State) (image : State → State)
    (invariant : State → Prop) : Prop :=
  ∀ state next, invariant state →
    Option.Rel (fun parser otherParser => Carries move parser otherParser image invariant)
      (parse state next) (parse (image state) next)

theorem carries_member {parse : Member State} {image : State → State} {invariant : State → Prop}
    {expected : String} {state : State} {next : Token}
    (members : CarriesMember move parse image invariant) (holds : invariant state) :
    CarriesAt move (some next) (member parse expected state next)
      (member parse expected (image state) next) image invariant := by
  rw [member, member]
  split
  · next isSemicolon =>
    subst isSemicolon
    exact carries_emptyStatement.bind fun _ _ => CarriesAt.pure rfl holds
  · have found := members state next holds
    generalize parse state next = parser, parse (image state) next = otherParser at found ⊢
    cases found with
    | none => exact CarriesAt.unexpected
    | some carries => exact carries

section Bodies

variable {parse : Member State} {image : State → State} {invariant : State → Prop}
variable {expected : String} {state : State}

theorem carries_bodyStep (members : CarriesMember move parse image invariant)
    (holds : invariant state) :
    Carries move (bodyStep parse expected state) (bodyStep parse expected (image state))
      (Sum.map image (Prod.map image (Span.moved move)))
      fun found => found.elim invariant fun result => invariant result.1 := by
  refine CarriesAt.look ?_
  split
  · exact CarriesAt.advance fun _ => CarriesAt.pure rfl holds
  · exact (carries_member members holds).bind fun _ kept => CarriesAt.pure rfl kept
  · exact CarriesAt.unexpected

theorem carries_body {otherState : State} (members : CarriesMember move parse image invariant)
    (holds : invariant state) (same : otherState = image state) :
    Carries move (body parse expected state) (body parse expected otherState)
      (Prod.map image (Span.moved move)) fun found => invariant found.1 := by
  rw [body_eq, body_eq]
  exact CarriesAt.repeating image invariant holds same fun _ => carries_bodyStep members

theorem carries_topLevelStep (members : CarriesMember move parse image invariant)
    (holds : invariant state) :
    Carries move (topLevelStep parse expected state) (topLevelStep parse expected (image state))
      (Sum.map image image) fun found => found.elim invariant invariant := by
  refine CarriesAt.look ?_
  split
  · exact (carries_member members holds).bind fun _ kept => CarriesAt.pure rfl kept
  · exact CarriesAt.pure rfl holds

end Bodies

end Parser

end ProtoSchema
