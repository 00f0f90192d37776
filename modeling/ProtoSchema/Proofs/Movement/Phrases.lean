/-
This file follows the phrases that declarations are made of on moved input. A
dotted name that was read has parts, which is what makes its place move with it.
-/

import ProtoSchema.Grammar.Phrases
import ProtoSchema.Proofs.Movement.Rules

namespace ProtoSchema

namespace Parser

variable {Value State Result : Type} {move : Move}

/-! ### Names -/

theorem moves_name : Moves move name name (Name.moved move) fun _ => True := by
  refine Moves.look fun next => ?_
  split
  · exact Moves.advance fun _ => Moves.pure rfl trivial
  · exact Moves.unexpected

theorem moves_dottedName :
    Moves move dottedName dottedName (DottedName.moved move) fun found => found.parts ≠ [] := by
  refine moves_name.bind fun first _ => ?_
  refine Moves.repeating (List.map (Name.moved move)) (· ≠ [])
    (List.cons_ne_nil _ _) rfl fun parts nonempty => Moves.accept fun taken => ?_
  split
  · refine moves_name.bind fun part _ => Moves.pure ?_ ?_
    · rw [Sum.map_inl, List.map_append, List.map_singleton]
    · exact List.append_ne_nil_of_right_ne_nil _ (List.cons_ne_nil _ _)
  · exact Moves.pure rfl nonempty

theorem moves_typeName :
    Moves move typeName typeName (TypeName.moved move) fun found => found.path.parts ≠ [] := by
  refine Moves.look fun next => ?_
  split
  · exact Moves.advance fun _ => moves_dottedName.bind fun _ some => Moves.pure rfl some
  · exact moves_dottedName.bind fun _ some => Moves.pure rfl some
  · exact Moves.unexpected

/-! ### Literals -/

theorem moves_positiveInt :
    Moves move positiveInt positiveInt (IntLiteral.moved move) fun _ => True := by
  refine Moves.look fun next => ?_
  split
  · exact Moves.advance fun _ => Moves.pure rfl trivial
  · exact Moves.unexpected

theorem moves_signedInt {expected : String} :
    Moves move (signedInt expected) (signedInt expected) (IntLiteral.moved move)
      fun _ => True := by
  refine Moves.here fun start => Moves.accept fun negative => Moves.look fun next => ?_
  split
  · exact Moves.advance fun _ => Moves.pure rfl trivial
  · exact Moves.unexpected

/-! ### Strings -/

theorem moves_bytes :
    Moves move bytes bytes (Prod.map id (Span.moved move)) fun _ => True := by
  refine Moves.look fun next => ?_
  split
  · refine Moves.advance fun start => ?_
    refine Moves.repeating (Prod.map id (Span.moved move)) (fun _ => True) trivial rfl
      fun ⟨value, span⟩ _ => Moves.look fun next => ?_
    split
    · exact Moves.advance fun _ => Moves.pure rfl trivial
    · exact Moves.pure rfl trivial
  · exact Moves.unexpected

theorem moves_text : Moves move text text (Name.moved move) fun _ => True := by
  refine moves_bytes.bind fun ⟨value, span⟩ _ => ?_
  dsimp only [Prod.map, id]
  split
  · exact Moves.pure rfl trivial
  · exact Moves.stop

/-! ### Lists -/

theorem moves_commaList {item : Parser Value} {image : Value → Value}
    {ends : Token → Bool} {expected : String} (each : Moves move item item image fun _ => True) :
    Moves move (commaList item ends expected) (commaList item ends expected) (List.map image)
      fun _ => True := by
  refine each.bind fun first _ => ?_
  refine Moves.repeating (List.map image) (fun _ => True) trivial rfl
    fun items _ => Moves.look fun next => ?_
  split
  · refine Moves.advance fun _ => each.bind fun item _ => Moves.pure ?_ trivial
    rw [Sum.map_inl, List.map_append, List.map_singleton]
  · split
    · exact Moves.pure rfl trivial
    · exact Moves.unexpected
  · exact Moves.unexpected

/-! ### Ends of declarations -/

theorem moves_leadingComments :
    Moves move leadingComments leadingComments (fun _ => .none) fun _ => True :=
  Moves.surroundings fun _ => Moves.pure rfl trivial

theorem moves_trailingComment :
    Moves move trailingComment trailingComment (fun _ => none) fun _ => True :=
  Moves.surroundings fun _ => Moves.pure rfl trivial

theorem moves_terminator :
    Moves move terminator terminator (Prod.map (Span.moved move) fun _ => none) fun _ => True :=
  Moves.expect fun _ => moves_trailingComment.bind fun _ _ => Moves.pure rfl trivial

theorem moves_openBrace : Moves move openBrace openBrace (fun _ => none) fun _ => True :=
  Moves.expect fun _ => moves_trailingComment

theorem moves_emptyStatement : Moves move emptyStatement emptyStatement id fun _ => True := by
  refine Moves.followsBrace fun follows => ?_
  split
  · exact Moves.expect fun _ => Moves.pure rfl trivial
  · exact Moves.here fun _ => Moves.stop

/-! ### Bodies -/

/-- What starts with a token is read on moved input as it is otherwise, and keeps an invariant of
the state. -/
def MovesMember (move : Move) (parse : Member State) (image : State → State)
    (invariant : State → Prop) : Prop :=
  ∀ state next, invariant state →
    Option.Rel (fun parser movedParser => Moves move parser movedParser image invariant)
      (parse state next) (parse (image state) next)

theorem moves_member {parse : Member State} {image : State → State} {invariant : State → Prop}
    {expected : String} {state : State} {next : Token}
    (members : MovesMember move parse image invariant) (holds : invariant state) :
    Moves move (member parse expected state next) (member parse expected (image state) next) image
      invariant := by
  rw [member, member]
  split
  · exact moves_emptyStatement.bind fun _ _ => Moves.pure rfl holds
  · have found := members state next holds
    generalize parse state next = parser, parse (image state) next = movedParser at found ⊢
    cases found with
    | none => exact Moves.unexpected
    | some moves => exact moves

theorem moves_body {parse : Member State} {image : State → State} {invariant : State → Prop}
    {expected : String} {state movedState : State}
    (members : MovesMember move parse image invariant) (holds : invariant state)
    (same : movedState = image state) :
    Moves move (body parse expected state) (body parse expected movedState)
      (Prod.map image (Span.moved move)) fun found => invariant found.1 := by
  refine Moves.repeating image invariant holds same fun state holds => Moves.look fun next => ?_
  split
  · exact Moves.advance fun _ => Moves.pure rfl holds
  · exact (moves_member members holds).bind fun _ kept => Moves.pure rfl kept
  · exact Moves.unexpected

theorem moves_topLevel {parse : Member State} {image : State → State} {invariant : State → Prop}
    {expected : String} {state movedState : State}
    (members : MovesMember move parse image invariant) (holds : invariant state)
    (same : movedState = image state) :
    Moves move (topLevel parse expected state) (topLevel parse expected movedState) image
      invariant := by
  refine Moves.repeating image invariant holds same fun state holds => Moves.look fun next => ?_
  split
  · exact (moves_member members holds).bind fun _ kept => Moves.pure rfl kept
  · exact Moves.pure rfl holds

end Parser

end ProtoSchema
