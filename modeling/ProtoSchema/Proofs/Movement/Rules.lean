/-
This file shows that parsers are indifferent to where tokens stand: on tokens
that were moved, with no comments between them, a parser does what it does on
the tokens themselves, and all that it answers has moved with them. As for what
is read, there is one rule for each part that parsers are made of.
-/

import ProtoSchema.Proofs.Grammar.Reading
import ProtoSchema.Proofs.Movement.Faults

namespace ProtoSchema

/-! ### Moved input -/

/-- No comments. -/
def Surroundings.empty : Surroundings := ⟨none, [], none⟩

/-- The token and what it follows stay, the comments go. -/
def Lexeme.moved (move : Move) (lexeme : Lexeme) : Lexeme :=
  ⟨lexeme.token, lexeme.span.moved move, .empty, lexeme.followsBrace⟩

/-- The end is where all that ends last starts and ends. -/
def Setting.moved (move : Move) (setting : Setting) : Setting :=
  ⟨setting.edition, move.start setting.length, .empty⟩

theorem Setting.end_moved {move : Move} (setting : Setting)
    (fits : move.stop setting.length = move.start setting.length) :
    Span.point (setting.moved move).length = (Span.point setting.length).moved move := by
  rw [Span.moved, Span.point, Span.point, fits]
  rfl

/-- What a parser answers has an image of its own; faults and what is left move. -/
def Outcome.moved {Value : Type} (move : Move) (image : Value → Value) :
    Outcome Value → Outcome Value
  | .done value faults rest =>
    .done (image value) (faults.map (SemanticFault.moved move)) (rest.map (Lexeme.moved move))
  | .stopped faults fault =>
    .stopped (faults.map (SemanticFault.moved move)) (GrammarFault.moved move fault)

/-- If a value is answered, it meets the goal. -/
def Outcome.Meets {Value : Type} (goal : Value → Prop) : Outcome Value → Prop
  | .done value _ _ => goal value
  | .stopped _ _ => True

theorem Outcome.moved_after {Value : Type} {move : Move} {image : Value → Value}
    {faults : List SemanticFault} {outcome : Outcome Value} :
    (outcome.after faults).moved move image =
      (outcome.moved move image).after (faults.map (SemanticFault.moved move)) := by
  cases outcome <;> simp [after, moved]

theorem Outcome.Meets.after {Value : Type} {goal : Value → Prop} {faults : List SemanticFault}
    {outcome : Outcome Value} (meets : outcome.Meets goal) : (outcome.after faults).Meets goal := by
  cases outcome <;> exact meets

namespace Parser

variable {Value Result State : Type} {move : Move}

/-- The second parser does on moved input what the first one does, with what it answers replaced by
its image; and what the first one answers meets a goal. -/
def Moves (move : Move) (first second : Parser Value) (image : Value → Value)
    (goal : Value → Prop) : Prop :=
  ∀ (setting : Setting) (lexemes : List Lexeme),
    move.stop setting.length = move.start setting.length →
      second (setting.moved move) (lexemes.map (Lexeme.moved move)) =
        (first setting lexemes).moved move image ∧ (first setting lexemes).Meets goal

namespace Moves

variable {first second : Parser Value} {image : Value → Value} {goal : Value → Prop}
variable {onward movedOnward : Value → Parser Result} {imageOnward : Result → Result}
variable {target : Result → Prop}

theorem bind (moves : Moves move first second image goal)
    (follow : ∀ value, goal value →
      Moves move (onward value) (movedOnward (image value)) imageOnward target) :
    Moves move (first >>= onward) (second >>= movedOnward) imageOnward target := by
  intro setting lexemes fits
  obtain ⟨same, meets⟩ := moves setting lexemes fits
  rw [bind_eq, bind_eq, same]
  cases found : first setting lexemes with
  | stopped faults fault => exact ⟨rfl, trivial⟩
  | done value faults rest =>
    rw [found] at meets
    obtain ⟨onwardSame, onwardMeets⟩ := follow value meets setting rest fits
    refine ⟨?_, onwardMeets.after⟩
    change (movedOnward (image value) _ _).after _ = _
    rw [onwardSame, Outcome.moved_after]

theorem pure {value movedValue : Value} (same : movedValue = image value) (meets : goal value) :
    Moves move (pure value) (pure movedValue) image goal := by
  subst same
  exact fun setting lexemes _ => ⟨rfl, meets⟩

/-! The parts that look around. -/

theorem look {next movedNext : Option Token → Parser Value}
    (moves : ∀ token, Moves move (next token) (movedNext token) image goal) :
    Moves move (look >>= next) (look >>= movedNext) image goal := by
  have tokens : Moves move Parser.look Parser.look id fun _ => True :=
    fun setting lexemes _ => ⟨by cases lexemes <;> rfl, trivial⟩
  exact tokens.bind fun token _ => moves token

theorem ahead {count : Nat} {next movedNext : List Token → Parser Value}
    (moves : ∀ tokens, Moves move (next tokens) (movedNext tokens) image goal) :
    Moves move (ahead count >>= next) (ahead count >>= movedNext) image goal := by
  have tokens : Moves move (Parser.ahead count) (Parser.ahead count) id fun _ => True := by
    intro setting lexemes _
    refine ⟨?_, trivial⟩
    simp only [Parser.ahead, Outcome.moved, ← List.map_take, List.map_map, List.map_nil, id]
    rfl
  exact tokens.bind fun token _ => moves token

theorem followsBrace {next movedNext : Bool → Parser Value}
    (moves : ∀ follows, Moves move (next follows) (movedNext follows) image goal) :
    Moves move (followsBrace >>= next) (followsBrace >>= movedNext) image goal := by
  have follows : Moves move Parser.followsBrace Parser.followsBrace id fun _ => True :=
    fun setting lexemes _ => ⟨by cases lexemes <;> rfl, trivial⟩
  exact follows.bind fun follows _ => moves follows

theorem edition {next movedNext : Option Edition → Parser Value}
    (moves : ∀ declared, Moves move (next declared) (movedNext declared) image goal) :
    Moves move (Parser.edition >>= next) (Parser.edition >>= movedNext) image goal := by
  have declared : Moves move Parser.edition Parser.edition id fun _ => True :=
    fun setting lexemes _ => ⟨rfl, trivial⟩
  exact declared.bind fun declared _ => moves declared

theorem surroundings {next movedNext : Surroundings → Parser Value}
    (moves : ∀ around, Moves move (next around) (movedNext .empty) image goal) :
    Moves move (surroundings >>= next) (surroundings >>= movedNext) image goal := by
  have around : Moves move Parser.surroundings Parser.surroundings (fun _ => .empty)
      fun _ => True :=
    fun setting lexemes _ => by cases lexemes <;> exact ⟨rfl, trivial⟩
  exact around.bind fun around _ => moves around

theorem here {next movedNext : Span → Parser Value}
    (moves : ∀ span, Moves move (next span) (movedNext (span.moved move)) image goal) :
    Moves move (here >>= next) (here >>= movedNext) image goal := by
  have span : Moves move Parser.here Parser.here (Span.moved move) fun _ => True := by
    intro setting lexemes fits
    cases lexemes with
    | nil => exact ⟨congrArg (Outcome.done · [] []) (setting.end_moved fits), trivial⟩
    | cons lexeme rest => exact ⟨rfl, trivial⟩
  exact span.bind fun span _ => moves span

/-! The parts that report or stop. -/

theorem report {faults movedFaults : List SemanticFault} {next movedNext : Unit → Parser Value}
    (same : movedFaults = faults.map (SemanticFault.moved move))
    (moves : Moves move (next ()) (movedNext ()) image goal) :
    Moves move (report faults >>= next) (report movedFaults >>= movedNext) image goal := by
  subst same
  have reported : Moves move (Parser.report faults)
      (Parser.report (faults.map (SemanticFault.moved move))) id fun _ => True :=
    fun setting lexemes _ => ⟨rfl, trivial⟩
  exact reported.bind fun _ _ => moves

theorem stop {cause : GrammarCause} {span : Span} :
    Moves move (stop cause span : Parser Value) (stop cause (span.moved move)) image goal :=
  fun _ _ _ => ⟨rfl, trivial⟩

theorem unexpected {expected : String} :
    Moves move (unexpected expected : Parser Value) (unexpected expected) image goal := by
  intro setting lexemes fits
  cases lexemes with
  | nil =>
    exact ⟨congrArg (fun span => Outcome.stopped [] ⟨.unexpectedEnd expected, span⟩)
      (setting.end_moved fits), trivial⟩
  | cons lexeme rest => exact ⟨rfl, trivial⟩

/-! The parts that take a token. -/

theorem advance_last : Moves move Parser.advance Parser.advance (Span.moved move) fun _ => True := by
  intro setting lexemes fits
  cases lexemes with
  | nil => exact ⟨congrArg (Outcome.done · [] []) (setting.end_moved fits), trivial⟩
  | cons lexeme rest => exact ⟨rfl, trivial⟩

theorem advance {next movedNext : Span → Parser Value}
    (moves : ∀ span, Moves move (next span) (movedNext (span.moved move)) image goal) :
    Moves move (advance >>= next) (advance >>= movedNext) image goal :=
  advance_last.bind fun span _ => moves span

theorem expect {token : Token} {next movedNext : Span → Parser Value}
    (moves : ∀ span, Moves move (next span) (movedNext (span.moved move)) image goal) :
    Moves move (expect token >>= next) (expect token >>= movedNext) image goal := by
  have taken : Moves move (Parser.expect token) (Parser.expect token) (Span.moved move)
      fun _ => True := by
    refine look fun next => ?_
    split
    · exact advance_last
    · exact unexpected
  exact taken.bind fun span _ => moves span

theorem accept {token : Token} {next movedNext : Bool → Parser Value}
    (moves : ∀ taken, Moves move (next taken) (movedNext taken) image goal) :
    Moves move (accept token >>= next) (accept token >>= movedNext) image goal := by
  have accepted : Moves move (Parser.accept token) (Parser.accept token) id fun _ => True := by
    refine look fun next => ?_
    split
    · exact advance fun _ => pure rfl trivial
    · exact pure rfl trivial
  exact accepted.bind fun taken _ => moves taken

/-! Loops keep an invariant. -/

theorem repeating {step : State → Parser (State ⊕ Result)} {state movedState : State}
    (stateImage : State → State) (invariant : State → Prop) (start : invariant state)
    (same : movedState = stateImage state)
    (each : ∀ state, invariant state →
      Moves move (step state) (step (stateImage state)) (Sum.map stateImage imageOnward)
        fun found => found.elim invariant target) :
    Moves move (repeating step state) (repeating step movedState) imageOnward target := by
  subst same
  suffices loop : ∀ (budget : List Lexeme) state, invariant state →
      Moves move (repeatFor step budget state)
        (repeatFor step (budget.map (Lexeme.moved move)) (stateImage state)) imageOnward target from
    fun setting lexemes fits => loop lexemes state start setting lexemes fits
  intro budget
  induction budget with
  | nil =>
    intro state holds
    refine (each state holds).bind fun found kept => ?_
    cases found with
    | inl following => exact here fun _ => stop
    | inr result => exact pure rfl kept
  | cons lexeme budget inductionHypothesis =>
    intro state holds
    refine (each state holds).bind fun found kept => ?_
    cases found with
    | inl following => exact inductionHypothesis following kept
    | inr result => exact pure rfl kept

/-- The edition has no place. -/
theorem inEdition {declared : Option Edition} (moves : Moves move first second image goal) :
    Moves move (inEdition declared first) (inEdition declared second) image goal :=
  fun setting lexemes fits => moves { setting with edition := declared } lexemes fits

end Moves

end Parser

end ProtoSchema
