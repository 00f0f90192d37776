/-
This file follows the brackets through what parsers read. A parser that goes through
has read some tokens, and nowhere among them was more open than may be; one that
stops says truly what is nested too deeply. Most parsers close all that they open.
As for what is read, there is one rule for each part that parsers are made of.
-/

import ProtoSchema.Proofs.Grammar.Blocks
import ProtoSchema.Proofs.Nesting.Brackets

namespace ProtoSchema

variable {Value Result State : Type} {nest : Nest} {input : List Lexeme}

/-- What was read of an input, if the tokens before it lead to a nest, and then meets the goal. -/
def Outcome.Nests (length : Nat) (nest : Nest) (input : List Lexeme)
    (goal : Value → Nest → List Lexeme → Prop) : Outcome Value → Prop
  | .done value _ rest => ∃ final, nest.Reads input final rest ∧ goal value final rest
  | .stopped _ fault => ∃ final rest, nest.Reads input final rest ∧ final.StopsAt length rest fault

/-- What was read before goes in front. -/
theorem Outcome.Nests.after {length : Nat} {middle : Nest} {left : List Lexeme}
    {faults : List SemanticFault} {goal : Value → Nest → List Lexeme → Prop}
    {outcome : Outcome Value} (nests : outcome.Nests length middle left goal)
    (reads : nest.Reads input middle left) :
    (outcome.after faults).Nests length nest input goal := by
  cases outcome with
  | done value others rest =>
    obtain ⟨final, more, meets⟩ := nests
    exact ⟨final, reads.trans more, meets⟩
  | stopped others fault =>
    obtain ⟨final, rest, more, stops⟩ := nests
    exact ⟨final, rest, reads.trans more, stops⟩

namespace Parser

/-- From a nest within the bounds, the parser reads within the bounds, and what it answers, the nest
that it leads to and the input that it leaves meet the goal; or it stops where it says. -/
def Nests (nest : Nest) (input : List Lexeme) (parser : Parser Value)
    (goal : Value → Nest → List Lexeme → Prop) : Prop :=
  nest.Bounded → ∀ setting : Setting,
    (parser setting input).Nests setting.length nest input goal

namespace Nests

variable {parser : Parser Value} {onward : Value → Parser Result}
variable {goal weaker : Value → Nest → List Lexeme → Prop}
variable {target : Result → Nest → List Lexeme → Prop}

/-- Less may be said of what is read and of what it leads to. -/
theorem mono (nests : Nests nest input parser goal)
    (implies : ∀ value final rest, goal value final rest → weaker value final rest) :
    Nests nest input parser weaker := by
  intro bounded setting
  have outcome := nests bounded setting
  cases found : parser setting input with
  | done value faults rest =>
    rw [found] at outcome
    obtain ⟨final, reads, meets⟩ := outcome
    exact ⟨final, reads, implies _ _ _ meets⟩
  | stopped faults fault =>
    rw [found] at outcome
    exact outcome

/-- The second parser goes on from the nest that the first one led to. -/
theorem bind (first : Nests nest input parser goal)
    (second : ∀ value middle rest, goal value middle rest →
      Nests middle rest (onward value) target) :
    Nests nest input (parser >>= onward) target := by
  intro bounded setting
  have outcome := first bounded setting
  rw [bind_eq]
  cases found : parser setting input with
  | done value faults rest =>
    rw [found] at outcome
    obtain ⟨middle, reads, meets⟩ := outcome
    exact (second value middle rest meets reads.bounded setting).after reads
  | stopped faults fault =>
    rw [found] at outcome
    exact outcome

theorem pure {value : Value} (meets : goal value nest input) :
    Nests nest input (pure value) goal :=
  fun bounded _ => ⟨nest, .none bounded, meets⟩

/-- A parser that takes no token, in front of another. -/
theorem stay (answer : Setting → Value) {faults : Setting → List SemanticFault}
    (stays : ∀ setting, parser setting input = .done (answer setting) (faults setting) input)
    (nests : ∀ setting, Nests nest input (onward (answer setting)) target) :
    Nests nest input (parser >>= onward) target := by
  intro bounded setting
  rw [bind_eq, stays]
  exact (nests setting bounded setting).after (.none bounded)

/-- Looking opens and closes nothing, here and in what follows. -/
theorem look {next : Option Token → Parser Result}
    (nests : Nests nest input (next (input.head?.map (·.token))) target) :
    Nests nest input (look >>= next) target :=
  stay (fun _ => input.head?.map (·.token)) (fun _ => rfl) fun _ => nests

theorem leadingComments {next : Comments → Parser Result}
    (nests : ∀ comments, Nests nest input (next comments) target) :
    Nests nest input (leadingComments >>= next) target := by
  cases input with
  | nil =>
    exact stay (fun setting => ⟨setting.atEnd.detached, setting.atEnd.leading, none⟩)
      (fun _ => rfl) fun _ => nests _
  | cons lexeme rest =>
    exact stay (fun _ => ⟨lexeme.before.detached, lexeme.before.leading, none⟩)
      (fun _ => rfl) fun _ => nests _

theorem trailingComment {goal : Option String → Nest → List Lexeme → Prop}
    (meets : ∀ comment, goal comment nest input) : Nests nest input trailingComment goal := by
  cases input with
  | nil =>
    exact stay (fun setting => setting.atEnd) (fun _ => rfl) fun _ => pure (meets _)
  | cons lexeme rest =>
    exact stay (fun _ => lexeme.before) (fun _ => rfl) fun _ => pure (meets _)

/-- A parser may stop at the next token, or at the end, if nothing is nested too deeply. -/
theorem stop_here {cause : GrammarCause} (other : ∀ construct, cause ≠ .nestedTooDeeply construct) :
    Nests nest input (here >>= fun span => (stop cause span : Parser Value)) goal := by
  intro bounded setting
  cases input with
  | nil => exact ⟨nest, [], .none bounded, .inr rfl, fun _ same => absurd same (other _)⟩
  | cons lexeme rest =>
    exact ⟨nest, lexeme :: rest, .none bounded, .inr rfl, fun _ same => absurd same (other _)⟩

/-- A parser that stops at a token says nothing of nesting. -/
theorem unexpected {expected : String} :
    Nests nest input (unexpected expected : Parser Value) goal := by
  intro bounded setting
  cases input with
  | nil => exact ⟨nest, [], .none bounded, .inr rfl, fun _ same => GrammarCause.noConfusion same⟩
  | cons lexeme rest =>
    exact ⟨nest, lexeme :: rest, .none bounded, .inr rfl,
      fun _ same => GrammarCause.noConfusion same⟩

/-- What follows where a parser stops does not matter. -/
theorem unexpected_bind {expected : String} :
    Nests nest input ((Parser.unexpected expected : Parser Value) >>= onward) target := by
  have never : Nests nest input (Parser.unexpected expected : Parser Value)
      fun _ _ _ => False := unexpected
  exact never.bind fun _ _ _ => False.elim

theorem advance {token : Token} (head : input.head?.map (·.token) = some token)
    (room : nest.Bounded → (nest.step token).Bounded) :
    Nests nest input advance fun _ final _ => final = nest.step token := by
  obtain ⟨lexeme, found, rfl⟩ := Option.map_eq_some_iff.mp head
  obtain ⟨rest, rfl⟩ := List.head?_eq_some_iff.mp found
  exact fun bounded _ => ⟨nest.step lexeme.token, .take bounded (.none (room bounded)), rfl⟩

/-- A token that is expected may open something, if there is room for it. -/
theorem expect {token : Token} (room : nest.Bounded → (nest.step token).Bounded) :
    Nests nest input (expect token) fun _ final _ => final = nest.step token := by
  refine look ?_
  split
  · next head => exact advance head room
  · exact unexpected

/-- Loops keep an invariant. -/
theorem repeating {step : State → Parser (State ⊕ Result)} {state : State}
    (invariant : Nest → Prop) (start : invariant nest)
    (each : ∀ state nest input, invariant nest →
      Nests nest input (step state) fun found final rest =>
        found.elim (fun _ => invariant final) (target · final rest)) :
    Nests nest input (repeating step state) target := by
  suffices loop : ∀ (budget : List Lexeme) state nest input, invariant nest →
      Nests nest input (repeatFor step budget state) target from
    fun bounded setting => loop input state nest input start bounded setting
  intro budget
  induction budget with
  | nil =>
    intro state nest input holds
    refine (each state nest input holds).bind fun found final rest kept => ?_
    cases found with
    | inl following => exact stop_here fun _ => GrammarCause.noConfusion
    | inr result => exact pure kept
  | cons lexeme budget inductionHypothesis =>
    intro state nest input holds
    refine (each state nest input holds).bind fun found final rest kept => ?_
    cases found with
    | inl following => exact inductionHypothesis following final rest kept
    | inr result => exact pure kept

end Nests

/-! ### Parsers that close what they open -/

variable {known stronger : List (Option Nesting) → Prop} {head : Option Token}

/-- If something is known of what is open and this is the next token, the parser leaves as open what
was open before. -/
def KeepsAt (known : List (Option Nesting) → Prop) (head : Option Token) (parser : Parser Value) :
    Prop :=
  ∀ nest input, input.head?.map (·.token) = head → known nest.opened →
    Nests nest input parser fun _ final _ => final.opened = nest.opened

/-- The same whatever token is next. -/
def Keeps (known : List (Option Nesting) → Prop) (parser : Parser Value) : Prop :=
  ∀ head, KeepsAt known head parser

/-- Where something is known of what is open, the token changes nothing of it. -/
def Flat (known : List (Option Nesting) → Prop) (token : Token) : Prop :=
  ∀ nest : Nest, known nest.opened → nest.openedBy token = nest.opened

/-- What keeps what is open does so wherever it may stand. -/
theorem Keeps.nests {parser : Parser Value} (keeps : Keeps known parser)
    (holds : known nest.opened) :
    Nests nest input parser fun _ final _ => final.opened = nest.opened :=
  keeps _ nest input rfl holds

/-- A parser that keeps what is open whatever that is. -/
theorem Keeps.leaves {parser : Parser Value} (keeps : Keeps (fun _ => True) parser) :
    Nests nest input parser fun _ final _ => final.opened = nest.opened :=
  keeps.nests trivial

/-- What keeps what is open under less keeps it under more. -/
theorem Keeps.weaken {parser : Parser Value} (keeps : Keeps known parser)
    (implies : ∀ opened, stronger opened → known opened) : Keeps stronger parser :=
  fun head nest input same holds => keeps head nest input same (implies _ holds)

namespace KeepsAt

variable {parser : Parser Value} {onward : Value → Parser Result}

/-- Of two parsers in sequence only the first one knows the next token. -/
theorem bind (first : KeepsAt known head parser) (second : ∀ value, Keeps known (onward value)) :
    KeepsAt known head (parser >>= onward) := by
  intro nest input same holds
  refine (first nest input same holds).bind fun value middle rest kept => ?_
  refine ((second value).nests (kept ▸ holds)).mono fun _ final _ keptOn => ?_
  rw [keptOn, kept]

theorem pure {value : Value} : KeepsAt known head (pure value) :=
  fun _ _ _ _ => Nests.pure rfl

/-- A parser that takes no token, in front of another. -/
theorem stay (stays : ∀ setting input, ∃ value faults,
      parser setting input = .done value faults input)
    (keeps : ∀ value, KeepsAt known head (onward value)) :
    KeepsAt known head (parser >>= onward) := by
  intro nest input same holds bounded setting
  obtain ⟨value, faults, eq⟩ := stays setting input
  rw [bind_eq, eq]
  exact (keeps value nest input same holds bounded setting).after (.none bounded)

/-! The parts that look around leave the input as it is. -/

theorem look {next : Option Token → Parser Result} (keeps : KeepsAt known head (next head)) :
    KeepsAt known head (look >>= next) := by
  rintro nest input rfl holds
  exact Nests.look (keeps nest input rfl holds)

theorem ahead {length : Nat} {next : List Token → Parser Result}
    (keeps : ∀ tokens, KeepsAt known head (next tokens)) :
    KeepsAt known head (ahead length >>= next) :=
  stay (fun _ _ => ⟨_, _, rfl⟩) keeps

theorem followsBrace {next : Bool → Parser Result}
    (keeps : ∀ follows, KeepsAt known head (next follows)) :
    KeepsAt known head (followsBrace >>= next) :=
  stay (fun _ _ => ⟨_, _, rfl⟩) keeps

theorem edition {next : Option Edition → Parser Result}
    (keeps : ∀ declared, KeepsAt known head (next declared)) :
    KeepsAt known head (edition >>= next) :=
  stay (fun _ _ => ⟨_, _, rfl⟩) keeps

theorem here {next : Span → Parser Result} (keeps : ∀ span, KeepsAt known head (next span)) :
    KeepsAt known head (here >>= next) :=
  stay (fun _ input => by cases input <;> exact ⟨_, _, rfl⟩) keeps

theorem leadingComments {next : Comments → Parser Result}
    (keeps : ∀ comments, KeepsAt known head (next comments)) :
    KeepsAt known head (leadingComments >>= next) :=
  stay (fun _ input => by cases input <;> exact ⟨_, _, rfl⟩) keeps

theorem trailingComment : KeepsAt known head trailingComment :=
  fun _ _ _ _ => Nests.trailingComment fun _ => rfl

theorem report {faults : List SemanticFault} {next : Unit → Parser Result}
    (keeps : KeepsAt known head (next ())) : KeepsAt known head (report faults >>= next) :=
  stay (fun _ _ => ⟨_, _, rfl⟩) fun _ => keeps

/-! The parts that stop or take a token. -/

/-- A parser may stop for other reasons than nesting. -/
theorem stop_here {cause : GrammarCause} (other : ∀ construct, cause ≠ .nestedTooDeeply construct) :
    KeepsAt known head (Parser.here >>= fun span => (stop cause span : Parser Value)) :=
  fun _ _ _ _ => Nests.stop_here other

theorem unexpected {expected : String} :
    KeepsAt known head (unexpected expected : Parser Value) :=
  fun _ _ _ _ => Nests.unexpected

/-- A token that opens and closes nothing may be taken. -/
theorem advance_last {token : Token} (flat : Flat known token) :
    KeepsAt known (some token) Parser.advance := by
  intro nest input same holds
  refine (Nests.advance same fun bounded => bounded.of_opened (flat nest holds)).mono ?_
  rintro _ _ _ rfl
  exact flat nest holds

theorem advance {token : Token} {next : Span → Parser Result} (flat : Flat known token)
    (keeps : ∀ span, Keeps known (next span)) :
    KeepsAt known (some token) (Parser.advance >>= next) :=
  (advance_last flat).bind keeps

theorem expect_last {token : Token} (flat : Flat known token) :
    KeepsAt known head (Parser.expect token) := by
  refine look ?_
  split
  · next found =>
    rw [found]
    exact advance_last flat
  · exact unexpected

theorem expect {token : Token} {next : Span → Parser Result} (flat : Flat known token)
    (keeps : ∀ span, Keeps known (next span)) :
    KeepsAt known head (Parser.expect token >>= next) :=
  (expect_last flat).bind keeps

theorem accept {token : Token} {next : Bool → Parser Result} (flat : Flat known token)
    (keeps : ∀ taken, Keeps known (next taken)) :
    KeepsAt known head (Parser.accept token >>= next) := by
  refine bind (look ?_) keeps
  split
  · next found =>
    rw [found]
    exact advance flat fun _ _ => pure
  · exact pure

/-- A loop keeps what is open if each step does. -/
theorem repeating {step : State → Parser (State ⊕ Result)} {state : State}
    (each : ∀ state, Keeps known (step state)) : KeepsAt known head (repeating step state) := by
  intro nest input _ holds
  refine Nests.repeating (fun final => final.opened = nest.opened) rfl
    fun state final rest kept => ?_
  refine ((each state).nests (kept ▸ holds)).mono fun found last _ keptOn => ?_
  have both : last.opened = nest.opened := keptOn.trans kept
  cases found with
  | inl following => exact both
  | inr result => exact both

end KeepsAt

end Parser

end ProtoSchema
