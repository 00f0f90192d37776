/-
This file reasons about parsers by the tokens that they read, leaving the places
and the comments of the tokens aside. A parser reads an input if it goes through
without a fault and its answer and the tokens left are as stated; it ensures a
statement if that holds whenever it goes through without a fault. Both are put
together along the parser, one rule for each of its parts.
-/

import ProtoSchema.Grammar.Parser
import ProtoSchema.Proofs.Scanning.Lexical

namespace ProtoSchema

namespace Parser

variable {Value Result State : Type} {declared : Option Edition} {input rest : List Token}
variable {parser : Parser Value} {onward : Value → Parser Result}

/-- The parser goes through the input without a fault, and what it answers and the tokens that are
left meet the goal. -/
def Reads (declared : Option Edition) (input : List Token) (parser : Parser Value)
    (goal : Value → List Token → Prop) : Prop :=
  ∀ (setting : Setting) (lexemes : List Lexeme), setting.edition = declared →
    lexemes.map (·.token) = input → ∃ value rest,
      parser setting lexemes = .done value [] rest ∧ goal value (rest.map (·.token))

/-- Whenever the parser goes through the input without a fault, what it answers and the tokens that
are left meet the goal. -/
def Ensures (declared : Option Edition) (input : List Token) (parser : Parser Value)
    (goal : Value → List Token → Prop) : Prop :=
  Lexical input → ∀ (setting : Setting) (lexemes : List Lexeme) (value : Value)
    (rest : List Lexeme), setting.edition = declared → lexemes.map (·.token) = input →
      parser setting lexemes = .done value [] rest →
        Lexical (rest.map (·.token)) ∧ goal value (rest.map (·.token))

/-- What parsers in sequence do, by what the first one does. -/
theorem bind_eq (setting : Setting) (lexemes : List Lexeme) :
    (parser >>= onward) setting lexemes =
      match parser setting lexemes with
      | .done value faults rest => (onward value setting rest).after faults
      | .stopped faults fault => .stopped faults fault := rfl

theorem pure_eq (value : Value) (setting : Setting) (lexemes : List Lexeme) :
    (pure value : Parser Value) setting lexemes = .done value [] lexemes := rfl

/-- Without faults from before nothing is changed. -/
theorem after_nil (outcome : Outcome Value) : outcome.after [] = outcome := by
  cases outcome <;> rfl

/-- An outcome without faults had none in front. -/
theorem after_eq_done {outcome : Outcome Value} {faults : List SemanticFault} {value : Value}
    {remaining : List Lexeme} (done : outcome.after faults = .done value [] remaining) :
    faults = [] ∧ outcome = .done value [] remaining := by
  cases outcome with
  | stopped => simp [Outcome.after] at done
  | done _ others _ =>
    simp only [Outcome.after, Outcome.done.injEq, List.append_eq_nil_iff] at done
    obtain ⟨rfl, ⟨rfl, rfl⟩, rfl⟩ := done
    exact ⟨rfl, rfl⟩

/-- A parser in sequence that goes through without a fault does so in both parts. -/
theorem bind_eq_done {setting : Setting} {lexemes remaining : List Lexeme} {result : Result}
    (done : (parser >>= onward) setting lexemes = .done result [] remaining) :
    ∃ value middle, parser setting lexemes = .done value [] middle ∧
      onward value setting middle = .done result [] remaining := by
  rw [bind_eq] at done
  split at done
  · next value faults middle first =>
    obtain ⟨rfl, second⟩ := after_eq_done done
    exact ⟨value, middle, first, second⟩
  · exact absurd done (by simp)

/-- A sequence that goes through does so in both parts, and finds the faults of both. -/
theorem exists_of_bind {setting : Setting} {input left : List Lexeme} {result : Result} {faults : List SemanticFault}
    (done : (parser >>= onward) setting input = .done result faults left) :
    ∃ value earlier middle later, parser setting input = .done value earlier middle ∧
      onward value setting middle = .done result later left ∧ faults = earlier ++ later := by
  rw [bind_eq] at done
  split at done
  · next value earlier middle first =>
    cases second : onward value setting middle with
    | stopped later fault =>
      rw [second] at done
      cases done
    | done found later rest =>
      rw [second] at done
      obtain ⟨rfl, rfl, rfl⟩ := Outcome.done.inj done
      exact ⟨value, earlier, middle, later, first, second, rfl⟩
  · cases done

/-- What is done in sequence may be grouped in either way. -/
instance : LawfulMonad Parser := by
  refine LawfulMonad.mk' Parser (fun parser => ?_) (fun value onward => ?_)
    fun first second third => ?_
  · funext setting lexemes
    show (parser >>= pure) setting lexemes = parser setting lexemes
    rw [bind_eq]
    cases parser setting lexemes <;> simp [Outcome.after, pure_eq]
  · funext setting lexemes
    exact after_nil _
  · funext setting lexemes
    simp only [bind_eq]
    cases first setting lexemes with
    | stopped faults fault => rfl
    | done value faults rest =>
      dsimp only
      cases second value setting rest with
      | stopped others fault => rfl
      | done result others left =>
        dsimp only [Outcome.after]
        cases third result setting left <;> simp

/-! ### Reading -/

namespace Reads

variable {goal middle weaker : Value → List Token → Prop}
variable {target : Result → List Token → Prop}

/-- Less may be said of what is read. -/
theorem mono (reads : Reads declared input parser goal)
    (implies : ∀ value rest, goal value rest → weaker value rest) :
    Reads declared input parser weaker := by
  intro setting lexemes sameEdition tokens
  obtain ⟨value, rest, done, meets⟩ := reads setting lexemes sameEdition tokens
  exact ⟨value, rest, done, implies _ _ meets⟩

/-- What is read in sequence, one part after the other. -/
theorem bind (first : Reads declared input parser middle)
    (second : ∀ value rest, middle value rest → Reads declared rest (onward value) target) :
    Reads declared input (parser >>= onward) target := by
  intro setting lexemes sameEdition tokens
  obtain ⟨value, between, firstDone, met⟩ := first setting lexemes sameEdition tokens
  obtain ⟨result, rest, secondDone, meets⟩ :=
    second value _ met setting between sameEdition rfl
  refine ⟨result, rest, ?_, meets⟩
  rw [bind_eq, firstDone]
  exact (after_nil _).trans secondDone

theorem pure {value : Value} (meets : goal value input) :
    Reads declared input (pure value) goal := by
  rintro setting lexemes - rfl
  exact ⟨value, lexemes, rfl, meets⟩

/-! The parts that look around leave the input as it is. -/

/-- The parts that look around may do so by the tokens alone. -/
theorem look {next : Option Token → Parser Result}
    (reads : Reads declared input (next input.head?) target) :
    Reads declared input (look >>= next) target := by
  have first : Reads declared input Parser.look
      fun token rest => token = input.head? ∧ rest = input := by
    rintro setting lexemes - rfl
    exact ⟨_, lexemes, rfl, List.head?_map.symm, rfl⟩
  refine first.bind ?_
  rintro _ _ ⟨rfl, rfl⟩
  exact reads

theorem ahead {count : Nat} {next : List Token → Parser Result}
    (reads : Reads declared input (next (input.take count)) target) :
    Reads declared input (ahead count >>= next) target := by
  have first : Reads declared input (Parser.ahead count)
      fun tokens rest => tokens = input.take count ∧ rest = input := by
    rintro setting lexemes - rfl
    exact ⟨_, lexemes, rfl, List.map_take, rfl⟩
  refine first.bind ?_
  rintro _ _ ⟨rfl, rfl⟩
  exact reads

/-- Places are not told by the tokens, so what follows has to read from any place. -/
theorem here {next : Span → Parser Result}
    (reads : ∀ span, Reads declared input (next span) target) :
    Reads declared input (here >>= next) target := by
  have first : Reads declared input Parser.here fun _ rest => rest = input := by
    rintro setting lexemes - rfl
    cases lexemes <;> exact ⟨_, _, rfl, rfl⟩
  refine first.bind ?_
  rintro span _ rfl
  exact reads span

theorem surroundings {next : Surroundings → Parser Result}
    (reads : ∀ around, Reads declared input (next around) target) :
    Reads declared input (surroundings >>= next) target := by
  have first : Reads declared input Parser.surroundings fun _ rest => rest = input := by
    rintro setting lexemes - rfl
    cases lexemes <;> exact ⟨_, _, rfl, rfl⟩
  refine first.bind ?_
  rintro around _ rfl
  exact reads around

theorem edition {next : Option Edition → Parser Result}
    (reads : Reads declared input (next declared) target) :
    Reads declared input (Parser.edition >>= next) target := by
  have first : Reads declared input Parser.edition
      fun found rest => found = declared ∧ rest = input := by
    rintro setting lexemes rfl rfl
    exact ⟨_, lexemes, rfl, rfl, rfl⟩
  refine first.bind ?_
  rintro _ _ ⟨rfl, rfl⟩
  exact reads

/-- Nothing may be reported. -/
theorem report {faults : List SemanticFault} {next : Unit → Parser Result} (none : faults = [])
    (reads : Reads declared input (next ()) target) :
    Reads declared input (report faults >>= next) target := by
  have first : Reads declared input (Parser.report faults) fun _ rest => rest = input := by
    rintro setting lexemes - rfl
    exact ⟨(), lexemes, by rw [none]; rfl, rfl⟩
  refine first.bind ?_
  rintro _ _ rfl
  exact reads

/-! The parts that take a token. -/

theorem advance {token : Token} {next : Span → Parser Result}
    (reads : ∀ span, Reads declared rest (next span) target) :
    Reads declared (token :: rest) (advance >>= next) target := by
  have first : Reads declared (token :: rest) Parser.advance fun _ left => left = rest := by
    rintro setting lexemes - tokens
    obtain ⟨lexeme, others, rfl, -, rfl⟩ := List.map_eq_cons_iff.mp tokens
    exact ⟨_, _, rfl, rfl⟩
  refine first.bind ?_
  rintro span _ rfl
  exact reads span

/-- A token that is expected has to be the next one. -/
theorem expect {token : Token} {next : Span → Parser Result}
    (reads : ∀ span, Reads declared rest (next span) target) :
    Reads declared (token :: rest) (expect token >>= next) target := by
  have first : Reads declared (token :: rest) (Parser.expect token) fun _ left => left = rest := by
    refine look ?_
    rw [List.head?_cons, if_pos rfl]
    rintro setting lexemes - tokens
    obtain ⟨lexeme, others, rfl, -, rfl⟩ := List.map_eq_cons_iff.mp tokens
    exact ⟨_, _, rfl, rfl⟩
  refine first.bind ?_
  rintro span _ rfl
  exact reads span

theorem accept {token : Token} {next : Bool → Parser Result}
    (reads : Reads declared rest (next true) target) :
    Reads declared (token :: rest) (accept token >>= next) target := by
  have first : Reads declared (token :: rest) (Parser.accept token)
      fun taken left => taken = true ∧ left = rest := by
    refine look ?_
    rw [List.head?_cons, if_pos rfl]
    exact advance fun _ => pure ⟨rfl, rfl⟩
  refine first.bind ?_
  rintro _ _ ⟨rfl, rfl⟩
  exact reads

/-- A token that may be there is left alone if it is not. -/
theorem accept_other {token : Token} {next : Bool → Parser Result}
    (other : input.head? ≠ some token) (reads : Reads declared input (next false) target) :
    Reads declared input (Parser.accept token >>= next) target := by
  have first : Reads declared input (Parser.accept token)
      fun taken left => taken = false ∧ left = input := by
    refine look ?_
    rw [if_neg other]
    exact pure ⟨rfl, rfl⟩
  refine first.bind ?_
  rintro _ _ ⟨rfl, rfl⟩
  exact reads

end Reads

/-! ### Reading in a loop -/

/-- A loop that may still take every token of the input goes through it. -/
def ReadsLoop (declared : Option Edition) (input : List Token)
    (step : State → Parser (State ⊕ Result)) (state : State)
    (goal : Result → List Token → Prop) : Prop :=
  ∀ budget : List Lexeme, input.length ≤ budget.length →
    Reads declared input (repeatFor step budget state) goal

namespace ReadsLoop

variable {step : State → Parser (State ⊕ Result)} {state : State}
variable {goal : Result → List Token → Prop}

/-- The loop ends with this step. -/
theorem last (reads : Reads declared input (step state) fun found rest =>
      ∃ result, found = .inr result ∧ goal result rest) :
    ReadsLoop declared input step state goal := by
  intro budget _
  cases budget <;>
  · refine reads.bind ?_
    rintro _ rest ⟨result, rfl, meets⟩
    exact Reads.pure meets

/-- The loop takes a token or more in this step, and then goes on. -/
theorem next (reads : Reads declared input (step state) fun found rest =>
      ∃ following, found = .inl following ∧ rest.length < input.length ∧
        ReadsLoop declared rest step following goal) :
    ReadsLoop declared input step state goal := by
  intro budget enough
  cases budget with
  | nil =>
    refine reads.bind ?_
    rintro _ rest ⟨following, rfl, shorter, -⟩
    simp only [List.length_nil] at enough
    omega
  | cons lexeme budget =>
    refine reads.bind ?_
    rintro _ rest ⟨following, rfl, shorter, loop⟩
    refine loop budget ?_
    simp only [List.length_cons] at enough
    omega

/-- The loop reads the items of a list, one in each step, and then goes on. What is known of the
state depends on the items read so far. -/
theorem each {Item : Type} (tokens : Item → List Token) (known : List Item → State → Prop)
    (items : List Item)
    (one : ∀ before item after state, items = before ++ item :: after → known before state →
      tokens item ≠ [] ∧
        Reads declared (tokens item ++ (after.flatMap tokens ++ rest)) (step state)
          fun found left => ∃ following, found = .inl following ∧
            known (before ++ [item]) following ∧ left = after.flatMap tokens ++ rest)
    (start : known [] state)
    (go : ∀ state, known items state → ReadsLoop declared rest step state goal) :
    ReadsLoop declared (items.flatMap tokens ++ rest) step state goal := by
  suffices loop : ∀ after before state, items = before ++ after → known before state →
      ReadsLoop declared (after.flatMap tokens ++ rest) step state goal from
    loop items [] state rfl start
  intro after
  induction after with
  | nil =>
    intro before state split knows
    rw [List.append_nil] at split
    exact go state (split ▸ knows)
  | cons item after inductionHypothesis =>
    intro before state split knows
    obtain ⟨some, reads⟩ := one before item after state split knows
    rw [List.flatMap_cons, List.append_assoc]
    refine next (reads.mono ?_)
    rintro _ _ ⟨following, rfl, knows, rfl⟩
    refine ⟨following, rfl, ?_, inductionHypothesis (before ++ [item]) following ?_ knows⟩
    · have positive := List.length_pos_iff.mpr some
      simp only [List.length_append]
      omega
    · rw [split, List.append_assoc, List.singleton_append]

end ReadsLoop

/-- A loop reads what its steps read, given enough time. -/
theorem Reads.repeating {step : State → Parser (State ⊕ Result)} {state : State}
    {goal : Result → List Token → Prop} (loop : ReadsLoop declared input step state goal) :
    Reads declared input (repeating step state) goal := by
  intro setting lexemes sameEdition tokens
  exact loop lexemes (by simp [← tokens]) setting lexemes sameEdition tokens

/-! ### Ensuring -/

namespace Ensures

variable {goal middle weaker : Value → List Token → Prop}
variable {target : Result → List Token → Prop}

/-- Less may be ensured. -/
theorem mono (ensures : Ensures declared input parser goal)
    (implies : ∀ value rest, goal value rest → weaker value rest) :
    Ensures declared input parser weaker := by
  intro lexical setting lexemes value rest sameEdition tokens done
  obtain ⟨left, meets⟩ := ensures lexical setting lexemes value rest sameEdition tokens done
  exact ⟨left, implies _ _ meets⟩

/-- The tokens of the input are known to come from a source. -/
theorem of_lexical (ensures : Lexical input → Ensures declared input parser goal) :
    Ensures declared input parser goal :=
  fun lexical => ensures lexical lexical

/-- What is ensured in sequence, one part after the other. -/
theorem bind (first : Ensures declared input parser middle)
    (second : ∀ value rest, middle value rest → Ensures declared rest (onward value) target) :
    Ensures declared input (parser >>= onward) target := by
  intro lexical setting lexemes result rest sameEdition tokens done
  obtain ⟨value, between, firstDone, secondDone⟩ := bind_eq_done done
  obtain ⟨left, met⟩ := first lexical setting lexemes value between sameEdition tokens firstDone
  exact second value _ met left setting between result rest sameEdition rfl secondDone

theorem pure {value : Value} (meets : goal value input) :
    Ensures declared input (pure value) goal := by
  rintro lexical setting lexemes found rest - rfl done
  obtain ⟨rfl, -, rfl⟩ := Outcome.done.inj done
  exact ⟨lexical, meets⟩

/-! The parts that look around leave the input as it is. -/

theorem look {next : Option Token → Parser Result}
    (ensures : Ensures declared input (next input.head?) target) :
    Ensures declared input (look >>= next) target := by
  have first : Ensures declared input Parser.look
      fun token rest => token = input.head? ∧ rest = input := by
    rintro lexical setting lexemes found rest - rfl done
    obtain ⟨rfl, -, rfl⟩ := Outcome.done.inj done
    exact ⟨lexical, List.head?_map.symm, rfl⟩
  refine first.bind ?_
  rintro _ _ ⟨rfl, rfl⟩
  exact ensures

theorem ahead {count : Nat} {next : List Token → Parser Result}
    (ensures : Ensures declared input (next (input.take count)) target) :
    Ensures declared input (ahead count >>= next) target := by
  have first : Ensures declared input (Parser.ahead count)
      fun tokens rest => tokens = input.take count ∧ rest = input := by
    rintro lexical setting lexemes found rest - rfl done
    obtain ⟨rfl, -, rfl⟩ := Outcome.done.inj done
    exact ⟨lexical, List.map_take, rfl⟩
  refine first.bind ?_
  rintro _ _ ⟨rfl, rfl⟩
  exact ensures

theorem followsBrace {next : Bool → Parser Result}
    (ensures : ∀ follows, Ensures declared input (next follows) target) :
    Ensures declared input (followsBrace >>= next) target := by
  have first : Ensures declared input Parser.followsBrace fun _ rest => rest = input := by
    rintro lexical setting lexemes found rest - rfl done
    obtain ⟨rfl, -, rfl⟩ := Outcome.done.inj done
    exact ⟨lexical, rfl⟩
  refine first.bind ?_
  rintro follows _ rfl
  exact ensures follows

/-- What follows has to ensure the statement from any place. -/
theorem here {next : Span → Parser Result}
    (ensures : ∀ span, Ensures declared input (next span) target) :
    Ensures declared input (here >>= next) target := by
  have first : Ensures declared input Parser.here fun _ rest => rest = input := by
    rintro lexical setting lexemes found rest - rfl done
    cases lexemes <;>
    · obtain ⟨rfl, -, rfl⟩ := Outcome.done.inj done
      exact ⟨lexical, rfl⟩
  refine first.bind ?_
  rintro span _ rfl
  exact ensures span

theorem surroundings {next : Surroundings → Parser Result}
    (ensures : ∀ around, Ensures declared input (next around) target) :
    Ensures declared input (surroundings >>= next) target := by
  have first : Ensures declared input Parser.surroundings fun _ rest => rest = input := by
    rintro lexical setting lexemes found rest - rfl done
    cases lexemes <;>
    · obtain ⟨rfl, -, rfl⟩ := Outcome.done.inj done
      exact ⟨lexical, rfl⟩
  refine first.bind ?_
  rintro around _ rfl
  exact ensures around

theorem edition {next : Option Edition → Parser Result}
    (ensures : Ensures declared input (next declared) target) :
    Ensures declared input (Parser.edition >>= next) target := by
  have first : Ensures declared input Parser.edition
      fun found rest => found = declared ∧ rest = input := by
    rintro lexical setting lexemes found rest rfl rfl done
    obtain ⟨rfl, -, rfl⟩ := Outcome.done.inj done
    exact ⟨lexical, rfl, rfl⟩
  refine first.bind ?_
  rintro _ _ ⟨rfl, rfl⟩
  exact ensures

/-! The parts that take a token. -/

theorem advance {token : Token} {next : Span → Parser Result}
    (ensures : ∀ span, Ensures declared rest (next span) target) :
    Ensures declared (token :: rest) (advance >>= next) target := by
  have first : Ensures declared (token :: rest) Parser.advance fun _ left => left = rest := by
    rintro lexical setting lexemes found left - tokens done
    obtain ⟨lexeme, others, rfl, -, rfl⟩ := List.map_eq_cons_iff.mp tokens
    obtain ⟨rfl, -, rfl⟩ := Outcome.done.inj done
    exact ⟨lexical.tail, rfl⟩
  refine first.bind ?_
  rintro span _ rfl
  exact ensures span

/-! The parts that report or stop. -/

/-- A parser that goes on without a fault has reported none. -/
theorem report {faults : List SemanticFault} {next : Unit → Parser Result}
    (ensures : faults = [] → Ensures declared input (next ()) target) :
    Ensures declared input (report faults >>= next) target := by
  have first : Ensures declared input (Parser.report faults)
      fun _ rest => faults = [] ∧ rest = input := by
    rintro lexical setting lexemes found rest - rfl done
    obtain ⟨rfl, rfl, rfl⟩ := Outcome.done.inj done
    exact ⟨lexical, rfl, rfl⟩
  refine first.bind ?_
  rintro _ _ ⟨none, rfl⟩
  exact ensures none

/-- A parser that stops ensures everything. -/
theorem stop {cause : GrammarCause} {span : Span} :
    Ensures declared input (stop cause span) goal :=
  fun _ _ _ _ _ _ _ done => absurd done (by simp [Parser.stop])

theorem unexpected {expected : String} : Ensures declared input (unexpected expected) goal := by
  rintro - setting lexemes found rest - - done
  cases lexemes <;> exact absurd done (by simp [Parser.unexpected])

/-- Behind a token that was expected, the token is known. -/
theorem expect {token : Token} {next : Span → Parser Result}
    (ensures : ∀ span rest, input = token :: rest → Ensures declared rest (next span) target) :
    Ensures declared input (expect token >>= next) target := by
  have first : Ensures declared input (Parser.expect token)
      fun _ rest => input = token :: rest := by
    refine look ?_
    split
    · next first =>
      obtain ⟨rest, rfl⟩ := List.head?_eq_some_iff.mp first
      rintro lexical setting lexemes found left - tokens done
      obtain ⟨lexeme, others, rfl, -, rfl⟩ := List.map_eq_cons_iff.mp tokens
      obtain ⟨rfl, -, rfl⟩ := Outcome.done.inj done
      exact ⟨lexical.tail, rfl⟩
    · exact unexpected
  exact first.bind ensures

/-- It is known of the next token whether it was accepted. -/
theorem accept {token : Token} {next : Bool → Parser Result}
    (taken : ∀ rest, input = token :: rest → Ensures declared rest (next true) target)
    (left : input.head? ≠ some token → Ensures declared input (next false) target) :
    Ensures declared input (accept token >>= next) target := by
  have first : Ensures declared input (Parser.accept token)
      fun found rest => (found = true ∧ input = token :: rest) ∨
        (found = false ∧ input.head? ≠ some token ∧ rest = input) := by
    refine look ?_
    split
    · next first =>
      obtain ⟨rest, rfl⟩ := List.head?_eq_some_iff.mp first
      exact advance fun _ => pure (.inl ⟨rfl, rfl⟩)
    · next other => exact pure (.inr ⟨rfl, other, rfl⟩)
  refine first.bind ?_
  rintro _ _ (⟨rfl, eq⟩ | ⟨rfl, other, rfl⟩)
  · exact taken _ eq
  · exact left other

/-! Loops keep an invariant. -/

/-- A loop ensures what an invariant of its steps does. -/
theorem repeating {step : State → Parser (State ⊕ Result)} {state : State}
    (invariant : State → List Token → Prop) (start : invariant state input)
    (each : ∀ state input, invariant state input → Ensures declared input (step state)
      fun found rest => found.elim (fun following => invariant following rest) (target · rest)) :
    Ensures declared input (repeating step state) target := by
  suffices loop : ∀ (budget : List Lexeme) state input, invariant state input →
      Ensures declared input (repeatFor step budget state) target from
    fun lexical setting lexemes value rest sameEdition tokens done =>
      loop lexemes state input start lexical setting lexemes value rest sameEdition tokens done
  intro budget
  induction budget with
  | nil =>
    intro state input holds
    refine (each state input holds).bind fun found rest kept => ?_
    cases found with
    | inl following => exact here fun _ => stop
    | inr result => exact pure kept
  | cons lexeme budget inductionHypothesis =>
    intro state input holds
    refine (each state input holds).bind fun found rest kept => ?_
    cases found with
    | inl following => exact inductionHypothesis following rest kept
    | inr result => exact pure kept

end Ensures

end Parser

end ProtoSchema
