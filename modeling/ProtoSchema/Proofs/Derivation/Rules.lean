/-
This file gives the rules by which parsers are compared with the grammar. In one
direction, whatever a parser takes derives from the grammar: the rules follow the
parser part by part, and a loop keeps a derivation of all that it has taken. In the
other direction, a parser takes all of what derives: the loops of the parser are
followed backwards from what stands behind the last item.
-/

import ProtoSchema.Proofs.Derivation.Grammar
import ProtoSchema.Proofs.Grammar.Blocks

namespace ProtoSchema

variable {Value Result State : Type} {setting : Setting} {input rest left : List Lexeme}

/-- A phrase that stands for the value is at the front of the input, before the rest. -/
def AtFront (phrase : Phrase Value) (input : List Lexeme) (value : Value) (rest : List Lexeme) :
    Prop :=
  ∃ taken, input = taken ++ rest ∧ phrase taken value

/-- Tokens in brackets, with what stands behind them. -/
theorem bracketed_append (first : Lexeme) (tokens : List Lexeme) (last : Lexeme)
    (rest : List Lexeme) :
    first :: tokens ++ [last] ++ rest = first :: (tokens ++ last :: rest) := by
  rw [List.append_assoc, List.singleton_append, List.cons_append]

/-- A list with marks between its items goes on with a mark and an item. -/
theorem AtFront.separated {mark : Symbol} {item : Phrase Value} {between : Lexeme}
    {last : List Lexeme} {values : List Value} {value : Value}
    (before : AtFront (Separated mark item) input values (between :: (last ++ rest)))
    (isMark : between.token = .symbol mark) (one : item last value) :
    AtFront (Separated mark item) input (values ++ [value]) rest := by
  obtain ⟨taken, same, separated⟩ := before
  refine ⟨taken ++ between :: last, ?_, .more separated isMark one⟩
  rw [same, List.append_assoc, List.cons_append]

theorem exists_lexeme_of_look {token : Token}
    (looked : input.head?.map (·.token) = some token) :
    ∃ lexeme rest, input = lexeme :: rest ∧ lexeme.token = token := by
  obtain ⟨lexeme, isFirst, same⟩ := Option.map_eq_some_iff.mp looked
  obtain ⟨rest, rfl⟩ := List.head?_eq_some_iff.mp isFirst
  exact ⟨lexeme, rest, rfl, same⟩

namespace Parser

variable {parser : Parser Value} {onward : Value → Parser Result}

/-! ### What is taken -/

/-- Whenever the parser goes through the input, with faults or without, what it answers and the
tokens that are left meet the goal. -/
def Derives (input : List Lexeme) (parser : Parser Value) (goal : Value → List Lexeme → Prop) :
    Prop :=
  ∀ (setting : Setting) (value : Value) (faults : List SemanticFault) (rest : List Lexeme),
    parser setting input = .done value faults rest → goal value rest

namespace Derives

variable {goal middle weaker : Value → List Lexeme → Prop}
variable {target : Result → List Lexeme → Prop}

theorem mono (derives : Derives input parser goal)
    (implies : ∀ value rest, goal value rest → weaker value rest) :
    Derives input parser weaker :=
  fun setting value faults rest done => implies value rest (derives setting value faults rest done)

theorem bind (first : Derives input parser middle)
    (second : ∀ value rest, middle value rest → Derives rest (onward value) target) :
    Derives input (parser >>= onward) target := by
  intro setting result faults rest done
  obtain ⟨value, earlier, between, later, firstDone, secondDone, -⟩ := exists_of_bind done
  have met := first setting value earlier between firstDone
  exact second value between met setting result later rest secondDone

theorem pure {value : Value} (meets : goal value input) : Derives input (pure value) goal := by
  intro setting found faults rest done
  obtain ⟨rfl, -, rfl⟩ := Outcome.done.inj done
  exact meets

/-! The parts that look around leave the input as it is. -/

theorem look {next : Option Token → Parser Result}
    (derives : Derives input (next (input.head?.map (·.token))) target) :
    Derives input (look >>= next) target := by
  intro setting result faults rest done
  rw [look_bind] at done
  exact derives setting result faults rest done

theorem here {next : Span → Parser Result}
    (derives : ∀ span, (∀ first ∈ input.head?, span = first.span) →
      Derives input (next span) target) :
    Derives input (here >>= next) target := by
  have first : Derives input Parser.here fun span rest =>
      (∀ first ∈ input.head?, span = first.span) ∧ rest = input := by
    intro setting span faults rest done
    cases input with
    | nil =>
      obtain ⟨rfl, -, rfl⟩ := Outcome.done.inj done
      refine ⟨?_, rfl⟩
      rintro _ ⟨⟩
    | cons lexeme others =>
      obtain ⟨rfl, -, rfl⟩ := Outcome.done.inj done
      exact ⟨fun _ isFirst => congrArg Lexeme.span (Option.some.inj isFirst), rfl⟩
  refine first.bind ?_
  rintro span _ ⟨isStart, rfl⟩
  exact derives span isStart

theorem followsBrace {next : Bool → Parser Result}
    (derives : ∀ follows, Derives input (next follows) target) :
    Derives input (followsBrace >>= next) target := by
  have first : Derives input Parser.followsBrace fun _ rest => rest = input := by
    intro setting follows faults rest done
    exact (Outcome.done.inj done).2.2.symm
  refine first.bind ?_
  rintro follows _ rfl
  exact derives follows

theorem surroundings {next : Surroundings → Parser Result}
    (derives : ∀ around, Derives input (next around) target) :
    Derives input (surroundings >>= next) target := by
  have first : Derives input Parser.surroundings fun _ rest => rest = input := by
    intro setting around faults rest done
    cases input <;> exact (Outcome.done.inj done).2.2.symm
  refine first.bind ?_
  rintro around _ rfl
  exact derives around

theorem report {found : List SemanticFault} {next : Unit → Parser Result}
    (derives : Derives input (next ()) target) : Derives input (report found >>= next) target := by
  have first : Derives input (Parser.report found) fun _ rest => rest = input := by
    intro setting value faults rest done
    exact (Outcome.done.inj done).2.2.symm
  refine first.bind ?_
  rintro _ _ rfl
  exact derives

/-! The parts that take a token. -/

theorem advance {lexeme : Lexeme} {next : Span → Parser Result}
    (derives : Derives rest (next lexeme.span) target) :
    Derives (lexeme :: rest) (advance >>= next) target := by
  have first : Derives (lexeme :: rest) Parser.advance fun span left =>
      span = lexeme.span ∧ left = rest := by
    intro setting span faults left done
    obtain ⟨rfl, -, rfl⟩ := Outcome.done.inj done
    exact ⟨rfl, rfl⟩
  refine first.bind ?_
  rintro _ _ ⟨rfl, rfl⟩
  exact derives

theorem unexpected {expected : String} : Derives input (unexpected expected) goal := by
  intro setting value faults rest done
  cases input <;> cases done

theorem stop {cause : GrammarCause} {span : Span} : Derives input (stop cause span) goal :=
  fun _ _ _ _ done => nomatch done

theorem expect {token : Token} {next : Span → Parser Result}
    (derives : ∀ lexeme rest, input = lexeme :: rest → lexeme.token = token →
      Derives rest (next lexeme.span) target) :
    Derives input (expect token >>= next) target := by
  have first : Derives input (Parser.expect token) fun span rest =>
      ∃ lexeme, input = lexeme :: rest ∧ lexeme.token = token ∧ span = lexeme.span := by
    refine look ?_
    split
    · next looked =>
      obtain ⟨lexeme, rest, rfl, same⟩ := exists_lexeme_of_look looked
      exact advance (pure ⟨lexeme, rfl, same, rfl⟩)
    · exact unexpected
  refine first.bind ?_
  rintro _ rest ⟨lexeme, isInput, same, rfl⟩
  exact derives lexeme rest isInput same

theorem accept {token : Token} {next : Bool → Parser Result}
    (taken : ∀ lexeme rest, input = lexeme :: rest → lexeme.token = token →
      Derives rest (next true) target)
    (other : Derives input (next false) target) :
    Derives input (accept token >>= next) target := by
  have first : Derives input (Parser.accept token) fun found rest =>
      (found = true ∧ ∃ lexeme, input = lexeme :: rest ∧ lexeme.token = token) ∨
        found = false ∧ rest = input := by
    refine look ?_
    split
    · next looked =>
      obtain ⟨lexeme, rest, rfl, same⟩ := exists_lexeme_of_look looked
      exact advance (pure (.inl ⟨rfl, lexeme, rfl, same⟩))
    · exact pure (.inr ⟨rfl, rfl⟩)
  refine first.bind ?_
  rintro _ rest (⟨rfl, lexeme, isInput, same⟩ | ⟨rfl, rfl⟩)
  · exact taken lexeme rest isInput same
  · exact other

/-! Loops keep what is known of all that they have taken. -/

theorem repeating {step : State → Parser (State ⊕ Result)} {state : State}
    (known : State → List Lexeme → Prop) (start : known state input)
    (each : ∀ state rest, known state rest → Derives rest (step state) fun found left =>
      found.elim (fun following => known following left) (target · left)) :
    Derives input (repeating step state) target := by
  suffices loop : ∀ (budget : List Lexeme) state rest, known state rest →
      Derives rest (repeatFor step budget state) target from
    fun setting => loop input state input start setting
  intro budget
  induction budget with
  | nil =>
    intro state rest knows
    refine (each state rest knows).bind fun found left kept => ?_
    cases found with
    | inl following => exact here fun _ _ => stop
    | inr result => exact pure kept
  | cons lexeme budget inductionHypothesis =>
    intro state rest knows
    refine (each state rest knows).bind fun found left kept => ?_
    cases found with
    | inl following => exact inductionHypothesis following left kept
    | inr result => exact pure kept

end Derives

/-! ### What is to be taken -/

/-- The loop goes through the input from this state, whatever tokens bound its steps, as long as
there are enough of them. -/
def Loops (step : State → Parser (State ⊕ Result)) (setting : Setting) (state : State)
    (input : List Lexeme) (result : Result) (left : List Lexeme) : Prop :=
  ∀ budget : List Lexeme, input.length ≤ budget.length →
    repeatFor step budget state setting input = .done result [] left

namespace Loops

variable {step : State → Parser (State ⊕ Result)} {state following : State} {result : Result}

theorem last (done : step state setting input = .done (.inr result) [] left) :
    Loops step setting state input result left := by
  intro budget _
  cases budget <;>
  · rw [repeatFor, bind_of_done done]
    rfl

theorem next (done : step state setting input = .done (.inl following) [] rest)
    (shorter : rest.length < input.length) (loops : Loops step setting following rest result left) :
    Loops step setting state input result left := by
  intro budget enough
  cases budget with
  | nil => exact absurd (Nat.lt_of_lt_of_le shorter enough) (Nat.not_lt_zero _)
  | cons lexeme budget =>
    rw [repeatFor, bind_of_done done]
    exact loops budget (Nat.le_of_lt_succ (Nat.lt_of_lt_of_le shorter enough))

theorem repeating (loops : Loops step setting state input result left) :
    repeating step state setting input = .done result [] left :=
  loops input (Nat.le_refl _)

end Loops

section Items

variable {item : Phrase Value} {step : List Value → Parser (List Value ⊕ Result)}
variable {result : Result} (ends : List Lexeme → Prop)

/-- The loop takes items one after the other, each before what may stand behind an item. -/
theorem loops_many {tokens : List Lexeme} {values : List Value} (many : Many item tokens values)
    (one : ∀ found tokens value rest, item tokens value → ends rest →
      step found setting (tokens ++ rest) = .done (.inl (found ++ [value])) [] rest)
    (start : ∀ tokens value rest, item tokens value → tokens ≠ [] ∧ ends (tokens ++ rest))
    (behind : ends rest) (go : Loops step setting values rest result left) :
    Loops step setting [] (tokens ++ rest) result left := by
  -- From the last item on, the loop goes as it is said to; so it does from the item before.
  induction many generalizing rest with
  | nil => exact go
  | @more tokens last values value _ isItem inductionHypothesis =>
    obtain ⟨some, starts⟩ := start last value rest isItem
    rw [List.append_assoc]
    refine inductionHypothesis starts (.next (one values last value rest isItem behind) ?_ go)
    rw [List.length_append]
    exact Nat.lt_add_of_pos_left (List.length_pos_iff.mpr some)

/-- A parser takes the first item, and the loop takes each mark with the item behind it. -/
theorem separated_eq_done {mark : Symbol} {parser : Parser Value} {tokens : List Lexeme}
    {values : List Value} (separated : Separated mark item tokens values)
    (first : ∀ tokens value rest, item tokens value → ends rest →
      parser setting (tokens ++ rest) = .done value [] rest)
    (later : ∀ found between tokens value rest, between.token = .symbol mark →
      item tokens value → ends rest →
        step found setting (between :: (tokens ++ rest)) = .done (.inl (found ++ [value])) [] rest)
    (start : ∀ between rest, between.token = .symbol mark → ends (between :: rest))
    (behind : ends rest) (go : Loops step setting values rest result left) :
    (parser >>= fun value => Parser.repeating step [value]) setting (tokens ++ rest) =
      .done result [] left := by
  induction separated generalizing rest with
  | @single tokens value isItem =>
    rw [bind_of_done (first tokens value rest isItem behind)]
    exact go.repeating
  | @more tokens last between values value _ isMark isItem inductionHypothesis =>
    rw [List.append_assoc, List.cons_append]
    refine inductionHypothesis (start between _ isMark)
      (.next (later values between last value rest isMark isItem behind) ?_ go)
    rw [List.length_cons, List.length_append]
    exact Nat.lt_succ_of_le (Nat.le_add_left _ _)

end Items

end Parser

end ProtoSchema
