/-
This file shows that what a parser takes does not depend on what stands after the
closing brace at which it may stop looking. If a parser goes through without a
fault, then it does so on the same tokens at other places, whatever stands after
a closing brace among the tokens that it leaves; and what it answers is what it
answered, at the other places and with the same comments. As for what is read,
there is one rule for each part that parsers are made of. Where a parser looks at
the next token, the rules keep that token in mind: the place of the next token is
moved with it, and where no token is left no parser asks for it and goes on.
-/

import Mathlib.Data.List.Forall2
import ProtoSchema.Proofs.Grammar.Reading
import ProtoSchema.Proofs.Insertion.Tree

namespace ProtoSchema

/-! ### Input at other places -/

/-- The same token at another place, after the same comments. Whether it follows a closing brace
makes a difference to a semicolon alone. -/
structure Lexeme.Carried (move : Move) (first second : Lexeme) : Prop where
  token : second.token = first.token
  span : second.span = first.span.moved move
  before : second.before = first.before
  followsBrace : first.token = .symbol .semicolon → second.followsBrace = first.followsBrace

/-- Inputs with the same tokens up to a closing brace, after which there may be more of the second
input, or to their ends. One word that is not the first token may be another word. -/
inductive Alongside (move : Move) : List Lexeme → List Lexeme → Prop where
  | nil : Alongside move [] []
  | cons {first second : Lexeme} {firstRest secondRest : List Lexeme}
      (carried : first.Carried move second) (rest : Alongside move firstRest secondRest) :
      Alongside move (first :: firstRest) (second :: secondRest)
  | brace {first second : Lexeme} {firstRest secondRest : List Lexeme}
      (carried : first.Carried move second) (closes : first.token = .symbol .rightBrace)
      (fewer : firstRest.length ≤ secondRest.length) :
      Alongside move (first :: firstRest) (second :: secondRest)
  | word {first second word other : Lexeme} {firstRest secondRest : List Lexeme}
      (carried : first.Carried move second) (isWord : ∃ text, word.token = .word text)
      (isOther : ∃ text, other.token = .word text)
      (rest : List.Forall₂ (Lexeme.Carried move) firstRest secondRest) :
      Alongside move (first :: word :: firstRest) (second :: other :: secondRest)

/-- Lists of tokens that are the same up to a closing brace or to their ends, except that one word
that is not the first token may be another word. -/
inductive SameToBrace : List Token → List Token → Prop where
  | nil : SameToBrace [] []
  | cons {token : Token} {first second : List Token} (rest : SameToBrace first second) :
      SameToBrace (token :: first) (token :: second)
  | brace {first second : List Token} :
      SameToBrace (.symbol .rightBrace :: first) (.symbol .rightBrace :: second)
  | word {token : Token} {text other : String} {rest : List Token} :
      SameToBrace (token :: .word text :: rest) (token :: .word other :: rest)

variable {move : Move} {first second : List Lexeme}

/-- Tokens that are carried along are the same. -/
theorem Lexeme.Carried.tokens (carried : List.Forall₂ (Lexeme.Carried move) first second) :
    second.map (·.token) = first.map (·.token) := by
  induction carried with
  | nil => rfl
  | cons same _ inductionHypothesis =>
    rw [List.map_cons, List.map_cons, same.token, inductionHypothesis]

namespace Alongside

/-- Only insertions make a difference, so nothing is lost. -/
theorem length_le (alongside : Alongside move first second) : first.length ≤ second.length := by
  induction alongside with
  | nil => exact Nat.le_refl _
  | cons _ _ inductionHypothesis => exact Nat.succ_le_succ inductionHypothesis
  | brace _ _ fewer => exact Nat.succ_le_succ fewer
  | word _ _ _ rest => exact Nat.le_of_eq (congrArg (· + 2) rest.length_eq)

/-- What is carried along may stand in front. -/
theorem append {taken otherTaken : List Lexeme}
    (carried : List.Forall₂ (Lexeme.Carried move) taken otherTaken)
    (alongside : Alongside move first second) :
    Alongside move (taken ++ first) (otherTaken ++ second) := by
  induction carried with
  | nil => exact alongside
  | cons same _ inductionHypothesis => exact .cons same inductionHypothesis

theorem of_carried (carried : List.Forall₂ (Lexeme.Carried move) first second) :
    Alongside move first second := by
  have alongside := append carried .nil
  rwa [List.append_nil, List.append_nil] at alongside

/-- In front of a token nothing is inserted unless a brace was before it. -/
theorem head? (alongside : Alongside move first second) :
    second.head?.map (·.token) = first.head?.map (·.token) := by
  cases alongside with
  | nil => rfl
  | cons carried _ => exact congrArg some carried.token
  | brace carried _ _ => exact congrArg some carried.token
  | word carried _ _ _ => exact congrArg some carried.token

/-- Where there is a token, the other input starts with the same. -/
theorem exists_cons {lexeme : Lexeme} {rest : List Lexeme}
    (alongside : Alongside move (lexeme :: rest) second) :
    ∃ other otherRest, second = other :: otherRest ∧ other.token = lexeme.token := by
  cases alongside with
  | cons carried _ => exact ⟨_, _, rfl, carried.token⟩
  | brace carried _ _ => exact ⟨_, _, rfl, carried.token⟩
  | word carried _ _ _ => exact ⟨_, _, rfl, carried.token⟩

/-- Looking ahead sees the same up to a brace. -/
theorem ahead (alongside : Alongside move first second) (count : Nat) :
    SameToBrace ((first.take count).map (·.token)) ((second.take count).map (·.token)) := by
  induction alongside generalizing count with
  | nil => simpa using SameToBrace.nil
  | cons carried _ inductionHypothesis =>
    cases count with
    | zero => exact .nil
    | succ count =>
      rw [List.take_succ_cons, List.take_succ_cons, List.map_cons, List.map_cons, carried.token]
      exact .cons (inductionHypothesis count)
  | brace carried closes _ =>
    cases count with
    | zero => exact .nil
    | succ count =>
      rw [List.take_succ_cons, List.take_succ_cons, List.map_cons, List.map_cons, carried.token,
        closes]
      exact .brace
  | word carried isWord isOther rest =>
    obtain ⟨text, isWord⟩ := isWord
    obtain ⟨other, isOther⟩ := isOther
    match count with
    | 0 => exact .nil
    | 1 =>
      simp only [List.take_succ_cons, List.take_zero, List.map_cons, carried.token]
      exact .cons .nil
    | count + 2 =>
      simp only [List.take_succ_cons, List.map_cons, List.map_take, carried.token, isWord, isOther,
        Lexeme.Carried.tokens rest]
      exact .word

end Alongside

/-- What is carried of two parts is carried of each. -/
theorem Lexeme.Carried.split {taken rest others : List Lexeme}
    (carried : List.Forall₂ (Lexeme.Carried move) (taken ++ rest) others) :
    ∃ otherTaken otherRest, others = otherTaken ++ otherRest ∧
      List.Forall₂ (Lexeme.Carried move) taken otherTaken ∧
        List.Forall₂ (Lexeme.Carried move) rest otherRest :=
  ⟨others.take taken.length, others.drop taken.length, (List.take_append_drop _ _).symm,
    (List.forall₂_take_append _ _ _ carried.flip).flip,
    (List.forall₂_drop_append _ _ _ carried.flip).flip⟩

/-- The token at its new place. -/
def Lexeme.carry (move : Move) (lexeme : Lexeme) : Lexeme :=
  { lexeme with span := lexeme.span.moved move }

theorem Lexeme.carried_carry (lexemes : List Lexeme) :
    List.Forall₂ (Lexeme.Carried move) lexemes (lexemes.map (Lexeme.carry move)) :=
  List.forall₂_map_right_iff.mpr (List.forall₂_same.mpr fun _ _ => ⟨rfl, rfl, rfl, fun _ => rfl⟩)

namespace Parser

variable {Value Result State : Type} {head : Option Token}

/-- The first parser, on input with the given next token, takes some tokens if it goes through
without a fault, and what it answers meets a goal. Then the second one takes these tokens at other
places and answers the image. -/
def CarriesAt (move : Move) (head : Option Token) (first second : Parser Value)
    (image : Value → Value) (goal : Value → Prop) : Prop :=
  ∀ (setting other : Setting) (lexemes : List Lexeme) (value : Value) (rest : List Lexeme),
    other.edition = setting.edition → other.atEnd = setting.atEnd →
      lexemes.head?.map (·.token) = head → first setting lexemes = .done value [] rest →
        goal value ∧ ∃ taken, lexemes = taken ++ rest ∧ ∀ otherTaken otherRest,
          List.Forall₂ (Lexeme.Carried move) taken otherTaken → Alongside move rest otherRest →
            second other (otherTaken ++ otherRest) = .done (image value) [] otherRest

/-- The same for all input. -/
abbrev Carries (move : Move) (first second : Parser Value) (image : Value → Value)
    (goal : Value → Prop) : Prop :=
  ∀ {head : Option Token}, CarriesAt move head first second image goal

namespace CarriesAt

variable {first second : Parser Value} {image : Value → Value} {goal : Value → Prop}
variable {onward otherOnward : Value → Parser Result} {imageOnward : Result → Result}
variable {target : Result → Prop}

/-- What was taken does not depend on where it is carried to. -/
theorem run {setting : Setting} {lexemes rest : List Lexeme} {value : Value}
    (carries : CarriesAt move head first second image goal)
    (atHead : lexemes.head?.map (·.token) = head)
    (done : first setting lexemes = .done value [] rest) :
    goal value ∧ ∃ taken, lexemes = taken ++ rest ∧ ∀ (other : Setting) otherTaken otherRest,
      other.edition = setting.edition → other.atEnd = setting.atEnd →
        List.Forall₂ (Lexeme.Carried move) taken otherTaken → Alongside move rest otherRest →
          second other (otherTaken ++ otherRest) = .done (image value) [] otherRest := by
  obtain ⟨meets, taken, rfl, -⟩ := carries setting setting _ value rest rfl rfl atHead done
  refine ⟨meets, taken, rfl, fun other otherTaken otherRest sameEdition sameEnd => ?_⟩
  obtain ⟨-, sameTaken, split, again⟩ :=
    carries setting other _ value rest sameEdition sameEnd atHead done
  obtain rfl := List.append_cancel_right split
  exact again otherTaken otherRest

/-- Parsers are carried along in sequence. -/
theorem bind (carries : CarriesAt move head first second image goal)
    (follow : ∀ value, goal value →
      Carries move (onward value) (otherOnward (image value)) imageOnward target) :
    CarriesAt move head (first >>= onward) (second >>= otherOnward) imageOnward target := by
  intro setting other lexemes result rest sameEdition sameEnd next done
  obtain ⟨value, middle, firstDone, onwardDone⟩ := bind_eq_done done
  obtain ⟨holds, taken, rfl, again⟩ :=
    carries setting other lexemes value middle sameEdition sameEnd next firstDone
  obtain ⟨meets, more, rfl, againOnward⟩ :=
    follow value holds setting other middle result rest sameEdition sameEnd rfl onwardDone
  refine ⟨meets, taken ++ more, (List.append_assoc _ _ _).symm, ?_⟩
  intro others otherRest carried alongside
  obtain ⟨otherTaken, otherMore, rfl, carriedTaken, carriedMore⟩ := Lexeme.Carried.split carried
  rw [bind_eq, List.append_assoc, again otherTaken (otherMore ++ otherRest) carriedTaken
    (alongside.append carriedMore)]
  exact (after_nil _).trans (againOnward otherMore otherRest carriedMore alongside)

/-- A value is answered as it is moved. -/
theorem pure {value otherValue : Value} (same : otherValue = image value) (meets : goal value) :
    CarriesAt move head (pure value) (pure otherValue) image goal := by
  subst same
  intro setting other lexemes found rest _ _ _ done
  obtain ⟨rfl, -, rfl⟩ := Outcome.done.inj done
  refine ⟨meets, [], rfl, ?_⟩
  rintro otherTaken otherRest ⟨⟩ _
  rfl

/-- A parser that never goes through has nothing to carry. -/
theorem never (stops : ∀ setting lexemes value rest, lexemes.head?.map (·.token) = head →
    first setting lexemes ≠ .done value [] rest) :
    CarriesAt move head first second image goal :=
  fun setting _ lexemes value rest _ _ atHead done =>
    absurd done (stops setting lexemes value rest atHead)

/-- A parser that stops if no token is left has nothing to carry there. -/
theorem atEnd (stops : ∀ setting value rest, first setting [] ≠ .done value [] rest) :
    CarriesAt move none first second image goal := by
  refine never fun setting lexemes value rest atHead => ?_
  obtain rfl := List.head?_eq_none_iff.mp (Option.map_eq_none_iff.mp atHead)
  exact stops setting value rest

/-! The parts that look around. -/

/-- What takes nothing is followed up with what it sees in either input. -/
theorem observe {Seen : Type} {see : Parser Seen} {next otherNext : Seen → Parser Value}
    (alike : Seen → Seen → Prop)
    (sees : ∀ {setting other : Setting} {lexemes otherLexemes : List Lexeme},
      other.edition = setting.edition → other.atEnd = setting.atEnd →
        lexemes.head?.map (·.token) = head → Alongside move lexemes otherLexemes →
          ∃ seen otherSeen, see setting lexemes = .done seen [] lexemes ∧
            see other otherLexemes = .done otherSeen [] otherLexemes ∧ alike seen otherSeen)
    (follow : ∀ seen otherSeen, alike seen otherSeen →
      CarriesAt move head (next seen) (otherNext otherSeen) image goal) :
    CarriesAt move head (see >>= next) (see >>= otherNext) image goal := by
  intro setting other lexemes value rest sameEdition sameEnd atHead done
  obtain ⟨seen, middle, saw, nextDone⟩ := bind_eq_done done
  have compare {otherLexemes : List Lexeme} (alongside : Alongside move lexemes otherLexemes) :
      middle = lexemes ∧ ∃ otherSeen, see other otherLexemes = .done otherSeen [] otherLexemes ∧
        alike seen otherSeen := by
    obtain ⟨_, otherSeen, same, otherSaw, related⟩ := sees sameEdition sameEnd atHead alongside
    obtain ⟨rfl, -, rfl⟩ := Outcome.done.inj (saw.symm.trans same)
    exact ⟨rfl, otherSeen, otherSaw, related⟩
  obtain ⟨rfl, otherSeen, -, related⟩ := compare (.of_carried (Lexeme.carried_carry lexemes))
  obtain ⟨meets, taken, rfl, -⟩ :=
    follow seen otherSeen related setting other _ value rest sameEdition sameEnd atHead nextDone
  refine ⟨meets, taken, rfl, fun otherTaken otherRest carried alongside => ?_⟩
  obtain ⟨-, otherSeen, otherSaw, related⟩ := compare (alongside.append carried)
  obtain ⟨-, sameTaken, split, again⟩ :=
    follow seen otherSeen related setting other _ value rest sameEdition sameEnd atHead nextDone
  obtain rfl := List.append_cancel_right split
  rw [bind_eq, otherSaw]
  exact (after_nil _).trans (again otherTaken otherRest carried alongside)

/-- Both see the same token, here and in what follows. -/
theorem look {next otherNext : Option Token → Parser Value}
    (carries : CarriesAt move head (next head) (otherNext head) image goal) :
    CarriesAt move head (look >>= next) (look >>= otherNext) image goal := by
  refine observe (fun seen otherSeen => seen = head ∧ otherSeen = head) ?_ ?_
  · intro setting other lexemes otherLexemes _ _ atHead alongside
    exact ⟨_, _, rfl, rfl, atHead, alongside.head?.trans atHead⟩
  · rintro _ _ ⟨rfl, rfl⟩
    exact carries

/-- What is ahead is the same up to a closing brace, and starts with the next token. -/
theorem ahead {count : Nat} {next otherNext : List Token → Parser Value}
    (carries : ∀ tokens others, SameToBrace tokens others → tokens.head? = head →
      CarriesAt move head (next tokens) (otherNext others) image goal) :
    CarriesAt move head (ahead (count + 1) >>= next) (ahead (count + 1) >>= otherNext) image
      goal := by
  refine observe (fun tokens others => SameToBrace tokens others ∧ tokens.head? = head) ?_ ?_
  · intro setting other lexemes otherLexemes _ _ atHead alongside
    refine ⟨_, _, rfl, rfl, alongside.ahead (count + 1), ?_⟩
    cases lexemes <;> exact atHead
  · intro tokens others ⟨same, first⟩
    exact carries tokens others same first

theorem edition {next otherNext : Option Edition → Parser Value}
    (carries : ∀ declared, CarriesAt move head (next declared) (otherNext declared) image goal) :
    CarriesAt move head (Parser.edition >>= next) (Parser.edition >>= otherNext) image goal := by
  refine observe (fun declared otherDeclared => otherDeclared = declared) ?_ ?_
  · intro setting other lexemes otherLexemes sameEdition _ _ _
    exact ⟨_, _, rfl, rfl, sameEdition⟩
  · rintro _ declared rfl
    exact carries declared

theorem surroundings {next otherNext : Surroundings → Parser Value}
    (carries : ∀ around, CarriesAt move head (next around) (otherNext around) image goal) :
    CarriesAt move head (surroundings >>= next) (surroundings >>= otherNext) image goal := by
  refine observe (fun around otherAround => otherAround = around) ?_ ?_
  · intro setting other lexemes otherLexemes _ sameEnd _ alongside
    cases alongside with
    | nil => exact ⟨_, _, rfl, rfl, sameEnd⟩
    | cons carried _ => exact ⟨_, _, rfl, rfl, carried.before⟩
    | brace carried _ _ => exact ⟨_, _, rfl, rfl, carried.before⟩
    | word carried _ _ _ => exact ⟨_, _, rfl, rfl, carried.before⟩
  · rintro _ around rfl
    exact carries around

/-- The place of the next token is the moved one, if there is a next token. -/
theorem here {token : Token} {next otherNext : Span → Parser Value}
    (carries : ∀ span,
      CarriesAt move (some token) (next span) (otherNext (span.moved move)) image goal) :
    CarriesAt move (some token) (here >>= next) (here >>= otherNext) image goal := by
  refine observe (fun span otherSpan => otherSpan = span.moved move) ?_ ?_
  · intro setting other lexemes otherLexemes _ _ atHead alongside
    cases alongside with
    | nil => cases atHead
    | cons carried _ => exact ⟨_, _, rfl, rfl, carried.span⟩
    | brace carried _ _ => exact ⟨_, _, rfl, rfl, carried.span⟩
    | word carried _ _ _ => exact ⟨_, _, rfl, rfl, carried.span⟩
  · rintro span _ rfl
    exact carries span

/-- Only a semicolon is asked whether it follows a closing brace. -/
theorem followsBrace {next otherNext : Bool → Parser Value}
    (carries : ∀ follows, CarriesAt move (some (.symbol .semicolon)) (next follows)
      (otherNext follows) image goal) :
    CarriesAt move (some (.symbol .semicolon)) (followsBrace >>= next) (followsBrace >>= otherNext)
      image goal := by
  refine observe (fun follows otherFollows => otherFollows = follows) ?_ ?_
  · intro setting other lexemes otherLexemes _ _ atHead alongside
    cases alongside with
    | nil => cases atHead
    | cons carried _ => exact ⟨_, _, rfl, rfl, carried.followsBrace (Option.some.inj atHead)⟩
    | brace carried closes _ =>
      exact absurd (closes.symm.trans (Option.some.inj atHead)) (by decide)
    | word carried _ _ _ => exact ⟨_, _, rfl, rfl, carried.followsBrace (Option.some.inj atHead)⟩
  · rintro _ follows rfl
    exact carries follows

/-! The parts that report or stop. -/

/-- If nothing is found on the one side, nothing is on the other. -/
theorem report {faults otherFaults : List SemanticFault} {next otherNext : Unit → Parser Value}
    (none : faults = [] → otherFaults = [])
    (carries : faults = [] → CarriesAt move head (next ()) (otherNext ()) image goal) :
    CarriesAt move head (report faults >>= next) (report otherFaults >>= otherNext) image goal := by
  by_cases found : faults = []
  · rw [found, none found]
    refine observe (fun _ _ => True) ?_ fun _ _ _ => carries found
    exact fun _ _ _ _ => ⟨_, _, rfl, rfl, trivial⟩
  · refine never fun setting lexemes value rest _ done => ?_
    obtain ⟨_, _, reported, -⟩ := bind_eq_done done
    exact found (Outcome.done.inj reported).2.1

/-- What stops is not said anything of. -/
theorem stop {cause : GrammarCause} {span otherSpan : Span} :
    CarriesAt move head (stop cause span : Parser Value) (stop cause otherSpan) image goal :=
  never fun _ _ _ _ _ done => nomatch done

theorem unexpected {expected : String} :
    CarriesAt move head (unexpected expected : Parser Value) (unexpected expected) image goal := by
  refine never fun setting lexemes value rest _ done => ?_
  cases lexemes <;> cases done

/-- What comes after looking where the next token is may stop anyway. -/
theorem hereStop {cause : GrammarCause} {otherNext : Parser Value} :
    CarriesAt move head (Parser.here >>= Parser.stop cause : Parser Value) otherNext image
      goal := by
  refine never fun setting lexemes value rest _ done => ?_
  obtain ⟨_, _, -, stopped⟩ := bind_eq_done done
  cases stopped

/-! The parts that take a token. -/

theorem advance_last {token : Token} :
    CarriesAt move (some token) Parser.advance Parser.advance (Span.moved move)
      fun _ => True := by
  intro setting other lexemes span rest _ _ atHead done
  cases lexemes with
  | nil => cases atHead
  | cons lexeme left =>
    obtain ⟨rfl, -, rfl⟩ := Outcome.done.inj done
    refine ⟨trivial, [lexeme], rfl, ?_⟩
    rintro _ otherRest (_ | ⟨carried, _ | _⟩) _
    rw [← carried.span]
    rfl

theorem advance {token : Token} {next otherNext : Span → Parser Value}
    (carries : ∀ span, Carries move (next span) (otherNext (span.moved move)) image goal) :
    CarriesAt move (some token) (advance >>= next) (advance >>= otherNext) image goal :=
  advance_last.bind fun span _ => carries span

/-- A token that is expected is taken on both sides. -/
theorem expect {token : Token} {next otherNext : Span → Parser Value}
    (carries : ∀ span, Carries move (next span) (otherNext (span.moved move)) image goal) :
    CarriesAt move head (expect token >>= next) (expect token >>= otherNext) image goal := by
  have taken : CarriesAt move head (Parser.expect token) (Parser.expect token) (Span.moved move)
      fun _ => True := by
    refine look ?_
    split
    · next atHead =>
      rw [atHead]
      exact advance_last
    · exact unexpected
  exact taken.bind fun span _ => carries span

theorem accept {token : Token} {next otherNext : Bool → Parser Value}
    (carries : ∀ taken, Carries move (next taken) (otherNext taken) image goal) :
    CarriesAt move head (accept token >>= next) (accept token >>= otherNext) image goal := by
  have accepted : CarriesAt move head (Parser.accept token) (Parser.accept token) id
      fun _ => True := by
    refine look ?_
    split
    · next atHead =>
      rw [atHead]
      exact advance fun _ => pure rfl trivial
    · exact pure rfl trivial
  exact accepted.bind fun taken _ => carries taken

/-! Loops keep an invariant. There may be more of the second input, and with it more time. -/

/-- A loop is carried along by its steps, given the time on both sides. -/
theorem repeatFor {step : State → Parser (State ⊕ Result)} {stateImage : State → State}
    {invariant : State → Prop}
    (each : ∀ state, invariant state →
      Carries move (step state) (step (stateImage state)) (Sum.map stateImage imageOnward)
        fun found => found.elim invariant target)
    (budget otherBudget : List Lexeme) (fewer : budget.length ≤ otherBudget.length) (state : State)
    (holds : invariant state) :
    Carries move (repeatFor step budget state) (repeatFor step otherBudget (stateImage state))
      imageOnward target := by
  induction budget generalizing otherBudget state with
  | nil =>
    cases otherBudget
    all_goals
      refine (each state holds).bind fun found kept => ?_
      cases found with
      | inl following => exact hereStop
      | inr result => exact pure rfl kept
  | cons lexeme budget inductionHypothesis =>
    cases otherBudget with
    | nil => cases fewer
    | cons other otherBudget =>
      refine (each state holds).bind fun found kept => ?_
      cases found with
      | inl following =>
        exact inductionHypothesis otherBudget (Nat.le_of_succ_le_succ fewer) following kept
      | inr result => exact pure rfl kept

theorem repeating {step : State → Parser (State ⊕ Result)} {state otherState : State}
    (stateImage : State → State) (invariant : State → Prop) (start : invariant state)
    (same : otherState = stateImage state)
    (each : ∀ state, invariant state →
      Carries move (step state) (step (stateImage state)) (Sum.map stateImage imageOnward)
        fun found => found.elim invariant target) :
    CarriesAt move head (repeating step state) (repeating step otherState) imageOnward target := by
  subst same
  intro setting other lexemes result rest sameEdition sameEnd atHead done
  have loop (otherBudget : List Lexeme) (fewer : lexemes.length ≤ otherBudget.length) :=
    repeatFor each lexemes otherBudget fewer state start setting other lexemes result rest
      sameEdition sameEnd atHead done
  obtain ⟨meets, taken, rfl, -⟩ := loop lexemes (Nat.le_refl _)
  refine ⟨meets, taken, rfl, fun otherTaken otherRest carried alongside => ?_⟩
  obtain ⟨-, sameTaken, split, again⟩ :=
    loop (otherTaken ++ otherRest) (alongside.append carried).length_le
  obtain rfl := List.append_cancel_right split
  exact again otherTaken otherRest carried alongside

end CarriesAt

end Parser

end ProtoSchema
