/-
This file keeps track of where parsers are in their input. A parser that goes
through has taken some tokens, and all that it points at lies before the next
token; one that stops points at the place where it stopped, which lies after all
that it went past. No parser stalls: each step of a repetition takes a token. As
for what is read, there is one rule for each part that parsers are made of.
-/

import ProtoSchema.Proofs.Diagnostic.Spans
import ProtoSchema.Proofs.Grammar.Reading
import ProtoSchema.Proofs.Scanning.Order

namespace ProtoSchema

/-! ### Places -/

/-- The span takes some bytes, all of them before a position. -/
def Span.Before (position : Nat) (span : Span) : Prop :=
  span.start < span.stop ∧ span.stop ≤ position

/-- The span starts at one position and ends before another. -/
def Span.From (start stop : Nat) (span : Span) : Prop :=
  span.start = start ∧ start < span.stop ∧ span.stop ≤ stop

/-- The spans lie before a position. -/
def Passed (position : Nat) (spans : List Span) : Prop :=
  ∀ span ∈ spans, span.Before position

/-- All places that the faults point at lie before a position. -/
def PassedFaults (position : Nat) (faults : List SemanticFault) : Prop :=
  ∀ fault ∈ faults, Passed position fault.spans

/-- Where the next token starts; at the end, a limit that no token goes past. -/
def position (limit : Nat) : List Lexeme → Nat
  | [] => limit
  | lexeme :: _ => lexeme.span.start

section

variable {limit start middle stop : Nat} {span : Span} {spans others : List Span}

/-- What starts behind a point and ends before another one ends before it. -/
theorem Span.From.before (reached : span.From start stop) : span.Before stop := by
  obtain ⟨rfl, some, inside⟩ := reached
  exact ⟨some, inside⟩

/-- What ends before a point ends before all later ones. -/
theorem Span.Before.later (before : span.Before middle) (later : middle ≤ stop) :
    span.Before stop :=
  ⟨before.1, Nat.le_trans before.2 later⟩

theorem Span.From.later (reached : span.From start middle) (later : middle ≤ stop) :
    span.From start stop :=
  ⟨reached.1, reached.2.1, Nat.le_trans reached.2.2 later⟩

/-- From the start of a span to the end of one that was taken later. -/
theorem Span.From.through {first last : Span} (reached : last.From middle stop)
    (starts : first.start = start) (later : start ≤ middle) :
    (first.through last).From start stop := by
  obtain ⟨rfl, some, inside⟩ := reached
  exact ⟨starts, Nat.lt_of_le_of_lt later some, inside⟩

/-- Places that were passed stay passed. -/
theorem Passed.later (passed : Passed middle spans) (later : middle ≤ stop) : Passed stop spans :=
  fun span member => (passed span member).later later

theorem passed_nil : Passed stop [] := fun _ member => absurd member List.not_mem_nil

/-- Places are passed one by one. -/
theorem passed_cons : Passed stop (span :: spans) ↔ span.Before stop ∧ Passed stop spans :=
  List.forall_mem_cons

theorem passed_append : Passed stop (spans ++ others) ↔ Passed stop spans ∧ Passed stop others :=
  List.forall_mem_append

theorem passed_flatMap {Entry : Type} {entries : List Entry} {spansOf : Entry → List Span} :
    Passed stop (entries.flatMap spansOf) ↔ ∀ entry ∈ entries, Passed stop (spansOf entry) :=
  List.forall_mem_flatMap

/-- With one more entry its places are passed as well. -/
theorem passed_concat {Entry : Type} {entries : List Entry} {entry : Entry}
    {spansOf : Entry → List Span} :
    Passed stop ((entries ++ [entry]).flatMap spansOf) ↔
      Passed stop (entries.flatMap spansOf) ∧ Passed stop (spansOf entry) := by
  rw [List.flatMap_append, passed_append, List.flatMap_singleton]

/-- Faults at places that were passed stay so. -/
theorem PassedFaults.later {faults : List SemanticFault} (passed : PassedFaults middle faults)
    (later : middle ≤ stop) : PassedFaults stop faults :=
  fun fault member => (passed fault member).later later

theorem passedFaults_nil : PassedFaults stop [] := fun _ member => absurd member List.not_mem_nil

/-- Faults are said at passed places just in case each of them is. -/
theorem passedFaults_append {faults more : List SemanticFault} :
    PassedFaults stop (faults ++ more) ↔ PassedFaults stop faults ∧ PassedFaults stop more :=
  List.forall_mem_append

theorem passedFaults_flatMap {Entry : Type} {entries : List Entry}
    {faultsOf : Entry → List SemanticFault} :
    PassedFaults stop (entries.flatMap faultsOf) ↔
      ∀ entry ∈ entries, PassedFaults stop (faultsOf entry) :=
  List.forall_mem_flatMap

/-- No token starts behind the end of the source. -/
theorem position_le_limit {lexemes : List Lexeme}
    (increasing : Increasing limit (lexemes.map Lexeme.span)) : position limit lexemes ≤ limit := by
  cases lexemes with
  | nil => exact Nat.le_refl _
  | cons lexeme rest =>
    have inside := increasing.each lexeme.span List.mem_cons_self
    exact Nat.le_trans (Nat.le_of_lt inside.1) inside.2

/-- The next token ends before the one after it starts. -/
theorem head_reached {lexemes : List Lexeme} {lexeme : Lexeme}
    (increasing : Increasing limit ((lexeme :: lexemes).map Lexeme.span)) :
    lexeme.span.From (position limit (lexeme :: lexemes)) (position limit lexemes) := by
  have inside := increasing.each lexeme.span List.mem_cons_self
  refine ⟨rfl, inside.1, ?_⟩
  cases lexemes with
  | nil => exact inside.2
  | cons next rest => exact (List.pairwise_cons.mp increasing.ordered).1 next.span List.mem_cons_self

end

/-! ### Tracking -/

variable {Value Result State : Type} {limit : Nat}

/-- What is kept track of in an outcome of parsing some lexemes: how many were taken at least, where
faults point, and where the parser is. It may stop at the end, which lies past the limit if tokens
go up to there, but faults that it went past do not. -/
def Outcome.Tracks (limit length : Nat) (lexemes : List Lexeme) (count : Value → Nat)
    (goal : Value → Nat → Prop) : Outcome Value → Prop
  | .done value faults rest =>
    Increasing limit (rest.map Lexeme.span) ∧ rest.length + count value ≤ lexemes.length ∧
      position limit lexemes ≤ position limit rest ∧
      PassedFaults (position limit rest) faults ∧ goal value (position limit rest)
  | .stopped faults fault =>
    fault.cause ≠ .stalled ∧ position limit lexemes ≤ fault.span.start ∧
      fault.span.start ≤ fault.span.stop ∧ fault.span.stop ≤ length ∧
      PassedFaults fault.span.start faults ∧ PassedFaults limit faults

/-- Faults found before, and the tokens taken by then, go in front of an outcome. -/
theorem Outcome.Tracks.after {length taken : Nat} {lexemes rest : List Lexeme}
    {count : Value → Nat} {goal : Value → Nat → Prop} {outcome : Outcome Value}
    {faults : List SemanticFault}
    (tracks : outcome.Tracks limit length rest (fun value => count value - taken) goal)
    (fewer : rest.length + taken ≤ lexemes.length)
    (later : position limit lexemes ≤ position limit rest)
    (within : position limit rest ≤ limit) (passed : PassedFaults (position limit rest) faults) :
    (outcome.after faults).Tracks limit length lexemes count goal := by
  cases outcome with
  | done value others left =>
    obtain ⟨increasing, takenLast, laterLast, passedLast, meets⟩ := tracks
    dsimp only at takenLast
    exact ⟨increasing, by omega, Nat.le_trans later laterLast,
      passedFaults_append.mpr ⟨passed.later laterLast, passedLast⟩, meets⟩
  | stopped others fault =>
    obtain ⟨cause, laterLast, proper, bounded, passedLast, inside⟩ := tracks
    exact ⟨cause, Nat.le_trans later laterLast, proper, bounded,
      passedFaults_append.mpr ⟨passed.later laterLast, passedLast⟩,
      passedFaults_append.mpr ⟨passed.later within, inside⟩⟩

namespace Parser

/-- A parser that goes through takes at least so many tokens, and then its answer and its position
meet the goal. All that it points at lies before the next token, or before the place that it stops
at. -/
def Tracks (limit : Nat) (lexemes : List Lexeme) (parser : Parser Value) (count : Value → Nat)
    (goal : Value → Nat → Prop) : Prop :=
  Increasing limit (lexemes.map Lexeme.span) → ∀ setting : Setting, limit ≤ setting.length →
    (parser setting lexemes).Tracks limit setting.length lexemes count goal

/-- What a step of a repetition takes: a token or more, unless it is the last. -/
def stepCount : State ⊕ Result → Nat :=
  Sum.elim (fun _ => 1) fun _ => 0

namespace Tracks

variable {lexemes : List Lexeme} {parser : Parser Value} {onward : Value → Parser Result}
variable {count least : Value → Nat} {total : Result → Nat}
variable {goal weaker : Value → Nat → Prop} {target : Result → Nat → Prop}

/-- Less may be said of what was taken and of the answer. -/
theorem mono (tracks : Tracks limit lexemes parser count goal)
    (less : ∀ value, least value ≤ count value)
    (implies : ∀ value after, goal value after → weaker value after) :
    Tracks limit lexemes parser least weaker := by
  intro increasing setting inside
  have outcome := tracks increasing setting inside
  cases found : parser setting lexemes with
  | done value faults rest =>
    rw [found] at outcome
    obtain ⟨left, taken, later, passed, meets⟩ := outcome
    exact ⟨left, Nat.le_trans (Nat.add_le_add_left (less value) _) taken, later, passed,
      implies _ _ meets⟩
  | stopped faults fault =>
    rw [found] at outcome
    exact outcome

/-- It is enough to know of fewer tokens that were taken. -/
theorem fewer (tracks : Tracks limit lexemes parser count goal)
    (less : ∀ value, least value ≤ count value) : Tracks limit lexemes parser least goal :=
  tracks.mono less fun _ _ meets => meets

/-- The second parser goes on where the first one stopped, with what it has to take still. -/
theorem bind_of_taken (first : Tracks limit lexemes parser count goal)
    (second : ∀ value rest, rest.length + count value ≤ lexemes.length →
      position limit lexemes ≤ position limit rest → goal value (position limit rest) →
      Tracks limit rest (onward value) (fun result => total result - count value) target) :
    Tracks limit lexemes (parser >>= onward) total target := by
  intro increasing setting inside
  have firstOutcome := first increasing setting inside
  rw [bind_eq]
  cases found : parser setting lexemes with
  | stopped faults fault =>
    rw [found] at firstOutcome
    exact firstOutcome
  | done value faults rest =>
    rw [found] at firstOutcome
    obtain ⟨left, taken, later, passed, meets⟩ := firstOutcome
    exact (second value rest taken later meets left setting inside).after taken later
      (position_le_limit left) passed

theorem bind (first : Tracks limit lexemes parser count goal)
    (second : ∀ value rest, position limit lexemes ≤ position limit rest →
      goal value (position limit rest) →
      Tracks limit rest (onward value) (fun result => total result - count value) target) :
    Tracks limit lexemes (parser >>= onward) total target :=
  first.bind_of_taken fun value rest _ => second value rest

/-- Nothing is taken. -/
theorem pure {value : Value} (none : count value = 0) (meets : goal value (position limit lexemes)) :
    Tracks limit lexemes (pure value) count goal := by
  intro increasing setting _
  exact ⟨increasing, by rw [none]; exact Nat.le_refl _, Nat.le_refl _,
    passedFaults_nil, meets⟩

/-- A parser that takes no token, in front of another. -/
theorem stay (answer : Setting → Value) {faults : List SemanticFault}
    (stays : ∀ setting, parser setting lexemes = .done (answer setting) faults lexemes)
    (passed : PassedFaults (position limit lexemes) faults)
    (tracks : ∀ setting, Tracks limit lexemes (onward (answer setting)) total target) :
    Tracks limit lexemes (parser >>= onward) total target := by
  intro increasing setting inside
  rw [bind_eq, stays]
  have onwards : (onward (answer setting) setting lexemes).Tracks limit setting.length lexemes
      (fun result => total result - 0) target := tracks setting increasing setting inside
  exact onwards.after (Nat.le_refl _) (Nat.le_refl _) (position_le_limit increasing) passed

/-- A parser that takes no token and finds no fault, in front of another. -/
theorem peek (answer : Setting → Value)
    (stays : ∀ setting, parser setting lexemes = .done (answer setting) [] lexemes)
    (tracks : ∀ setting, Tracks limit lexemes (onward (answer setting)) total target) :
    Tracks limit lexemes (parser >>= onward) total target :=
  stay answer stays passedFaults_nil tracks

/-! The parts that look around leave the input as it is. -/

/-- Looking takes nothing, here and in what follows. -/
theorem look {next : Option Token → Parser Result}
    (tracks : Tracks limit lexemes (next (lexemes.head?.map (·.token))) total target) :
    Tracks limit lexemes (look >>= next) total target :=
  peek (fun _ => lexemes.head?.map (·.token)) (fun _ => rfl) fun _ => tracks

theorem ahead {length : Nat} {next : List Token → Parser Result}
    (tracks : ∀ tokens, Tracks limit lexemes (next tokens) total target) :
    Tracks limit lexemes (ahead length >>= next) total target :=
  peek (fun _ => (lexemes.take length).map (·.token)) (fun _ => rfl) fun _ => tracks _

theorem followsBrace {next : Bool → Parser Result}
    (tracks : ∀ follows, Tracks limit lexemes (next follows) total target) :
    Tracks limit lexemes (followsBrace >>= next) total target :=
  peek (fun _ => lexemes.head?.any (·.followsBrace)) (fun _ => rfl) fun _ => tracks _

theorem edition {next : Option Edition → Parser Result}
    (tracks : ∀ declared, Tracks limit lexemes (next declared) total target) :
    Tracks limit lexemes (Parser.edition >>= next) total target :=
  peek (fun setting => setting.edition) (fun _ => rfl) fun _ => tracks _

theorem surroundings {next : Surroundings → Parser Result}
    (tracks : ∀ around, Tracks limit lexemes (next around) total target) :
    Tracks limit lexemes (surroundings >>= next) total target := by
  cases lexemes with
  | nil => exact peek (fun setting => setting.atEnd) (fun _ => rfl) fun _ => tracks _
  | cons lexeme rest =>
    exact peek (fun _ => lexeme.before) (fun _ => rfl) fun _ => tracks _

/-- The place of the next token starts where the parser is. -/
theorem here {next : Span → Parser Result}
    (tracks : ∀ span, (lexemes ≠ [] → span.start = position limit lexemes) →
      Tracks limit lexemes (next span) total target) :
    Tracks limit lexemes (here >>= next) total target := by
  cases lexemes with
  | nil =>
    exact peek (fun setting => .point setting.length) (fun _ => rfl)
      fun _ => tracks _ fun some => absurd rfl some
  | cons lexeme rest =>
    exact peek (fun _ => lexeme.span) (fun _ => rfl) fun _ => tracks _ fun _ => rfl

/-! The parts that report or stop. -/

/-- A fault may be reported if its places were passed. -/
theorem report {faults : List SemanticFault} {next : Unit → Parser Result}
    (passed : PassedFaults (position limit lexemes) faults)
    (tracks : Tracks limit lexemes (next ()) total target) :
    Tracks limit lexemes (report faults >>= next) total target :=
  stay (fun _ => ()) (fun _ => rfl) passed fun _ => tracks

/-- A parser may stop at the next token, or at the end. -/
theorem stop_here {cause : GrammarCause} (cause_ne : cause ≠ .stalled) :
    Tracks limit lexemes (Parser.here >>= fun span => (Parser.stop cause span : Parser Value)) count
      goal := by
  intro increasing setting inside
  cases lexemes with
  | nil =>
    exact ⟨cause_ne, inside, Nat.le_refl _, Nat.le_refl _, passedFaults_nil, passedFaults_nil⟩
  | cons lexeme rest =>
    have within := increasing.each lexeme.span List.mem_cons_self
    exact ⟨cause_ne, Nat.le_refl _, Nat.le_of_lt within.1, Nat.le_trans within.2 inside,
      passedFaults_nil, passedFaults_nil⟩

/-- A parser that stops is asked for nothing. -/
theorem unexpected {expected : String} :
    Tracks limit lexemes (unexpected expected : Parser Value) count goal := by
  intro increasing setting inside
  cases lexemes with
  | nil =>
    exact ⟨GrammarCause.noConfusion, inside, Nat.le_refl _, Nat.le_refl _, passedFaults_nil,
      passedFaults_nil⟩
  | cons lexeme rest =>
    have within := increasing.each lexeme.span List.mem_cons_self
    exact ⟨GrammarCause.noConfusion, Nat.le_refl _, Nat.le_of_lt within.1,
      Nat.le_trans within.2 inside, passedFaults_nil, passedFaults_nil⟩

/-! The parts that take a token. -/

theorem ne_nil_of_head {token : Token} (head : lexemes.head?.map (·.token) = some token) :
    lexemes ≠ [] := by
  rintro rfl
  cases head

/-- Taking a token passes it. -/
theorem advance_last {token : Token} (head : lexemes.head?.map (·.token) = some token) :
    Tracks limit lexemes Parser.advance (fun _ => 1)
      fun span after => span.From (position limit lexemes) after := by
  obtain ⟨lexeme, found, -⟩ := Option.map_eq_some_iff.mp head
  obtain ⟨rest, rfl⟩ := List.head?_eq_some_iff.mp found
  intro increasing setting _
  have reached := head_reached increasing
  exact ⟨increasing.sublist (List.sublist_cons_self _ _), Nat.le_refl _,
    Nat.le_trans (Nat.le_of_lt reached.2.1) reached.2.2,
    passedFaults_nil, reached⟩

theorem advance {token : Token} {next : Span → Parser Result}
    (head : lexemes.head?.map (·.token) = some token)
    (tracks : ∀ span rest, position limit lexemes ≤ position limit rest →
      span.From (position limit lexemes) (position limit rest) →
      Tracks limit rest (next span) (fun result => total result - 1) target) :
    Tracks limit lexemes (advance >>= next) total target :=
  (advance_last head).bind fun span rest later reached => tracks span rest later reached

/-- At the end there is nothing to take. -/
theorem advance_any : Tracks limit lexemes Parser.advance (fun _ => 0) fun _ _ => True := by
  cases lexemes with
  | nil =>
    exact fun increasing _ _ => ⟨increasing, Nat.le_refl _, Nat.le_refl _, passedFaults_nil, trivial⟩
  | cons lexeme rest =>
    have taken : Tracks limit (lexeme :: rest) Parser.advance _ _ := advance_last rfl
    exact taken.mono (fun _ => Nat.zero_le _) fun _ _ _ => trivial

theorem expect_last {token : Token} :
    Tracks limit lexemes (expect token) (fun _ => 1)
      fun span after => span.From (position limit lexemes) after := by
  refine look ?_
  split
  · next head => exact advance_last head
  · exact unexpected

/-- A token that is expected is taken and passed. -/
theorem expect {token : Token} {next : Span → Parser Result}
    (tracks : ∀ span rest, position limit lexemes ≤ position limit rest →
      span.From (position limit lexemes) (position limit rest) →
      Tracks limit rest (next span) (fun result => total result - 1) target) :
    Tracks limit lexemes (Parser.expect token >>= next) total target :=
  expect_last.bind fun span rest later reached => tracks span rest later reached

/-- A token that may be there is taken if it is. -/
theorem accept {token : Token} {next : Bool → Parser Result}
    (taken : ∀ rest, lexemes ≠ [] → position limit lexemes ≤ position limit rest →
      Tracks limit rest (next true) (fun result => total result - 1) target)
    (left : Tracks limit lexemes (next false) total target) :
    Tracks limit lexemes (accept token >>= next) total target := by
  rw [Parser.accept, bind_assoc]
  refine look ?_
  split
  · next head =>
    rw [bind_assoc]
    refine advance head fun span rest later _ => ?_
    rw [pure_bind]
    exact taken rest (ne_nil_of_head head) later
  · rw [pure_bind]
    exact left

/-! Loops keep an invariant. -/

/-- A loop keeps an invariant that each step keeps, and takes something each time. -/
theorem repeating {step : State → Parser (State ⊕ Result)} {state : State}
    (invariant : State → Nat → Prop) (start : invariant state (position limit lexemes))
    (each : ∀ state lexemes, invariant state (position limit lexemes) →
      Tracks limit lexemes (step state) stepCount fun found after =>
        found.elim (invariant · after) (target · after)) :
    Tracks limit lexemes (repeating step state) (fun _ => 0) target := by
  suffices loop : ∀ (budget : List Lexeme) state lexemes, lexemes.length ≤ budget.length →
      invariant state (position limit lexemes) →
      Tracks limit lexemes (repeatFor step budget state) (fun _ => 0) target from
    fun increasing setting inside =>
      loop lexemes state lexemes (Nat.le_refl _) start increasing setting inside
  intro budget
  induction budget with
  | nil =>
    intro state lexemes enough holds
    obtain rfl := List.length_eq_zero_iff.mp (Nat.le_zero.mp enough)
    refine (each state [] holds).bind_of_taken fun found rest taken _ kept => ?_
    cases found with
    | inl following => exact absurd taken (Nat.not_succ_le_zero _)
    | inr result => exact pure rfl kept
  | cons lexeme budget inductionHypothesis =>
    intro state lexemes enough holds
    refine (each state lexemes holds).bind_of_taken fun found rest taken _ kept => ?_
    cases found with
    | inl following =>
      have fewer : rest.length + 1 ≤ budget.length + 1 := Nat.le_trans taken enough
      exact inductionHypothesis following rest (Nat.le_of_succ_le_succ fewer) kept
    | inr result => exact pure rfl kept

end Tracks

end Parser

end ProtoSchema
