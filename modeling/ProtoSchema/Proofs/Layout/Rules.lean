/-
This file follows parsers through the tokens of a source where they stand. There
are two kinds of parsers. One that finds no fault places its answer between the
token that it starts at and the token that it leaves. One that finds faults adds
them to those found before, of which something is known since some position. As
for what is read, there is one rule for each part that parsers are made of.
-/

import ProtoSchema.Proofs.Layout.Findings

namespace ProtoSchema

/-- What is given to a parser: tokens of a source, to the end of a stream, where they stand. -/
structure Scene (source : List Char) (stream lexemes : List Lexeme) (setting : Setting) : Prop where
  suffix : lexemes <:+ stream
  increasing : Increasing (byteLength source) (lexemes.map Lexeme.span)
  spelled : ∀ lexeme ∈ lexemes, ∀ word, lexeme.token = .word word →
    Spelled source word lexeme.span
  length : setting.length = byteLength source

/-- Where the next token starts, or else the end of the source. -/
abbrev offset (source : List Char) (lexemes : List Lexeme) : Nat :=
  position (byteLength source) lexemes

variable {Value Result State : Type} {source : List Char} {stream lexemes rest : List Lexeme}
variable {setting : Setting}

/-- What is left of the tokens belongs to the same source. -/
theorem Scene.onward (scene : Scene source stream lexemes setting) (left : rest <:+ lexemes) :
    Scene source stream rest setting where
  suffix := left.trans scene.suffix
  increasing := scene.increasing.sublist (left.sublist.map Lexeme.span)
  spelled := fun lexeme member => scene.spelled lexeme (left.subset member)
  length := scene.length

/-- No token stands behind the end of the source. -/
theorem Scene.offset_le (scene : Scene source stream lexemes setting) :
    offset source lexemes ≤ byteLength source :=
  position_le_limit scene.increasing

/-- What is left starts later. -/
theorem Scene.later (scene : Scene source stream lexemes setting) (left : rest <:+ lexemes) :
    offset source lexemes ≤ offset source rest := by
  obtain ⟨taken, rfl⟩ := left
  cases taken with
  | nil => exact Nat.le_refl _
  | cons lexeme taken =>
    have increasing := scene.increasing
    cases rest with
    | nil => exact position_le_limit increasing
    | cons next rest =>
      rw [List.cons_append, List.map_cons] at increasing
      have member : next.span ∈ (taken ++ next :: rest).map Lexeme.span :=
        List.mem_map_of_mem (List.mem_append_right _ List.mem_cons_self)
      have behind := (List.pairwise_cons.mp increasing.ordered).1 next.span member
      exact Nat.le_trans (Nat.le_of_lt (increasing.each _ List.mem_cons_self).1) behind

/-- The outcome has no fault, and the answer and what is left meet the goal. -/
def Outcome.Places (source : List Char) (lexemes : List Lexeme) (goal : Value → Nat → Prop) :
    Outcome Value → Prop
  | .done value faults rest => faults = [] ∧ rest <:+ lexemes ∧ goal value (offset source rest)
  | .stopped faults _ => faults = []

/-- What is known of the faults found since a position stays known with those of the outcome, and
the answer, all these faults and what is left meet the goal. -/
def Outcome.Surveys (source : List Char) (stream : List Lexeme) (start : Nat)
    (found : List SemanticFault) (lexemes : List Lexeme)
    (goal : Value → List SemanticFault → Nat → Prop) : Outcome Value → Prop
  | .done value faults rest => rest <:+ lexemes ∧
    Findings stream start (offset source rest) (found ++ faults) ∧
      goal value (found ++ faults) (offset source rest)
  | .stopped faults _ => Findings stream start (byteLength source) (found ++ faults)

/-- Faults found before, and the tokens taken by then, go in front of an outcome. -/
theorem Outcome.Surveys.after {start : Nat} {found faults : List SemanticFault}
    {goal : Value → List SemanticFault → Nat → Prop} {outcome : Outcome Value}
    (surveys : outcome.Surveys source stream start (found ++ faults) rest goal)
    (left : rest <:+ lexemes) :
    (outcome.after faults).Surveys source stream start found lexemes goal := by
  cases outcome with
  | done value others last =>
    obtain ⟨leftLast, findings, meets⟩ := surveys
    rw [List.append_assoc] at findings meets
    exact ⟨leftLast.trans left, findings, meets⟩
  | stopped others fault =>
    have findings : Findings stream start (byteLength source) (found ++ faults ++ others) := surveys
    rw [List.append_assoc] at findings
    exact findings

namespace Parser

/-! ### Parsers that find no fault -/

/-- The parser finds no fault, and its answer and the token that it leaves meet the goal. -/
def Places (source : List Char) (stream lexemes : List Lexeme) (parser : Parser Value)
    (goal : Value → Nat → Prop) : Prop :=
  ∀ setting, Scene source stream lexemes setting →
    (parser setting lexemes).Places source lexemes goal

namespace Places

variable {parser : Parser Value} {onward : Value → Parser Result}
variable {goal weaker : Value → Nat → Prop} {target : Result → Nat → Prop}

/-- Less may be said of where the parts stand. -/
theorem mono (places : Places source stream lexemes parser goal)
    (implies : ∀ value after, goal value after → weaker value after) :
    Places source stream lexemes parser weaker := by
  intro setting scene
  have outcome := places setting scene
  cases found : parser setting lexemes with
  | done value faults rest =>
    rw [found] at outcome
    exact ⟨outcome.1, outcome.2.1, implies _ _ outcome.2.2⟩
  | stopped faults fault =>
    rw [found] at outcome
    exact outcome

/-- The second parser starts where the first one stopped. -/
theorem bind (first : Places source stream lexemes parser goal)
    (second : ∀ value rest, offset source lexemes ≤ offset source rest →
      goal value (offset source rest) → Places source stream rest (onward value) target) :
    Places source stream lexemes (parser >>= onward) target := by
  intro setting scene
  have firstOutcome := first setting scene
  rw [bind_eq]
  cases found : parser setting lexemes with
  | stopped faults fault =>
    rw [found] at firstOutcome
    exact firstOutcome
  | done value faults rest =>
    rw [found] at firstOutcome
    obtain ⟨rfl, left, meets⟩ := firstOutcome
    have secondOutcome := second value rest (scene.later left) meets setting (scene.onward left)
    dsimp only
    rw [after_nil]
    cases secondFound : onward value setting rest with
    | stopped faults fault =>
      rw [secondFound] at secondOutcome
      exact secondOutcome
    | done result faults last =>
      rw [secondFound] at secondOutcome
      obtain ⟨none, leftLast, meetsLast⟩ := secondOutcome
      exact ⟨none, leftLast.trans left, meetsLast⟩

/-- What takes nothing stays where it is. -/
theorem pure {value : Value} (meets : goal value (offset source lexemes)) :
    Places source stream lexemes (pure value) goal :=
  fun _ _ => ⟨rfl, List.suffix_refl _, meets⟩

/-- A parser that takes no token, in front of another. -/
theorem peek (answer : Setting → Value)
    (stays : ∀ setting, parser setting lexemes = .done (answer setting) [] lexemes)
    (places : ∀ setting, Scene source stream lexemes setting →
      Places source stream lexemes (onward (answer setting)) target) :
    Places source stream lexemes (parser >>= onward) target := by
  intro setting scene
  rw [bind_eq, stays]
  dsimp only
  rw [after_nil]
  exact places setting scene setting scene

/-! The parts that look around leave the input as it is. -/

theorem look {next : Option Token → Parser Result}
    (places : Places source stream lexemes (next (lexemes.head?.map (·.token))) target) :
    Places source stream lexemes (look >>= next) target :=
  peek (fun _ => lexemes.head?.map (·.token)) (fun _ => rfl) fun _ _ => places

theorem ahead {length : Nat} {next : List Token → Parser Result}
    (places : Places source stream lexemes (next ((lexemes.take length).map (·.token))) target) :
    Places source stream lexemes (ahead length >>= next) target :=
  peek (fun _ => (lexemes.take length).map (·.token)) (fun _ => rfl) fun _ _ => places

theorem surroundings {next : Surroundings → Parser Result}
    (places : ∀ around, Places source stream lexemes (next around) target) :
    Places source stream lexemes (surroundings >>= next) target := by
  cases lexemes with
  | nil => exact peek (fun setting => setting.atEnd) (fun _ => rfl) fun _ _ => places _
  | cons lexeme rest => exact peek (fun _ => lexeme.before) (fun _ => rfl) fun _ _ => places _

/-- The place of the next token starts where the parser is. -/
theorem here {next : Span → Parser Result}
    (places : ∀ span, span.start = offset source lexemes →
      Places source stream lexemes (next span) target) :
    Places source stream lexemes (here >>= next) target := by
  cases lexemes with
  | nil =>
    exact peek (fun setting => .point setting.length) (fun _ => rfl)
      fun setting scene => places _ scene.length
  | cons lexeme rest => exact peek (fun _ => lexeme.span) (fun _ => rfl) fun _ _ => places _ rfl

theorem followsBrace {next : Bool → Parser Result}
    (places : ∀ follows, Places source stream lexemes (next follows) target) :
    Places source stream lexemes (followsBrace >>= next) target :=
  peek (fun _ => lexemes.head?.any (·.followsBrace)) (fun _ => rfl) fun _ _ => places _

/-! The parts that stop. -/

/-- Nothing is said of a parser that stops. -/
theorem stop {cause : GrammarCause} {span : Span} :
    Places source stream lexemes (Parser.stop cause span) goal :=
  fun _ _ => rfl

theorem unexpected {expected : String} :
    Places source stream lexemes (unexpected expected) goal := by
  cases lexemes <;> exact fun _ _ => rfl

/-! The parts that take a token. -/

/-- What is known of the place of a token that was taken. -/
structure Taken (source : List Char) (token : Token) (start stop : Nat) (span : Span) : Prop where
  reached : span.From start stop
  within : stop ≤ byteLength source
  spelled : ∀ word, token = .word word → Spelled source word span

/-- A token that is taken stands between where the parser was and where it is. -/
theorem advance_last {token : Token} (head : lexemes.head?.map (·.token) = some token) :
    Places source stream lexemes Parser.advance fun span after =>
      Taken source token (offset source lexemes) after span := by
  obtain ⟨lexeme, found, rfl⟩ := Option.map_eq_some_iff.mp head
  obtain ⟨rest, rfl⟩ := List.head?_eq_some_iff.mp found
  intro setting scene
  have left : rest <:+ lexeme :: rest := List.suffix_cons _ _
  exact ⟨rfl, left, head_reached scene.increasing, (scene.onward left).offset_le,
    scene.spelled lexeme List.mem_cons_self⟩

theorem advance {token : Token} {next : Span → Parser Result}
    (head : lexemes.head?.map (·.token) = some token)
    (places : ∀ span rest, offset source lexemes ≤ offset source rest →
      Taken source token (offset source lexemes) (offset source rest) span →
      Places source stream rest (next span) target) :
    Places source stream lexemes (advance >>= next) target :=
  (advance_last head).bind places

/-- The next token is taken, whatever it is. -/
theorem advance_any : Places source stream lexemes Parser.advance fun _ _ => True := by
  cases lexemes with
  | nil => exact fun _ _ => ⟨rfl, List.suffix_refl _, trivial⟩
  | cons lexeme rest => exact fun _ _ => ⟨rfl, List.suffix_cons _ _, trivial⟩

theorem expect_last {token : Token} :
    Places source stream lexemes (Parser.expect token) fun span after =>
      Taken source token (offset source lexemes) after span := by
  refine look ?_
  split
  · next head => exact advance_last head
  · exact unexpected

/-- A token that is expected is taken, and its text is known. -/
theorem expect {token : Token} {next : Span → Parser Result}
    (places : ∀ span rest, offset source lexemes ≤ offset source rest →
      Taken source token (offset source lexemes) (offset source rest) span →
      Places source stream rest (next span) target) :
    Places source stream lexemes (Parser.expect token >>= next) target :=
  expect_last.bind places

theorem accept {token : Token} {next : Bool → Parser Result}
    (taken : ∀ rest, offset source lexemes ≤ offset source rest →
      Places source stream rest (next true) target)
    (left : Places source stream lexemes (next false) target) :
    Places source stream lexemes (accept token >>= next) target := by
  rw [Parser.accept, bind_assoc]
  refine look ?_
  split
  · next head =>
    rw [bind_assoc]
    refine advance head fun span rest later _ => ?_
    rw [pure_bind]
    exact taken rest later
  · rw [pure_bind]
    exact left

/-! Loops keep an invariant. -/

/-- A loop keeps an invariant on where the parser is. -/
theorem repeating {step : State → Parser (State ⊕ Result)} {state : State}
    (invariant : State → Nat → Prop) (start : invariant state (offset source lexemes))
    (each : ∀ state lexemes, invariant state (offset source lexemes) →
      Places source stream lexemes (step state) fun found after =>
        found.elim (invariant · after) (target · after)) :
    Places source stream lexemes (repeating step state) target := by
  suffices loop : ∀ (budget : List Lexeme) state lexemes, invariant state (offset source lexemes) →
      Places source stream lexemes (repeatFor step budget state) target from
    fun setting scene => loop lexemes state lexemes start setting scene
  intro budget
  induction budget with
  | nil =>
    intro state lexemes holds
    refine (each state lexemes holds).bind fun found rest _ kept => ?_
    cases found with
    | inl following => exact here fun _ _ => stop
    | inr result => exact pure kept
  | cons lexeme budget inductionHypothesis =>
    intro state lexemes holds
    refine (each state lexemes holds).bind fun found rest _ kept => ?_
    cases found with
    | inl following => exact inductionHypothesis following rest kept
    | inr result => exact pure kept

end Places

/-! ### Parsers that find faults -/

/-- The faults found since a position stay in order, and the answer, the faults and the token that
the parser leaves meet the goal. -/
def Surveys (source : List Char) (stream : List Lexeme) (start : Nat) (found : List SemanticFault)
    (lexemes : List Lexeme) (parser : Parser Value)
    (goal : Value → List SemanticFault → Nat → Prop) : Prop :=
  ∀ setting, Scene source stream lexemes setting →
    Findings stream start (offset source lexemes) found →
      (parser setting lexemes).Surveys source stream start found lexemes goal

namespace Surveys

variable {parser : Parser Value} {onward : Value → Parser Result} {start : Nat}
variable {found : List SemanticFault} {goal weaker : Value → List SemanticFault → Nat → Prop}
variable {target : Result → List SemanticFault → Nat → Prop}

/-- Less may be said of the faults and of where they are. -/
theorem mono (surveys : Surveys source stream start found lexemes parser goal)
    (implies : ∀ value faults after, goal value faults after → weaker value faults after) :
    Surveys source stream start found lexemes parser weaker := by
  intro setting scene findings
  have outcome := surveys setting scene findings
  cases result : parser setting lexemes with
  | done value faults rest =>
    rw [result] at outcome
    exact ⟨outcome.1, outcome.2.1, implies _ _ _ outcome.2.2⟩
  | stopped faults fault =>
    rw [result] at outcome
    exact outcome

/-- What was found before may be used. -/
theorem known (surveys : Findings stream start (offset source lexemes) found →
    offset source lexemes ≤ byteLength source →
    Surveys source stream start found lexemes parser goal) :
    Surveys source stream start found lexemes parser goal :=
  fun setting scene findings => surveys findings scene.offset_le setting scene findings

/-- Faults that were found stay when the second parser starts. -/
theorem bind (first : Surveys source stream start found lexemes parser goal)
    (second : ∀ value faults rest, offset source lexemes ≤ offset source rest →
      goal value faults (offset source rest) →
      Surveys source stream start faults rest (onward value) target) :
    Surveys source stream start found lexemes (parser >>= onward) target := by
  intro setting scene findings
  have firstOutcome := first setting scene findings
  rw [bind_eq]
  cases result : parser setting lexemes with
  | stopped faults fault =>
    rw [result] at firstOutcome
    exact firstOutcome
  | done value faults rest =>
    rw [result] at firstOutcome
    obtain ⟨left, findings, meets⟩ := firstOutcome
    exact (second value _ rest (scene.later left) meets setting (scene.onward left) findings).after
      left

theorem pure {value : Value} (meets : goal value found (offset source lexemes)) :
    Surveys source stream start found lexemes (pure value) goal := by
  intro setting scene findings
  exact ⟨List.suffix_refl _, by rwa [List.append_nil], by rwa [List.append_nil]⟩

/-- A parser that finds no fault leaves those found before. -/
theorem of_places {goal : Value → Nat → Prop} (places : Places source stream lexemes parser goal) :
    Surveys source stream start found lexemes parser
      fun value faults after => faults = found ∧ goal value after := by
  intro setting scene findings
  have outcome := places setting scene
  cases result : parser setting lexemes with
  | stopped faults fault =>
    rw [result] at outcome
    obtain rfl : faults = [] := outcome
    have same := findings.later scene.offset_le
    rw [← List.append_nil found] at same
    exact same
  | done value faults rest =>
    rw [result] at outcome
    obtain ⟨rfl, left, meets⟩ := outcome
    have same := findings.later (scene.later left)
    rw [← List.append_nil found] at same
    exact ⟨left, same, List.append_nil found, meets⟩

/-- A parser that finds no fault, in front of another. -/
theorem places {goal : Value → Nat → Prop} (first : Places source stream lexemes parser goal)
    (second : ∀ value rest, offset source lexemes ≤ offset source rest →
      goal value (offset source rest) →
      Surveys source stream start found rest (onward value) target) :
    Surveys source stream start found lexemes (parser >>= onward) target :=
  (of_places first).bind fun value _ rest later ⟨same, meets⟩ => by
    subst same
    exact second value rest later meets

/-- The frame rule: what a parser finds comes behind what was found before. -/
theorem frame (fresh : Surveys source stream (offset source lexemes) [] lexemes parser goal) :
    Surveys source stream start found lexemes parser fun value faults after =>
      ∃ more, faults = found ++ more ∧ Findings stream (offset source lexemes) after more ∧
        goal value more after := by
  intro setting scene findings
  have outcome := fresh setting scene (.nil (Nat.le_refl _))
  cases result : parser setting lexemes with
  | stopped faults fault =>
    rw [result] at outcome
    exact findings.append outcome
  | done value faults rest =>
    rw [result] at outcome
    obtain ⟨left, more, meets⟩ := outcome
    exact ⟨left, findings.append more, faults, rfl, more, meets⟩

/-- A parser that finds faults of its own, in front of another. -/
theorem fresh (first : Surveys source stream (offset source lexemes) [] lexemes parser goal)
    (second : ∀ value more rest, offset source lexemes ≤ offset source rest →
      Findings stream (offset source lexemes) (offset source rest) more →
      goal value more (offset source rest) →
      Surveys source stream start (found ++ more) rest (onward value) target) :
    Surveys source stream start found lexemes (parser >>= onward) target :=
  (frame first).bind fun value _ rest later ⟨more, same, findings, meets⟩ => by
    subst same
    exact second value more rest later findings meets

/-- With the faults that are reported the findings are still in order. -/
theorem report {faults : List SemanticFault} {next : Unit → Parser Result}
    (findings : Findings stream start (offset source lexemes) (found ++ faults))
    (surveys : Surveys source stream start (found ++ faults) lexemes (next ()) target) :
    Surveys source stream start found lexemes (report faults >>= next) target :=
  fun setting scene _ => (surveys setting scene findings).after (List.suffix_refl _)

/-- A parser that takes no token, in front of another. -/
theorem peek (answer : Setting → Value)
    (stays : ∀ setting, parser setting lexemes = .done (answer setting) [] lexemes)
    (surveys : ∀ setting, Scene source stream lexemes setting →
      Surveys source stream start found lexemes (onward (answer setting)) target) :
    Surveys source stream start found lexemes (parser >>= onward) target := by
  intro setting scene findings
  rw [bind_eq, stays]
  dsimp only
  rw [after_nil]
  exact surveys setting scene setting scene findings

theorem look {next : Option Token → Parser Result}
    (surveys : Surveys source stream start found lexemes (next (lexemes.head?.map (·.token)))
      target) :
    Surveys source stream start found lexemes (look >>= next) target :=
  peek (fun _ => lexemes.head?.map (·.token)) (fun _ => rfl) fun _ _ => surveys

theorem ahead {length : Nat} {next : List Token → Parser Result}
    (surveys : ∀ tokens, Surveys source stream start found lexemes (next tokens) target) :
    Surveys source stream start found lexemes (ahead length >>= next) target :=
  peek (fun _ => (lexemes.take length).map (·.token)) (fun _ => rfl) fun _ _ => surveys _

theorem edition {next : Option Edition → Parser Result}
    (surveys : ∀ declared, Surveys source stream start found lexemes (next declared) target) :
    Surveys source stream start found lexemes (Parser.edition >>= next) target :=
  peek (fun setting => setting.edition) (fun _ => rfl) fun _ _ => surveys _

theorem surroundings {next : Surroundings → Parser Result}
    (surveys : ∀ around, Surveys source stream start found lexemes (next around) target) :
    Surveys source stream start found lexemes (surroundings >>= next) target := by
  cases lexemes with
  | nil => exact peek (fun setting => setting.atEnd) (fun _ => rfl) fun _ _ => surveys _
  | cons lexeme rest => exact peek (fun _ => lexeme.before) (fun _ => rfl) fun _ _ => surveys _

theorem here {next : Span → Parser Result}
    (surveys : ∀ span, span.start = offset source lexemes →
      Surveys source stream start found lexemes (next span) target) :
    Surveys source stream start found lexemes (here >>= next) target := by
  cases lexemes with
  | nil =>
    exact peek (fun setting => .point setting.length) (fun _ => rfl)
      fun setting scene => surveys _ scene.length
  | cons lexeme rest => exact peek (fun _ => lexeme.span) (fun _ => rfl) fun _ _ => surveys _ rfl

/-- A parser that stops or that finds no fault is all there is. -/
theorem halt {goal : Value → List SemanticFault → Nat → Prop}
    (places : Places source stream lexemes parser fun _ _ => False) :
    Surveys source stream start found lexemes parser goal :=
  (of_places places).mono fun _ _ _ never => never.2.elim

theorem stop {cause : GrammarCause} {span : Span} :
    Surveys source stream start found lexemes (Parser.stop cause span) goal :=
  halt Places.stop

theorem unexpected {expected : String} :
    Surveys source stream start found lexemes (unexpected expected) goal :=
  halt Places.unexpected

/-! Loops keep an invariant. -/

/-- A loop keeps an invariant on the faults that it found. -/
theorem repeating {step : State → Parser (State ⊕ Result)} {state : State}
    (invariant : State → List SemanticFault → Nat → Prop)
    (holds : invariant state found (offset source lexemes))
    (each : ∀ state faults lexemes, invariant state faults (offset source lexemes) →
      Surveys source stream start faults lexemes (step state) fun value faults after =>
        value.elim (invariant · faults after) (target · faults after)) :
    Surveys source stream start found lexemes (repeating step state) target := by
  suffices loop : ∀ (budget : List Lexeme) state found lexemes,
      invariant state found (offset source lexemes) →
      Surveys source stream start found lexemes (repeatFor step budget state) target from
    fun setting scene findings => loop lexemes state found lexemes holds setting scene findings
  intro budget
  induction budget with
  | nil =>
    intro state found lexemes holds
    refine (each state found lexemes holds).bind fun value faults rest _ kept => ?_
    cases value with
    | inl following => exact here fun _ _ => stop
    | inr result => exact pure kept
  | cons lexeme budget inductionHypothesis =>
    intro state found lexemes holds
    refine (each state found lexemes holds).bind fun value faults rest _ kept => ?_
    cases value with
    | inl following => exact inductionHypothesis following faults rest kept
    | inr result => exact pure kept

/-- A parser that checks what it has read: by the time that its own faults are told apart from those
found before, its value is known to be read in the stream. -/
theorem checked {parts : Parser Value} {own : Value → List SemanticFault}
    (splits : parser = parts >>= fun value =>
      Parser.report (own value) >>= fun _ => Pure.pure value)
    (surveys : Surveys source stream start found lexemes parts fun value faults after =>
      Findings stream start after faults → parser.ReadIn stream value →
        Findings stream start after (faults ++ own value) ∧
          goal value (faults ++ own value) after) :
    Surveys source stream start found lexemes parser goal := by
  intro setting scene findings
  have outcome := surveys setting scene findings
  have result : parser setting lexemes = match parts setting lexemes with
      | .done value faults rest => .done value (faults ++ own value) rest
      | .stopped faults fault => .stopped faults fault := by
    rw [splits, bind_eq]
    cases parts setting lexemes with
    | stopped faults fault => rfl
    | done value faults rest => exact congrArg (Outcome.done value · rest) (by simp)
  cases partsResult : parts setting lexemes with
  | stopped faults fault =>
    rw [partsResult] at outcome result
    rw [result]
    exact outcome
  | done value faults rest =>
    rw [partsResult] at outcome result
    obtain ⟨left, before, checked⟩ := outcome
    obtain ⟨more, meets⟩ := checked before ⟨setting, lexemes, _, rest, scene.suffix, result⟩
    rw [result]
    rw [List.append_assoc] at more meets
    exact ⟨left, more, meets⟩

end Surveys

end Parser

end ProtoSchema
