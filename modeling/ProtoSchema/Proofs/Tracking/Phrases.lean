/-
This file keeps track of the phrases that declarations are made of. A string
that is no text is the one fault that is reported at a place already gone past;
nothing but the string itself lies between, and strings are read without a fault.
-/

import ProtoSchema.Grammar.Phrases
import ProtoSchema.Proofs.Tracking.Rules

namespace ProtoSchema

/-- The name starts at one position and ends before another, with all its parts between them. -/
structure DottedName.Reached (start stop : Nat) (name : DottedName) : Prop where
  whole : name.span.From start stop
  parts : ∀ part ∈ name.parts, start ≤ part.span.start ∧ part.span.Before stop

/-- One more part ends the name where the part ends. -/
theorem DottedName.span_concat {parts : List Name} (some : parts ≠ []) (last : Name) :
    (⟨parts ++ [last]⟩ : DottedName).span = (⟨parts⟩ : DottedName).span.through last.span := by
  obtain ⟨first, rest, rfl⟩ := List.exists_cons_of_ne_nil some
  rw [span, List.getLast?_concat]
  rfl

namespace Parser

variable {Value State Result : Type} {limit : Nat} {lexemes : List Lexeme}

/-! ### Names -/

/-- A name is passed with its word. -/
theorem tracks_name : Tracks limit lexemes name (fun _ => 1)
    fun found after => found.span.From (position limit lexemes) after := by
  refine Tracks.look ?_
  split
  · next text head =>
    exact Tracks.advance head fun span rest _ reached => Tracks.pure rfl reached
  · exact Tracks.unexpected

/-- A path reaches from its first part to its last. -/
theorem tracks_dottedName : Tracks limit lexemes dottedName (fun _ => 1)
    fun found after => found.Reached (position limit lexemes) after := by
  refine tracks_name.bind fun first rest later reached => ?_
  refine Tracks.repeating
    (fun parts after => parts ≠ [] ∧
      (⟨parts⟩ : DottedName).Reached (position limit lexemes) after)
    ⟨List.cons_ne_nil _ _, reached, ?_⟩ fun parts lexemes ⟨nonempty, whole, inside⟩ => ?_
  · exact List.forall_mem_singleton.mpr ⟨Nat.le_of_eq reached.1.symm, reached.before⟩
  · refine Tracks.accept (fun rest _ afterDot => ?_) (Tracks.pure rfl ⟨whole, inside⟩)
    refine tracks_name.bind fun part rest afterPart reached => Tracks.pure rfl ⟨by simp, ?_, ?_⟩
    · rw [DottedName.span_concat nonempty]
      refine reached.through whole.1 ?_
      have inOrder := whole.2.1
      have ends := whole.2.2
      omega
    · refine List.forall_mem_append.mpr
        ⟨fun part member => ⟨(inside part member).1, (inside part member).2.later ?_⟩,
          List.forall_mem_singleton.mpr ⟨?_, reached.before⟩⟩
      · exact Nat.le_trans afterDot afterPart
      · have inOrder := whole.2.1
        have ends := whole.2.2
        have starts := reached.1
        omega

/-- A dot in front is where the name starts. -/
theorem tracks_typeName : Tracks limit lexemes typeName (fun _ => 1)
    fun found after => found.span.From (position limit lexemes) after := by
  refine Tracks.look ?_
  split
  · next head =>
    refine Tracks.advance head fun dot rest later dotReached => ?_
    refine tracks_dottedName.bind fun path rest _ reached => Tracks.pure rfl ?_
    exact reached.whole.through dotReached.1 later
  · exact tracks_dottedName.bind fun path rest _ reached => Tracks.pure rfl reached.whole
  · exact Tracks.unexpected

/-! ### Literals -/

theorem tracks_positiveInt : Tracks limit lexemes positiveInt (fun _ => 1)
    fun found after => found.span.From (position limit lexemes) after := by
  refine Tracks.look ?_
  split
  · next value head =>
    exact Tracks.advance head fun span rest _ reached => Tracks.pure rfl reached
  · exact Tracks.unexpected

/-- A number starts with its sign. -/
theorem tracks_signedInt {expected : String} : Tracks limit lexemes (signedInt expected) (fun _ => 1)
    fun found after => found.span.From (position limit lexemes) after := by
  refine Tracks.here fun start starts =>
    Tracks.accept (fun rest nonempty later => Tracks.look ?_) (Tracks.look ?_)
  · split
    · next value head =>
      exact Tracks.advance head fun _ _ _ reached =>
        Tracks.pure rfl (reached.through (starts nonempty) later)
    · exact Tracks.unexpected
  · split
    · next value head =>
      exact Tracks.advance head fun _ _ _ reached =>
        Tracks.pure rfl (reached.through (starts (Tracks.ne_nil_of_head head)) (Nat.le_refl _))
    · exact Tracks.unexpected

/-! ### Strings -/

/-- Literals that are put together reach from the first to the last. -/
theorem tracks_bytes : Tracks limit lexemes bytes (fun _ => 1)
    fun found after => found.2.From (position limit lexemes) after := by
  refine Tracks.look ?_
  split
  · next first head =>
    refine Tracks.advance head fun start rest later reached => ?_
    refine Tracks.repeating (fun state after => state.2.From (position limit lexemes) after) reached
      fun ⟨value, span⟩ rest whole => ?_
    refine Tracks.look ?_
    split
    · next more head =>
      refine Tracks.advance head fun span rest _ reached => Tracks.pure rfl ?_
      refine reached.through whole.1 ?_
      have inOrder := whole.2.1
      have ends := whole.2.2
      omega
    · exact Tracks.pure rfl whole
  · exact Tracks.unexpected

/-- The parser goes past no fault. -/
def Quiet (parser : Parser Value) : Prop :=
  ∀ setting lexemes, match parser setting lexemes with
    | .done _ faults _ | .stopped faults _ => faults = []

namespace Quiet

/-- What finds no fault in sequence finds none in either part. -/
theorem bind {parser : Parser Value} {onward : Value → Parser Result} (first : Quiet parser)
    (second : ∀ value, Quiet (onward value)) : Quiet (parser >>= onward) := by
  intro setting lexemes
  have firstQuiet := first setting lexemes
  rw [bind_eq]
  cases found : parser setting lexemes with
  | stopped faults fault =>
    rw [found] at firstQuiet
    exact firstQuiet
  | done value faults rest =>
    rw [found] at firstQuiet
    obtain rfl : faults = [] := firstQuiet
    dsimp only
    rw [after_nil]
    exact second value setting rest

theorem pure {value : Value} : Quiet (pure value) := fun _ _ => rfl

theorem look : Quiet look := fun _ _ => rfl

theorem advance : Quiet advance := fun _ lexemes => by cases lexemes <;> rfl

theorem unexpected {expected : String} : Quiet (unexpected expected : Parser Value) :=
  fun _ lexemes => by cases lexemes <;> rfl

theorem expect {token : Token} : Quiet (expect token) :=
  look.bind fun next => by
    split
    · exact advance
    · exact unexpected

theorem repeating {step : State → Parser (State ⊕ Result)} {state : State}
    (each : ∀ state, Quiet (step state)) : Quiet (repeating step state) := by
  suffices loop : ∀ (budget : List Lexeme) state, Quiet (repeatFor step budget state) from
    fun setting lexemes => loop lexemes state setting lexemes
  intro budget
  induction budget with
  | nil =>
    intro state
    refine (each state).bind fun found => ?_
    cases found with
    | inl following => exact fun _ lexemes => by cases lexemes <;> rfl
    | inr result => exact pure
  | cons lexeme budget inductionHypothesis =>
    intro state
    refine (each state).bind fun found => ?_
    cases found with
    | inl following => exact inductionHypothesis following
    | inr result => exact pure

theorem bytes : Quiet bytes := by
  refine look.bind fun next => ?_
  split
  · refine advance.bind fun start => repeating fun ⟨value, span⟩ => look.bind fun next => ?_
    split
    · exact advance.bind fun _ => pure
    · exact pure
  · exact unexpected

theorem text : Quiet text := by
  refine bytes.bind fun ⟨value, span⟩ => ?_
  dsimp only
  split
  · exact pure
  · exact fun _ _ => rfl

end Quiet

/-- A parser that goes past no fault may stop where it started, once it has gone through. -/
theorem Tracks.bind_quiet {parser : Parser Value} {onward : Value → Parser Result}
    {placed : Value → Span} {goal : Result → Nat → Prop} (quiet : Quiet parser)
    (first : Tracks limit lexemes parser (fun _ => 1)
      fun value after => (placed value).From (position limit lexemes) after)
    (second : ∀ value, (∃ result, onward value = Pure.pure result ∧
        ∀ after, (placed value).From (position limit lexemes) after → goal result after) ∨
      ∃ cause, cause ≠ .stalled ∧ onward value = stop cause (placed value)) :
    Tracks limit lexemes (parser >>= onward) (fun _ => 1) goal := by
  intro increasing setting inside
  have outcome := first increasing setting inside
  have noFault := quiet setting lexemes
  rw [bind_eq]
  cases found : parser setting lexemes with
  | stopped faults fault =>
    rw [found] at outcome
    exact outcome
  | done value faults rest =>
    rw [found] at outcome noFault
    obtain rfl : faults = [] := noFault
    obtain ⟨left, taken, later, -, reached⟩ := outcome
    dsimp only
    rw [after_nil]
    rcases second value with ⟨result, eq, meets⟩ | ⟨cause, cause_ne, eq⟩
    · rw [eq]
      exact ⟨left, taken, later, passedFaults_nil, meets _ reached⟩
    · rw [eq]
      have within := Nat.le_trans reached.2.2 (Nat.le_trans (position_le_limit left) inside)
      exact ⟨cause_ne, Nat.le_of_eq reached.1.symm, Nat.le_of_lt reached.before.1, within,
        passedFaults_nil, passedFaults_nil⟩

/-- A literal that is no text stops the parser, which is told at the literal. -/
theorem tracks_text : Tracks limit lexemes text (fun _ => 1)
    fun found after => found.span.From (position limit lexemes) after := by
  refine Tracks.bind_quiet Quiet.bytes tracks_bytes fun ⟨value, span⟩ => ?_
  cases decoded : String.fromUTF8? ⟨value.toArray⟩ with
  | some text => exact .inl ⟨⟨text, span⟩, by simp [decoded], fun _ reached => reached⟩
  | none => exact .inr ⟨.stringNotUtf8, GrammarCause.noConfusion, by simp [decoded]⟩

/-! ### Lists -/

/-- The items of a list are all passed. -/
theorem tracks_commaList {item : Parser Value} {ends : Token → Bool} {expected : String}
    {spans : Value → List Span}
    (each : ∀ lexemes, Tracks limit lexemes item (fun _ => 1)
      fun found after => Passed after (spans found)) :
    Tracks limit lexemes (commaList item ends expected) (fun _ => 1)
      fun found after => Passed after (found.flatMap spans) := by
  refine (each lexemes).bind fun first rest _ passed => ?_
  refine Tracks.repeating (fun items after => Passed after (items.flatMap spans))
    (by simpa using passed) fun items lexemes before => ?_
  refine Tracks.look ?_
  split
  · next head =>
    refine Tracks.advance head fun _ rest afterComma _ => ?_
    refine (each rest).bind fun item rest afterItem passed => Tracks.pure rfl ?_
    rw [Sum.elim_inl, passed_concat]
    exact ⟨before.later (Nat.le_trans afterComma afterItem), passed⟩
  · split
    · exact Tracks.pure rfl before
    · exact Tracks.unexpected
  · exact Tracks.unexpected

/-! ### Ends of declarations -/

/-- Comments are no tokens, so nothing is taken. -/
theorem Tracks.leadingComments {next : Comments → Parser Result} {total : Result → Nat}
    {target : Result → Nat → Prop}
    (tracks : ∀ comments, Tracks limit lexemes (next comments) total target) :
    Tracks limit lexemes (leadingComments >>= next) total target := by
  rw [Parser.leadingComments, bind_assoc]
  refine Tracks.surroundings fun around => ?_
  rw [pure_bind]
  exact tracks _

theorem tracks_trailingComment {goal : Option String → Nat → Prop}
    (meets : ∀ comment, goal comment (position limit lexemes)) :
    Tracks limit lexemes trailingComment (fun _ => 0) goal :=
  Tracks.surroundings fun _ => Tracks.pure rfl (meets _)

/-- The semicolon is where a statement ends. -/
theorem tracks_terminator : Tracks limit lexemes terminator (fun _ => 1)
    fun found after => found.1.From (position limit lexemes) after := by
  refine Tracks.expect fun span rest _ reached => ?_
  rw [trailingComment, bind_assoc]
  refine Tracks.surroundings fun around => ?_
  rw [pure_bind]
  exact Tracks.pure rfl reached

theorem tracks_openBrace : Tracks limit lexemes openBrace (fun _ => 1) fun _ _ => True :=
  Tracks.expect fun _ _ _ _ => tracks_trailingComment fun _ => trivial

/-- An empty statement takes its semicolon or stops there. -/
theorem tracks_emptyStatement :
    Tracks limit lexemes emptyStatement (fun _ => 1) fun _ _ => True := by
  refine Tracks.followsBrace fun follows => ?_
  split
  · exact Tracks.expect fun _ _ _ _ => Tracks.pure rfl trivial
  · exact Tracks.stop_here GrammarCause.noConfusion

/-! ### Bodies -/

/-- Every member takes a token, and keeps what is known of the places in the state. -/
def TracksMember (limit : Nat) (parse : Member State) (spans : State → List Span) : Prop :=
  ∀ state next parser lexemes, parse state next = some parser →
    Passed (position limit lexemes) (spans state) →
    Tracks limit lexemes parser (fun _ => 1) fun found after => Passed after (spans found)

/-- A member is taken, or at least a semicolon is. -/
theorem tracks_member {parse : Member State} {spans : State → List Span} {expected : String}
    {state : State} {next : Token} (members : TracksMember limit parse spans)
    (before : Passed (position limit lexemes) (spans state)) :
    Tracks limit lexemes (member parse expected state next) (fun _ => 1)
      fun found after => Passed after (spans found) := by
  rw [member]
  split
  · exact tracks_emptyStatement.bind fun _ rest later _ => Tracks.pure rfl (before.later later)
  · split
    · next parser found => exact members state next parser lexemes found before
    · exact Tracks.unexpected

/-- A body keeps what was passed before it and passes its members. -/
theorem tracks_body {parse : Member State} {spans : State → List Span} {expected : String}
    {state : State} (members : TracksMember limit parse spans)
    (start : Passed (position limit lexemes) (spans state)) :
    Tracks limit lexemes (body parse expected state) (fun _ => 0)
      fun found after => Passed after (spans found.1) := by
  refine Tracks.repeating (fun state after => Passed after (spans state)) start
    fun state lexemes before => ?_
  refine Tracks.look ?_
  split
  · next head =>
    exact Tracks.advance head fun _ rest later _ => Tracks.pure rfl (before.later later)
  · exact (tracks_member members before).bind fun _ rest _ passed => Tracks.pure rfl passed
  · exact Tracks.unexpected

theorem tracks_topLevel {parse : Member State} {spans : State → List Span} {expected : String}
    {state : State} (members : TracksMember limit parse spans)
    (start : Passed (position limit lexemes) (spans state)) :
    Tracks limit lexemes (topLevel parse expected state) (fun _ => 0)
      fun found after => Passed after (spans found) := by
  refine Tracks.repeating (fun state after => Passed after (spans state)) start
    fun state lexemes before => ?_
  refine Tracks.look ?_
  split
  · exact (tracks_member members before).bind fun _ rest _ passed => Tracks.pure rfl passed
  · exact Tracks.pure rfl before

end Parser

end ProtoSchema
