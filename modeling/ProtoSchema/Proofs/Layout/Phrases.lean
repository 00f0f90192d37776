/-
This file places names and literals, and the items of lists with commas. Bodies
keep an invariant of their members and of the faults found in them.
-/

import ProtoSchema.Proofs.Layout.Rules
import ProtoSchema.Proofs.Layout.Tree
import ProtoSchema.Proofs.Tracking.Phrases

namespace ProtoSchema

namespace Parser

open Outline (Placed Laid)

variable {Value Result State : Type} {source : List Char} {stream lexemes : List Lexeme}
variable {start : Nat} {found : List SemanticFault} {stages : List Stage}

/-- A parser that finds no fault, among those that may. -/
theorem Places.surveys {parser : Parser Value} {goal : Value → Nat → Prop} (stages : List Stage)
    (places : Places source stream lexemes parser goal) :
    Surveys source stream (offset source lexemes) [] lexemes parser
      fun value faults after => FromStages stages faults ∧ goal value after :=
  (Surveys.of_places places).mono fun _ _ _ ⟨same, meets⟩ => ⟨same ▸ .nil, meets⟩

/-! ### Names -/

theorem places_name : Places source stream lexemes name
    fun found after => Placed source (offset source lexemes) after found.outline := by
  refine Places.look ?_
  split
  · next text head =>
    refine Places.advance head fun span rest _ taken => Places.pure ?_
    exact .empty taken.reached taken.within fun word same =>
      taken.spelled word (congrArg Token.word (Option.some.inj same))
  · exact Places.unexpected

theorem places_dottedName : Places source stream lexemes dottedName
    fun found after => Placed source (offset source lexemes) after found.outline := by
  refine places_name.bind fun first rest _ placed => ?_
  refine Places.repeating (fun parts after => parts ≠ [] ∧
    Placed source (offset source lexemes) after (DottedName.outline ⟨parts⟩))
    ⟨List.cons_ne_nil _ _, placed.alone⟩ fun parts lexemes ⟨nonempty, whole⟩ => ?_
  refine Places.accept (fun rest later => ?_) (Places.pure whole)
  refine places_name.bind fun part rest _ placed => Places.pure ⟨by simp, ?_⟩
  rw [DottedName.outline, DottedName.span_concat nonempty, List.map_append, List.map_singleton]
  exact whole.extend placed later

theorem places_typeName : Places source stream lexemes typeName
    fun found after => Placed source (offset source lexemes) after found.outline := by
  refine Places.look ?_
  split
  · next head =>
    refine Places.advance head fun dot rest later taken => ?_
    refine places_dottedName.bind fun path rest _ placed => Places.pure ?_
    exact (Placed.leaf taken.reached taken.within).alone.extend placed (Nat.le_refl _)
  · exact places_dottedName.bind fun path rest _ placed => Places.pure placed.alone
  · exact Places.unexpected

/-! ### Literals -/

theorem places_positiveInt : Places source stream lexemes positiveInt
    fun found after => Placed source (offset source lexemes) after found.outline := by
  refine Places.look ?_
  split
  · next value head =>
    exact Places.advance head fun span rest _ taken =>
      Places.pure (.leaf taken.reached taken.within)
  · exact Places.unexpected

theorem places_signedInt {expected : String} : Places source stream lexemes (signedInt expected)
    fun found after => Placed source (offset source lexemes) after found.outline := by
  refine Places.here fun start starts =>
    Places.accept (fun rest later => Places.look ?_) (Places.look ?_)
  · split
    · next value head =>
      exact Places.advance head fun span rest _ taken =>
        Places.pure (.leaf (taken.reached.through starts later) taken.within)
    · exact Places.unexpected
  · split
    · next value head =>
      exact Places.advance head fun span rest _ taken =>
        Places.pure (.leaf (taken.reached.through starts (Nat.le_refl _)) taken.within)
    · exact Places.unexpected

/-- The span of a string literal. -/
theorem places_bytes : Places source stream lexemes bytes fun found after =>
    Placed source (offset source lexemes) after (.leaf found.2) := by
  refine Places.look ?_
  split
  · next first head =>
    refine Places.advance head fun span rest _ taken => ?_
    refine Places.repeating
      (fun state after => Placed source (offset source lexemes) after (.leaf state.2))
      (.leaf taken.reached taken.within) fun ⟨value, span⟩ lexemes whole => Places.look ?_
    split
    · next more head =>
      refine Places.advance head fun last rest _ taken => Places.pure ?_
      refine .leaf (taken.reached.through whole.reached.1 ?_) taken.within
      exact Nat.le_of_lt (Nat.lt_of_lt_of_le whole.reached.2.1 whole.reached.2.2)
    · exact Places.pure whole
  · exact Places.unexpected

theorem places_text : Places source stream lexemes text
    fun found after => Placed source (offset source lexemes) after (.leaf found.span) := by
  refine places_bytes.bind fun (value, span) rest _ placed => ?_
  dsimp only
  split
  · exact Places.pure placed
  · exact Places.stop

/-! ### Lists -/

theorem places_commaList {item : Parser Value} {ends : Token → Bool} {expected : String}
    {outline : Value → Outline}
    (each : ∀ lexemes, Places source stream lexemes item
      fun found after => Placed source (offset source lexemes) after (outline found)) :
    Places source stream lexemes (commaList item ends expected)
      fun found after => Laid source (offset source lexemes) after [found.map outline] := by
  refine (each lexemes).bind fun first rest _ placed => ?_
  refine Places.repeating
    (fun items after => Laid source (offset source lexemes) after [items.map outline])
    placed.laid fun items lexemes laid => Places.look ?_
  split
  · next head =>
    refine Places.advance head fun _ rest afterComma _ => ?_
    refine (each rest).bind fun item rest _ placed => Places.pure ?_
    rw [Sum.elim_inl, List.map_append]
    exact (laid.later afterComma).append placed.laid
  · split
    · exact Places.pure laid
    · exact Places.unexpected
  · exact Places.unexpected

/-- The items may have faults. -/
theorem surveys_commaList {item : Parser Value} {ends : Token → Bool} {expected : String}
    {outline : Value → Outline}
    (each : ∀ lexemes, Surveys source stream (offset source lexemes) [] lexemes item
      fun found faults after => FromStages stages faults ∧
        Placed source (offset source lexemes) after (outline found)) :
    Surveys source stream (offset source lexemes) [] lexemes (commaList item ends expected)
      fun found faults after => FromStages stages faults ∧
        Laid source (offset source lexemes) after [found.map outline] := by
  refine (each lexemes).bind fun first faults rest _ ⟨stages, placed⟩ => ?_
  refine Surveys.repeating (fun items faults after => FromStages _ faults ∧
    Laid source (offset source lexemes) after [items.map outline]) ⟨stages, placed.laid⟩
    fun items faults lexemes ⟨stages, laid⟩ => Surveys.look ?_
  split
  · next head =>
    refine Surveys.places (Places.advance_last head) fun _ rest afterComma _ => ?_
    refine Surveys.fresh (each rest) fun item more rest _ _ ⟨moreStages, placed⟩ => ?_
    refine Surveys.pure ⟨stages.append moreStages, ?_⟩
    rw [List.map_append]
    exact (laid.later afterComma).append placed.laid
  · split
    · exact Surveys.pure ⟨stages, laid⟩
    · exact Surveys.unexpected
  · exact Surveys.unexpected

/-! ### Ends of declarations -/

theorem Places.leadingComments {next : Comments → Parser Result} {target : Result → Nat → Prop}
    (places : ∀ comments, Places source stream lexemes (next comments) target) :
    Places source stream lexemes (leadingComments >>= next) target := by
  rw [Parser.leadingComments, bind_assoc]
  refine Places.surroundings fun around => ?_
  rw [pure_bind]
  exact places _

theorem Surveys.leadingComments {next : Comments → Parser Result}
    {target : Result → List SemanticFault → Nat → Prop}
    (surveys : ∀ comments, Surveys source stream start found lexemes (next comments) target) :
    Surveys source stream start found lexemes (leadingComments >>= next) target := by
  rw [Parser.leadingComments, bind_assoc]
  refine Surveys.surroundings fun around => ?_
  rw [pure_bind]
  exact surveys _

theorem places_terminator : Places source stream lexemes terminator fun found after =>
    Places.Taken source (.symbol .semicolon) (offset source lexemes) after found.1 := by
  refine Places.expect fun span rest _ taken => ?_
  rw [trailingComment, bind_assoc]
  refine Places.surroundings fun around => ?_
  rw [pure_bind]
  exact Places.pure taken

theorem places_openBrace : Places source stream lexemes openBrace fun _ _ => True :=
  Places.expect fun _ _ _ _ => Places.surroundings fun _ => Places.pure trivial

theorem places_emptyStatement : Places source stream lexemes emptyStatement fun _ _ => True := by
  refine Places.followsBrace fun follows => ?_
  split
  · exact Places.expect fun _ _ _ _ => Places.pure trivial
  · exact Places.here fun _ _ => Places.stop

/-! ### Bodies -/

/-- Something known of the members of a body and of the faults found in them, up to a position. -/
structure Upheld (source : List Char) (stream : List Lexeme) (start : Nat) (parse : Member State)
    (invariant : State → List SemanticFault → Nat → Prop) : Prop where
  later : ∀ {state found middle stop}, middle ≤ stop → invariant state found middle →
    invariant state found stop
  member : ∀ {state next parser found lexemes}, parse state next = some parser →
    invariant state found (offset source lexemes) →
    Surveys source stream start found lexemes parser invariant

variable {parse : Member State} {invariant : State → List SemanticFault → Nat → Prop}
variable {expected : String} {state : State}

theorem surveys_member {next : Token} (upheld : Upheld source stream start parse invariant)
    (holds : invariant state found (offset source lexemes)) :
    Surveys source stream start found lexemes (member parse expected state next) invariant := by
  rw [member]
  split
  · exact Surveys.places places_emptyStatement fun _ rest later _ =>
      Surveys.pure (upheld.later later holds)
  · split
    · next parser result => exact upheld.member result holds
    · exact Surveys.unexpected

theorem surveys_body (upheld : Upheld source stream start parse invariant)
    (holds : invariant state found (offset source lexemes)) :
    Surveys source stream start found lexemes (body parse expected state)
      fun read faults after => ∃ last, invariant read.1 faults last ∧
        Places.Taken source (.symbol .rightBrace) last after read.2 := by
  refine Surveys.repeating invariant holds fun state faults lexemes holds => Surveys.look ?_
  split
  · next head =>
    exact Surveys.places (Places.advance_last head) fun span rest _ taken =>
      Surveys.pure ⟨_, holds, taken⟩
  · exact (surveys_member upheld holds).bind fun _ _ _ _ kept => Surveys.pure kept
  · exact Surveys.unexpected

theorem surveys_topLevel (upheld : Upheld source stream start parse invariant)
    (holds : invariant state found (offset source lexemes)) :
    Surveys source stream start found lexemes (topLevel parse expected state) invariant := by
  refine Surveys.repeating invariant holds fun state faults lexemes holds => Surveys.look ?_
  split
  · exact (surveys_member upheld holds).bind fun _ _ _ _ kept => Surveys.pure kept
  · exact Surveys.pure holds

end Parser

end ProtoSchema
