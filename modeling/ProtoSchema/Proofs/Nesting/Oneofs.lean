/-
This file finds the oneofs that a source is said to leave empty. A field that is a
map with keys of the wrong type is dropped after its fault was recorded, so a oneof
ends up empty if all its fields are dropped, and then it is said to be empty. No
other declaration is. The faults of a block that is read are faults of the whole
file; for the other direction, faults are followed back to the point where the
block starts, through the members of messages and down to where nothing nests.
-/

import ProtoSchema.Proofs.Nesting.Points
import ProtoSchema.Proofs.Tracking.Files

namespace ProtoSchema

open ProtoSchema.Parser

variable {Value Result State : Type}

theorem Parser.bind_eq_done_append {parser : Parser Value} {onward : Value → Parser Result}
    {setting : Setting} {input middle left : List Lexeme} {value : Value} {result : Result}
    {earlier later : List SemanticFault} (first : parser setting input = .done value earlier middle)
    (second : onward value setting middle = .done result later left) :
    (parser >>= onward) setting input = .done result (earlier ++ later) left := by
  rw [bind_eq, first]
  dsimp only
  rw [second]
  rfl

/-! ### Dropped fields -/

namespace Parser

/-- A map type, up to the type of its keys. -/
def mapFront : Parser TypeName := do
  let _ ← word "map"
  let _ ← mark .leftAngle
  typeName

/-- The field that starts here is a map with keys of a type that no map may have. -/
def BadMap (context : FieldContext) (setting : Setting) (input : List Lexeme) : Prop :=
  ∃ name faults left, (fieldLabel context >>= fun _ => mapFront) setting input =
    .done name faults left ∧ mapKey? name = none

variable {context : FieldContext} {setting : Setting} {input left : List Lexeme}
variable {faults : List SemanticFault}

/-- What starts a map type is read as one. -/
theorem startsMap_of_mapFront {name : TypeName}
    (done : mapFront setting input = .done name faults left) :
    startsMap ((input.take 2).map (·.token)) = true := by
  obtain ⟨_, _, afterWord, _, wordDone, done, -⟩ := exists_of_bind done
  obtain ⟨_, _, _, _, markDone, -⟩ := exists_of_bind done
  obtain ⟨first, rfl, isWord, -⟩ := expect_eq_done wordDone
  obtain ⟨second, rfl, isMark, -⟩ := expect_eq_done markDone
  rw [List.take_succ_cons, List.take_succ_cons, List.map_cons, List.map_cons, isWord, isMark]
  rfl

/-- A type is dropped if it is a map type with the wrong keys. -/
theorem fieldType_eq_none_iff {found : Option FieldType}
    (done : fieldType setting input = .done found faults left) :
    found = none ↔ ∃ name others rest, mapFront setting input = .done name others rest ∧
      mapKey? name = none := by
  obtain ⟨tokens, _, _, _, looked, afterLook, -⟩ := exists_of_bind done
  obtain ⟨rfl, -, rfl⟩ := Outcome.done.inj looked
  split at afterLook
  · obtain ⟨start, _, afterWord, _, wordDone, rest, -⟩ := exists_of_bind afterLook
    obtain ⟨_, _, afterMark, _, markDone, rest, -⟩ := exists_of_bind rest
    obtain ⟨key, _, afterKey, _, keyDone, rest, -⟩ := exists_of_bind rest
    obtain ⟨_, _, _, _, -, rest, -⟩ := exists_of_bind rest
    obtain ⟨_, _, _, _, -, rest, -⟩ := exists_of_bind rest
    obtain ⟨_, _, _, _, -, rest, -⟩ := exists_of_bind rest
    have front : mapFront setting _ = .done key _ afterKey :=
      bind_eq_done_append wordDone (bind_eq_done_append markDone keyDone)
    have named : found = none ↔ mapKey? key = none := by
      cases isKey : mapKey? key with
      | some scalar =>
        rw [isKey] at rest
        obtain ⟨rfl, -, -⟩ := Outcome.done.inj rest
        exact iff_of_false (Option.some_ne_none _) (Option.some_ne_none _)
      | none =>
        rw [isKey] at rest
        obtain ⟨_, _, _, _, -, rest, -⟩ := exists_of_bind rest
        obtain ⟨rfl, -, -⟩ := Outcome.done.inj rest
        exact iff_of_true rfl rfl
    rw [named]
    constructor
    · exact fun none => ⟨key, _, afterKey, front, none⟩
    · rintro ⟨name, _, _, again, none⟩
      obtain ⟨rfl, -, -⟩ := Outcome.done.inj (front.symm.trans again)
      exact none
  · next noMap =>
    obtain ⟨type, _, _, _, -, rest, -⟩ := exists_of_bind afterLook
    obtain ⟨rfl, -, -⟩ := Outcome.done.inj rest
    refine iff_of_false (Option.some_ne_none _) ?_
    rintro ⟨name, _, _, front, -⟩
    exact noMap (startsMap_of_mapFront front)

theorem leadingComments_bind (next : Comments → Parser Value) (setting : Setting)
    (input : List Lexeme) :
    ∃ comments, (leadingComments >>= next) setting input = next comments setting input := by
  cases input <;> exact ⟨_, after_nil _⟩

theorem here_bind (next : Span → Parser Value) (setting : Setting) (input : List Lexeme) :
    ∃ span, (here >>= next) setting input = next span setting input := by
  cases input <;> exact ⟨_, after_nil _⟩

/-- Exactly the maps with the wrong keys are dropped. -/
theorem field_eq_none_iff {found : Option Field}
    (done : field context setting input = .done found faults left) :
    found = none ↔ BadMap context setting input := by
  obtain ⟨_, sameComments⟩ := leadingComments_bind _ setting input
  obtain ⟨_, samePlace⟩ := here_bind _ setting input
  rw [field, sameComments, samePlace] at done
  obtain ⟨label, _, between, _, labelDone, afterLabel, -⟩ := exists_of_bind done
  obtain ⟨tokens, _, _, _, looked, afterLook, -⟩ := exists_of_bind afterLabel
  obtain ⟨rfl, -, rfl⟩ := Outcome.done.inj looked
  split at afterLook
  · obtain ⟨_, _, _, _, -, stopped, -⟩ := exists_of_bind afterLook
    cases stopped
  · obtain ⟨type, _, afterType, _, typeDone, rest, -⟩ := exists_of_bind afterLook
    obtain ⟨_, _, _, _, -, rest, -⟩ := exists_of_bind rest
    obtain ⟨_, _, _, _, -, rest, -⟩ := exists_of_bind rest
    obtain ⟨_, _, _, _, -, rest, -⟩ := exists_of_bind rest
    obtain ⟨_, _, _, _, -, rest, -⟩ := exists_of_bind rest
    obtain ⟨_, _, _, _, -, rest, -⟩ := exists_of_bind rest
    obtain ⟨_, _, _, _, -, rest, -⟩ := exists_of_bind rest
    obtain ⟨_, _, _, _, -, rest, -⟩ := exists_of_bind rest
    obtain ⟨rfl, -, -⟩ := Outcome.done.inj rest
    rw [Option.map_eq_none_iff, fieldType_eq_none_iff typeDone]
    constructor
    · rintro ⟨name, _, _, front, none⟩
      exact ⟨name, _, _, bind_eq_done_append labelDone front, none⟩
    · rintro ⟨name, _, _, front, none⟩
      obtain ⟨_, _, _, _, again, front, -⟩ := exists_of_bind front
      obtain ⟨-, -, rfl⟩ := Outcome.done.inj (labelDone.symm.trans again)
      exact ⟨name, _, _, front, none⟩

end Parser

/-! ### The fields of a oneof -/

section Members

variable {index : Nat} {setting : Setting} {lexeme : Lexeme} {rest input left : List Lexeme}
variable {faults : List SemanticFault}

/-- A member adds a field to a oneof if it is one that is not dropped. -/
theorem Oneof.fields_of_member {state following : Oneof} {expected : String}
    (done : Parser.member (oneofMember index) expected state lexeme.token setting
      (lexeme :: rest) = .done following faults left) :
    following.fields = [] ↔ state.fields = [] ∧
      (FieldStarts (.oneof index) lexeme.token → BadMap (.oneof index) setting (lexeme :: rest)) := by
  rw [Parser.member] at done
  split at done
  · next isSemicolon =>
    obtain ⟨_, _, _, _, -, answered, -⟩ := exists_of_bind done
    obtain ⟨rfl, -, -⟩ := Outcome.done.inj answered
    refine (and_iff_left fun starts => ?_).symm
    rw [isSemicolon] at starts
    cases starts.1
  · rw [oneofMember] at done
    split_ifs at done with isOption isField
    · obtain ⟨_, _, _, _, -, answered, -⟩ := exists_of_bind done
      obtain ⟨rfl, -, -⟩ := Outcome.done.inj answered
      exact (and_iff_left fun starts => absurd isOption (starts.2 _ List.mem_cons_self)).symm
    · obtain ⟨found, _, _, _, read, answered, -⟩ := exists_of_bind done
      obtain ⟨rfl, -, -⟩ := Outcome.done.inj answered
      have starts : FieldStarts (.oneof index) lexeme.token :=
        ⟨isField, List.forall_mem_singleton.mpr isOption⟩
      rw [← field_eq_none_iff read, List.append_eq_nil_iff, Option.toList_eq_nil_iff]
      exact and_congr_right fun _ => ⟨fun none _ => none, fun none => none starts⟩
    · cases lexeme.token <;> cases done

/-- A body that is read to its end ends there, or has a member first. -/
theorem Body.cases_of_repeatFor {kind : Block} {state known : kind.State}
    {budget : List Lexeme} {stop : Span}
    (done : repeatFor (Body.block kind).step budget state setting input =
      .done (known, stop) faults left) :
    (∃ brace, input = brace :: left ∧ brace.token = .symbol .rightBrace ∧ state = known) ∨
      ∃ lexeme rest following earlier middle other fewer later, input = lexeme :: rest ∧
        lexeme.token ≠ .symbol .rightBrace ∧
        Parser.member kind.form.member kind.form.expected state lexeme.token setting input =
          .done following earlier middle ∧
        budget = other :: fewer ∧
        repeatFor (Body.block kind).step fewer following setting middle =
          .done (known, stop) later left := by
  cases input with
  | nil => cases budget <;> cases done
  | cons lexeme rest =>
    by_cases isBrace : lexeme.token = .symbol .rightBrace
    · have last : repeatFor (Body.block kind).step budget state setting (lexeme :: rest) =
          .done (state, lexeme.span) [] rest := repeatFor_of_last (step_brace isBrace)
      obtain ⟨same, -, rfl⟩ := Outcome.done.inj (last.symm.trans done)
      exact .inl ⟨lexeme, rfl, isBrace, congrArg Prod.fst same⟩
    · refine .inr ?_
      cases budget with
      | nil =>
        obtain ⟨found, _, _, _, first, again, -⟩ := exists_of_bind done
        rw [Body.step_eq isBrace, map_eq_pure_bind] at first
        obtain ⟨following, _, _, _, read, answered, -⟩ := exists_of_bind first
        obtain ⟨rfl, -, rfl⟩ := Outcome.done.inj answered
        obtain ⟨_, _, _, _, -, stopped, -⟩ := exists_of_bind again
        cases stopped
      | cons other fewer =>
        obtain ⟨found, _, _, _, first, again, -⟩ := exists_of_bind done
        rw [Body.step_eq isBrace, map_eq_pure_bind] at first
        obtain ⟨following, _, _, _, read, answered, -⟩ := exists_of_bind first
        obtain ⟨rfl, -, rfl⟩ := Outcome.done.inj answered
        exact ⟨lexeme, rest, following, _, _, other, fewer, _, rfl, isBrace, read, rfl, again⟩

/-- The parser comes to the members of a body from those of others alone. -/
theorem Point.exists_member {point : Point} {body : Body} {state : body.State}
    (reaches : Relation.ReflTransGen (Leads setting) point (.member body state input)) :
    ∃ outer known ahead, point = .member outer known ahead := by
  induction reaches using Relation.ReflTransGen.head_induction_on with
  | refl => exact ⟨_, _, _, rfl⟩
  | head leads _ inductionHypothesis =>
    obtain ⟨_, _, _, rfl⟩ := inductionHypothesis
    cases leads
    all_goals exact ⟨_, _, _, rfl⟩

/-- Where the parser comes to a field of a oneof, from a point in the body. -/
def Oneof.Declares (setting : Setting) (index : Nat) (state : Oneof) (input : List Lexeme)
    (field : List Lexeme) : Prop :=
  ∃ following lexeme rest, field = lexeme :: rest ∧ FieldStarts (.oneof index) lexeme.token ∧
    Relation.ReflTransGen (Point.Leads setting) (.member (.block (.oneof index)) state input)
      (.member (.block (.oneof index)) following field)

/-- From a point in a oneof the parser goes on in it by reading a member. -/
theorem Oneof.reaches_cases {state found : Oneof} {field : List Lexeme}
    (reaches : Relation.ReflTransGen (Point.Leads setting)
      (.member (.block (.oneof index)) state input)
      (.member (.block (.oneof index)) found field)) :
    field = input ∨ ∃ lexeme rest following faults left, input = lexeme :: rest ∧
      lexeme.token ≠ .symbol .rightBrace ∧
      Parser.member (oneofMember index) (Body.block (.oneof index)).expected state lexeme.token
        setting input = .done following faults left ∧
      Relation.ReflTransGen (Point.Leads setting)
        (.member (.block (.oneof index)) following left)
        (.member (.block (.oneof index)) found field) := by
  rcases reaches.cases_head with same | ⟨middle, leads, reaches⟩
  · exact .inl (Point.member.inj same).2.2.symm
  · obtain ⟨outer, known, ahead, rfl⟩ := Point.exists_member reaches
    cases leads with
    | member goesOn read => exact .inr ⟨_, _, _, _, _, rfl, goesOn, read, reaches⟩
    | enter opens read => cases opens

/-- Nothing is declared behind the brace that closes a oneof. -/
theorem Oneof.not_declares_of_brace {state : Oneof} {brace : Lexeme} {field : List Lexeme}
    (isBrace : brace.token = .symbol .rightBrace) :
    ¬ Oneof.Declares setting index state (brace :: left) field := by
  rintro ⟨following, lexeme, rest, rfl, starts, reaches⟩
  obtain same | ⟨_, _, _, _, _, same, goesOn, -⟩ := reaches_cases reaches
  · obtain ⟨rfl, -⟩ := List.cons.inj same
    rw [isBrace] at starts
    cases starts.1
  · obtain ⟨rfl, -⟩ := List.cons.inj same
    exact goesOn isBrace

/-- The fields that are declared from a member on are that member, if it is a field, and those
behind it. -/
theorem Oneof.declares_cons_iff {state following : Oneof} {field : List Lexeme}
    (goesOn : lexeme.token ≠ .symbol .rightBrace)
    (read : Parser.member (oneofMember index) (Body.block (.oneof index)).expected state
      lexeme.token setting (lexeme :: rest) = .done following faults left) :
    Oneof.Declares setting index state (lexeme :: rest) field ↔
      (field = lexeme :: rest ∧ FieldStarts (.oneof index) lexeme.token) ∨
        Oneof.Declares setting index following left field := by
  constructor
  · rintro ⟨found, first, others, rfl, starts, reaches⟩
    obtain same | ⟨_, _, _, _, _, same, -, again, onward⟩ := reaches_cases reaches
    · obtain ⟨rfl, rfl⟩ := List.cons.inj same
      exact .inl ⟨rfl, starts⟩
    · obtain ⟨rfl, rfl⟩ := List.cons.inj same
      obtain ⟨rfl, -, rfl⟩ := Outcome.done.inj (read.symm.trans again)
      exact .inr ⟨found, first, others, rfl, starts, onward⟩
  · rintro (⟨rfl, starts⟩ | ⟨found, first, others, rfl, starts, reaches⟩)
    · exact ⟨state, lexeme, rest, rfl, starts, .refl⟩
    · exact ⟨found, first, others, rfl, starts, .head (.member goesOn read) reaches⟩

/-- A oneof that is read to its end has no field if all that it declares were dropped. -/
theorem Oneof.fields_of_body {state read : Oneof} {budget : List Lexeme} {stop : Span}
    (done : repeatFor (Body.block (.oneof index)).step budget state setting input =
      .done (read, stop) faults left) :
    read.fields = [] ↔ state.fields = [] ∧
      ∀ field, Oneof.Declares setting index state input field →
        BadMap (.oneof index) setting field := by
  induction budget generalizing state input faults with
  | nil =>
    obtain ⟨brace, rfl, isBrace, rfl⟩ | ⟨_, _, _, _, _, _, _, _, _, _, _, split, _⟩ :=
      Body.cases_of_repeatFor done
    · exact (and_iff_left fun field declares =>
        absurd declares (not_declares_of_brace isBrace)).symm
    · cases split
  | cons other budget inductionHypothesis =>
    obtain ⟨brace, rfl, isBrace, rfl⟩ |
        ⟨lexeme, rest, following, _, middle, _, _, _, rfl, goesOn, member, split, again⟩ :=
      Body.cases_of_repeatFor done
    · exact (and_iff_left fun field declares =>
        absurd declares (not_declares_of_brace isBrace)).symm
    · obtain ⟨rfl, rfl⟩ := List.cons.inj split
      rw [inductionHypothesis again, fields_of_member member, and_assoc]
      refine and_congr_right fun _ => ?_
      constructor
      · rintro ⟨first, others⟩ field declares
        obtain ⟨rfl, starts⟩ | behind := (declares_cons_iff goesOn member).mp declares
        · exact first starts
        · exact others field behind
      · intro all
        exact ⟨fun starts => all _ ((declares_cons_iff goesOn member).mpr (.inl ⟨rfl, starts⟩)),
          fun field behind => all field ((declares_cons_iff goesOn member).mpr (.inr behind))⟩

end Members

/-! ### Oneofs that are read -/

/-- A oneof that the parser comes to from some point, and what it reads there: the header, up to
the first member, and the members, up to the closing brace. -/
structure Oneof.ReadFrom (setting : Setting) (start : Point) (index : Nat) (begun : Oneof)
    (members : List Lexeme) (oneof : Oneof) : Prop where
  header : ∃ body state lexeme rest faults,
    Relation.ReflTransGen (Point.Leads setting) start (.member body state (lexeme :: rest)) ∧
      body.opened? state lexeme.token = some (.oneof index) ∧
      (Block.oneof index).form.header setting (lexeme :: rest) = .done begun faults members
  body : ∃ stop faults left,
    Parser.body (oneofMember index) (Body.block (.oneof index)).expected begun setting members =
      .done (oneof, stop) faults left

/-- A oneof is read, with its name at the given place, of which all fields are dropped. -/
def LeavesEmpty (setting : Setting) (start : Point) (span : Span) : Prop :=
  ∃ index begun members oneof, Oneof.ReadFrom setting start index begun members oneof ∧
    oneof.name.span = span ∧ ∀ field, Oneof.Declares setting index begun members field →
      BadMap (.oneof index) setting field

/-- Of the faults of a oneof, one says that it is empty. -/
theorem Oneof.emptyOneof_mem_faults {oneof : Oneof} {span : Span} :
    ⟨.emptyOneof, span⟩ ∈ oneof.faults ↔ oneof.fields = [] ∧ oneof.name.span = span := by
  have empty : ⟨.emptyOneof, span⟩ ∈ oneof.faults ↔
      oneof.fields = [] ∧ span = oneof.name.span := by
    simp [faults, memberFaults, repeatedNames, repeatedName, NumberedField.repeatedNumber]
  rw [empty]
  exact and_congr_right fun _ => eq_comm

theorem Oneof.fields_of_header {setting : Setting} {index : Nat} {begun : Oneof}
    {input left : List Lexeme} {faults : List SemanticFault}
    (done : (BlockForm.oneof index).header setting input = .done begun faults left) :
    begun.fields = [] := by
  obtain ⟨_, _, _, _, -, rest, -⟩ := exists_of_bind done
  obtain ⟨_, _, _, _, -, rest, -⟩ := exists_of_bind rest
  obtain ⟨_, _, _, _, -, rest, -⟩ := exists_of_bind rest
  obtain ⟨_, _, _, _, -, rest, -⟩ := exists_of_bind rest
  obtain ⟨rfl, -, -⟩ := Outcome.done.inj rest
  rfl

/-- A oneof is left empty if it has no field when it is closed. -/
theorem leavesEmpty_iff {setting : Setting} {start : Point} {span : Span} :
    LeavesEmpty setting start span ↔ ∃ index begun members oneof,
      Oneof.ReadFrom setting start index begun members oneof ∧
        ⟨.emptyOneof, span⟩ ∈ oneof.faults := by
  refine exists_congr fun index => exists_congr fun begun => exists_congr fun members =>
    exists_congr fun oneof => and_congr_right fun read => ?_
  obtain ⟨_, _, _, _, _, -, -, header⟩ := read.header
  obtain ⟨_, _, _, body⟩ := read.body
  have fields := Oneof.fields_of_body body
  rw [Oneof.emptyOneof_mem_faults, fields, and_comm]
  exact and_congr_left fun _ => (and_iff_right (Oneof.fields_of_header header)).symm

/-! ### From a oneof to the file -/

/-- What is found in a part of what is parsed is found in the whole, and where the part stops the
whole does. -/
structure Outcome.Contains (whole : Outcome Value) (part : Outcome Result) : Prop where
  broken : ∀ fault ∈ part.broken, fault ∈ whole.broken
  last : ∀ fault ∈ part.last?, fault ∈ whole.last?

namespace Outcome.Contains

variable {Other : Type} {whole : Outcome Value} {part : Outcome Result} {inner : Outcome Other}

theorem trans (outer : whole.Contains part) (nested : part.Contains inner) :
    whole.Contains inner :=
  ⟨fun fault member => outer.broken fault (nested.broken fault member),
    fun fault member => outer.last fault (nested.last fault member)⟩

variable {parser : Parser Value} {onward : Value → Parser Result} {setting : Setting}
variable {input left : List Lexeme} {value : Value} {faults : List SemanticFault}

/-- A sequence contains its first part. -/
theorem first (parser : Parser Value) (onward : Value → Parser Result) (setting : Setting)
    (input : List Lexeme) :
    ((parser >>= onward) setting input).Contains (parser setting input) := by
  rw [bind_eq]
  cases parser setting input with
  | stopped faults fault => exact ⟨fun _ member => member, fun _ member => member⟩
  | done value faults rest =>
    dsimp only
    refine ⟨fun fault member => ?_, fun fault member => nomatch member⟩
    cases onward value setting rest <;> exact List.mem_append_left _ member

/-- A sequence whose first part goes through contains the second. -/
theorem second (done : parser setting input = .done value faults left) :
    ((parser >>= onward) setting input).Contains (onward value setting left) := by
  rw [bind_eq, done]
  dsimp only
  cases onward value setting left with
  | done result others rest => exact ⟨fun _ => List.mem_append_right _, fun _ member => member⟩
  | stopped others fault => exact ⟨fun _ => List.mem_append_right _, fun _ member => member⟩

end Outcome.Contains

/-- A loop contains its first step. -/
theorem Parser.repeatFor_contains_step {step : State → Parser (State ⊕ Result)}
    (budget : List Lexeme) (state : State) (setting : Setting) (input : List Lexeme) :
    (repeatFor step budget state setting input).Contains (step state setting input) := by
  cases budget <;> exact .first _ _ _ _

/-- What reads a member is contained in the step that does. -/
theorem Body.step_contains_member {body : Body} {state : body.State} {setting : Setting}
    {lexeme : Lexeme} {rest : List Lexeme} (goesOn : lexeme.token ≠ .symbol .rightBrace) :
    (body.step state setting (lexeme :: rest)).Contains
      (Parser.member body.member body.expected state lexeme.token setting (lexeme :: rest)) := by
  rw [step_eq goesOn, map_eq_pure_bind]
  exact .first _ _ _ _

/-- What reads a block is contained in the step that reads it as a member. -/
theorem Body.step_contains_block {body : Body} {state : body.State} {setting : Setting}
    {lexeme : Lexeme} {rest : List Lexeme} {kind : Block}
    (opens : body.opened? state lexeme.token = some kind) :
    (body.step state setting (lexeme :: rest)).Contains
      (kind.parser setting (lexeme :: rest)) := by
  refine (step_contains_member (goesOn_of_opened opens)).trans ?_
  rw [readMember_of_opened opens]
  exact .first _ _ _ _

/-- The members from this point on are parsed as a part of the whole. The body of a method is left
out, since it is not known to be one before it starts. -/
def Point.PartOf (setting : Setting) (whole : Outcome Value) : Point → Prop
  | .member body state input => body ≠ .block .method →
    ∃ budget, whole.Contains (repeatFor body.step budget state setting input)
  | _ => True

section Parts

variable {setting : Setting} {whole : Outcome Value} {point following : Point}

/-- A parser that does not stall goes on from a part to the next one. -/
theorem Point.PartOf.leads (part : point.PartOf setting whole)
    (moves : ∀ fault ∈ whole.last?, fault.cause ≠ .stalled) (leads : Leads setting point following) :
    following.PartOf setting whole := by
  cases leads with
  | @member body state after lexeme rest left faults goesOn read =>
    intro noMethod
    obtain ⟨budget, contains⟩ := part noMethod
    have step : ∃ others, body.step state setting (lexeme :: rest) = .done (.inl after) others left := by
      rw [Body.step_eq goesOn, map_eq_pure_bind]
      exact ⟨_, bind_eq_done_append read rfl⟩
    obtain ⟨others, step⟩ := step
    cases budget with
    | nil =>
      -- There would be no time for the next step.
      have stalls : ∃ fault ∈ (repeatFor body.step [] state setting (lexeme :: rest)).last?,
          fault.cause = .stalled := by
        rw [repeatFor, bind_eq, step]
        cases left <;> exact ⟨_, rfl, rfl⟩
      obtain ⟨fault, member, stalled⟩ := stalls
      exact absurd stalled (moves fault (contains.last fault member))
    | cons other fewer => exact ⟨fewer, contains.trans (.second step)⟩
  | @enter body state lexeme rest left kind begun faults opens header =>
    intro noMethod
    have inside : body ≠ .block .method := by
      rintro rfl
      cases opens
    obtain ⟨budget, contains⟩ := part inside
    have block := (repeatFor_contains_step budget state setting (lexeme :: rest)).trans
      (Body.step_contains_block opens)
    rw [kind.parser_eq (fun same => noMethod (congrArg Body.block same)), BlockForm.parser] at block
    exact ⟨left, contains.trans (block.trans ((Outcome.Contains.second header).trans (.first _ _ _ _)))⟩
  | _ => trivial

theorem Point.PartOf.reaches (part : point.PartOf setting whole)
    (moves : ∀ fault ∈ whole.last?, fault.cause ≠ .stalled)
    (reaches : Relation.ReflTransGen (Leads setting) point following) :
    following.PartOf setting whole := by
  induction reaches with
  | refl => exact part
  | tail _ leads inductionHypothesis => exact inductionHypothesis.leads moves leads

/-- A oneof that is left empty is said to be. -/
theorem Point.PartOf.emptyOneof_mem {span : Span} (part : point.PartOf setting whole)
    (moves : ∀ fault ∈ whole.last?, fault.cause ≠ .stalled)
    (leaves : LeavesEmpty setting point span) : ⟨.emptyOneof, span⟩ ∈ whole.broken := by
  obtain ⟨index, begun, members, oneof, read, found⟩ := leavesEmpty_iff.mp leaves
  obtain ⟨body, state, lexeme, rest, _, reaches, opens, header⟩ := read.header
  obtain ⟨stop, _, _, closed⟩ := read.body
  have inside : body ≠ .block .method := by
    rintro rfl
    cases opens
  obtain ⟨budget, contains⟩ := part.reaches moves reaches inside
  have block := (repeatFor_contains_step budget state setting (lexeme :: rest)).trans
    (Body.step_contains_block opens)
  rw [Block.parser_eq Block.noConfusion, BlockForm.parser] at block
  have behind := contains.trans (block.trans (.second header))
  exact (behind.trans (.second closed)).broken _ (List.mem_append_left [] found)

end Parts

end ProtoSchema
