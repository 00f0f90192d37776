/-
This file names the spots that the parser comes to on its way through a source:
those where it is about to read a member of a file or of a block, with what it
knows of the members before. From a spot the parser goes on to the next one by
reading a member or an empty statement whole; where a block starts, it also comes
to the spot behind the header of that block. A block that was read whole was gone
through spot by spot, up to the brace that closes it.
-/

import Mathlib.Logic.Relation
import ProtoSchema.Grammar.Files
import ProtoSchema.Proofs.Canonical.Phrases
import ProtoSchema.Proofs.Grammar.Blocks

namespace ProtoSchema

open ProtoSchema.Parser

/-! ### Blocks and bodies -/

/-- The blocks of a schema. A message knows to which depth others may nest in it. -/
inductive Block where
  | message (depth : Nat) (path : MessagePath)
  | enumeration
  | oneof (index : Nat)
  | extension (parent : Option MessagePath)
  | service
  | method
deriving DecidableEq, Repr

namespace Block

/-- What a block is read to. -/
abbrev Value : Block → Type
  | message _ _ => Message
  | enumeration => Enumeration
  | oneof _ => Oneof
  | extension _ => Extension
  | service => Service
  | method => Method

/-- What is known between two members of a block. -/
abbrev State : Block → Type
  | message _ _ => Message
  | enumeration => Enumeration
  | oneof _ => Oneof
  | extension _ => Extension
  | service => Service
  | method => List OptionStatement

/-- How each kind of block is parsed. -/
def form : (block : Block) → BlockForm block.Value block.State
  | message depth path => .message (Parser.message depth) path
  | enumeration => .enumeration
  | oneof index => .oneof index
  | extension parent => .extension parent
  | service => .service
  | method => .method

/-- The parser of the grammar. -/
def parser : (block : Block) → Parser block.Value
  | message depth path => Parser.message (depth + 1) path
  | enumeration => Parser.enumeration
  | oneof index => Parser.oneof index
  | extension parent => Parser.extension parent
  | service => Parser.service
  | method => Parser.method

/-- Any block but a method has a body. -/
theorem parser_eq {block : Block} (hasBody : block ≠ .method) :
    block.parser = block.form.parser := by
  cases block with
  | message depth path => exact message_eq depth path
  | enumeration => exact enumeration_eq
  | oneof index => exact oneof_eq index
  | extension parent => exact extension_eq parent
  | service => exact service_eq
  | method => exact absurd rfl hasBody

/-- After the header of a block, the parser of the grammar goes on with the body. -/
theorem parser_of_header (block : Block) {setting : Setting} {lexemes left : List Lexeme}
    {begun : block.Value} (done : block.form.header setting lexemes = .done begun [] left) :
    block.parser setting lexemes = block.form.rest begun setting left := by
  by_cases isMethod : block = .method
  · subst isMethod
    exact method_of_header done
  · rw [parser_eq isMethod]
    exact bind_of_done done

end Block

/-- What has members: a file or a block. -/
inductive Body where
  | file
  | block (block : Block)
deriving DecidableEq, Repr

namespace Body

/-- What is known between two members. -/
abbrev State : Body → Type
  | .file => File
  | .block kind => kind.State

/-- What is known after the last member. -/
abbrev Result : Body → Type
  | .file => File
  | .block kind => kind.State × Span

/-- How a member of the file or the block is parsed. -/
def member : (body : Body) → Member body.State
  | .file => fileMember
  | .block kind => kind.form.member

/-- What is named as expected where no member starts. -/
def expected : Body → String
  | .file => "'enum', 'extend', 'import', 'message', 'option', 'service', 'package' or ';'"
  | .block kind => kind.form.expected

/-- A step through the members. -/
def step : (body : Body) → body.State → Parser (body.State ⊕ body.Result)
  | .file => topLevelStep fileMember (expected .file)
  | .block kind => bodyStep kind.form.member kind.form.expected

/-- The block that a token starts, if it starts one. -/
def opened? : (body : Body) → body.State → Token → Option Block
  | .file, known, .word text =>
    if text = "message" then some (.message (Nesting.message.limit - 1) [known.messages.length])
    else if text = "enum" then some .enumeration
    else if text = "service" then some .service
    else if text = "extend" then some (.extension none)
    else none
  | .block (.message depth path), known, .word text =>
    if text = "message" then
      match depth with
      | 0 => none
      | depth + 1 => some (.message depth (path ++ [known.messages.length]))
    else if text = "enum" then some .enumeration
    else if text = "oneof" then some (.oneof known.oneofs.length)
    else if text = "extend" then some (.extension (some path))
    else none
  | .block .service, _, .word text => if text = "rpc" then some .method else none
  | _, _, _ => none

/-- What is known after one more block. -/
def attach : (body : Body) → (kind : Block) → body.State → kind.Value → body.State
  | .file, .message _ _, known, read => { known with messages := known.messages ++ [read] }
  | .file, .enumeration, known, read => { known with enums := known.enums ++ [read] }
  | .file, .service, known, read => { known with services := known.services ++ [read] }
  | .file, .extension _, known, read => { known with extensions := known.extensions ++ [read] }
  | .block (.message _ _), .message _ _, known, read =>
    { known with messages := known.messages ++ [read] }
  | .block (.message _ _), .enumeration, known, read =>
    { known with enums := known.enums ++ [read] }
  | .block (.message _ _), .oneof _, known, read =>
    { known with oneofs := known.oneofs ++ [read] }
  | .block (.message _ _), .extension _, known, read =>
    { known with extensions := known.extensions ++ [read] }
  | .block .service, .method, known, read => { known with methods := known.methods ++ [read] }
  | _, _, known, _ => known

/-- A block that a token starts is parsed by its parser and attached to what is known. -/
theorem member_of_opened {body : Body} {state : body.State} {next : Token} {block : Block}
    (opens : body.opened? state next = some block) :
    body.member state next = some do return body.attach block state (← block.parser) := by
  unfold opened? at opens
  split at opens
  · split_ifs at opens with isMessage isEnum isService isExtend
    all_goals
      obtain rfl := Option.some.inj opens
      subst_vars
      rfl
  · split_ifs at opens with isMessage isEnum isOneof isExtend
    · split at opens
      · cases opens
      · obtain rfl := Option.some.inj opens
        subst_vars
        rfl
    all_goals
      obtain rfl := Option.some.inj opens
      subst_vars
      rfl
  · split_ifs at opens with isMethod
    obtain rfl := Option.some.inj opens
    subst_vars
    rfl
  · cases opens

/-- Only words start blocks. -/
theorem word_of_opened {body : Body} {state : body.State} {next : Token} {kind : Block}
    (opens : body.opened? state next = some kind) : ∃ text, next = .word text := by
  unfold opened? at opens
  split at opens
  · exact ⟨_, rfl⟩
  · exact ⟨_, rfl⟩
  · exact ⟨_, rfl⟩
  · cases opens

theorem goesOn_of_opened {body : Body} {state : body.State} {next : Token} {kind : Block}
    (opens : body.opened? state next = some kind) : next ≠ .symbol .rightBrace := by
  obtain ⟨text, rfl⟩ := word_of_opened opens
  exact Token.noConfusion

/-- How deep the bodies nest that are read as members of one. -/
def height : Body → Nat
  | .file => Nesting.message.limit + 1
  | .block (.message depth _) => depth + 1
  | .block _ => 0

theorem height_lt_of_opened {body : Body} {state : body.State} {next : Token} {kind : Block}
    (opens : body.opened? state next = some kind) (noMethod : kind ≠ .method) :
    (Body.block kind).height < body.height := by
  unfold opened? at opens
  split at opens
  · split_ifs at opens
    all_goals
      obtain rfl := Option.some.inj opens
      simp [height, Nesting.limit]
  · split_ifs at opens
    · split at opens
      · cases opens
      · obtain rfl := Option.some.inj opens
        simp [height]
    all_goals
      obtain rfl := Option.some.inj opens
      simp [height]
  · split_ifs at opens
    exact absurd (Option.some.inj opens).symm noMethod
  · cases opens

/-- A block among the members is read by its parser. -/
theorem readMember_of_opened {body : Body} {state : body.State} {next : Token} {kind : Block}
    (opens : body.opened? state next = some kind) :
    Parser.member body.member body.expected state next = do
      return body.attach kind state (← kind.parser) := by
  obtain ⟨text, rfl⟩ := word_of_opened opens
  rw [Parser.member, if_neg (by simp), member_of_opened opens]

end Body

/-! ### Spots -/

/-- A spot between two members, with what is known and the tokens that are left. -/
structure Spot where
  body : Body
  state : body.State
  input : List Lexeme

/-- How the parser goes on from a spot where no closing brace is next. -/
inductive Spot.Leads (setting : Setting) : Spot → Spot → Prop where
  /-- A member or an empty statement is read whole. -/
  | member {body : Body} {state following : body.State} {lexeme : Lexeme}
      {rest left : List Lexeme} (goesOn : lexeme.token ≠ .symbol .rightBrace)
      (done : Parser.member body.member body.expected state lexeme.token setting (lexeme :: rest) =
        .done following [] left) :
      Leads setting ⟨body, state, lexeme :: rest⟩ ⟨body, following, left⟩
  /-- The header of a block is read. -/
  | enter {body : Body} {state : body.State} {lexeme : Lexeme} {rest left : List Lexeme}
      {kind : Block} {begun : kind.Value} (opens : body.opened? state lexeme.token = some kind)
      (done : kind.form.header setting (lexeme :: rest) = .done begun [] left) :
      Leads setting ⟨body, state, lexeme :: rest⟩ ⟨.block kind, kind.form.begin begun, left⟩

/-- The spot at the first member of a file, behind the declaration of its edition. -/
def Spot.first (declared : Option Edition) (input : List Lexeme) : Spot :=
  ⟨.file, { File.empty with declaredEdition := declared }, input⟩

/-- The parser comes to a spot of a source, of which this are the tokens. -/
def Spot.Visited (setting : Setting) (lexemes : List Lexeme) (spot : Spot) : Prop :=
  ∃ declared input, declaredEdition setting lexemes = .done declared [] input ∧
    Relation.ReflTransGen (Leads { setting with edition := declared }) (first declared input) spot

/-! ### Loops -/

section Loops

variable {body : Body} {state : body.State} {setting : Setting} {lexeme : Lexeme}
variable {budget rest left : List Lexeme} {result : body.Result}

/-- Where no closing brace is next, a step reads a member. -/
theorem Body.step_eq (goesOn : lexeme.token ≠ .symbol .rightBrace) :
    body.step state setting (lexeme :: rest) =
      (Sum.inl <$> Parser.member body.member body.expected state lexeme.token) setting
        (lexeme :: rest) := by
  cases body with
  | file =>
    rw [step, topLevelStep, look_bind]
    rfl
  | block kind =>
    rw [step, bodyStep, look_bind]
    obtain ⟨token, span, before, follows⟩ := lexeme
    cases token with
    | symbol mark => cases mark <;> first | rfl | exact absurd rfl goesOn
    | _ => rfl

theorem Body.step_of_member {following : body.State} {middle : List Lexeme}
    (goesOn : lexeme.token ≠ .symbol .rightBrace)
    (read : Parser.member body.member body.expected state lexeme.token setting (lexeme :: rest) =
      .done following [] middle) :
    body.step state setting (lexeme :: rest) = .done (.inl following) [] middle := by
  rw [step_eq goesOn, map_eq_pure_bind, bind_of_done read]
  rfl

/-- A closing brace ends the body of a block. -/
theorem Body.step_brace {kind : Block} {state : kind.State}
    (isBrace : lexeme.token = .symbol .rightBrace) :
    (Body.block kind).step state setting (lexeme :: rest) =
      .done (.inr (state, lexeme.span)) [] rest := by
  rw [step, bodyStep, look_bind, List.head?_cons, Option.map_some, isBrace]
  rfl

/-- A member that goes on is one that was read. -/
theorem Body.exists_of_step {following : body.State} {input : List Lexeme}
    {faults : List SemanticFault}
    (done : body.step state setting input = .done (.inl following) faults left) :
    ∃ lexeme rest, input = lexeme :: rest ∧ lexeme.token ≠ .symbol .rightBrace ∧
      Parser.member body.member body.expected state lexeme.token setting input =
        .done following faults left := by
  cases input with
  | nil => cases body <;> cases done
  | cons lexeme rest =>
    refine ⟨lexeme, rest, rfl, ?_⟩
    by_cases isBrace : lexeme.token = .symbol .rightBrace
    · cases body with
      | file =>
        rw [step, topLevelStep, look_bind, List.head?_cons, Option.map_some, isBrace] at done
        cases done
      | block kind =>
        rw [step_brace isBrace] at done
        cases done
    · rw [step_eq isBrace, map_eq_pure_bind] at done
      obtain ⟨found, _, _, _, read, answered, rfl⟩ := exists_of_bind done
      obtain ⟨same, rfl, rfl⟩ := Outcome.done.inj answered
      obtain rfl := Sum.inl.inj same
      exact ⟨isBrace, by rwa [List.append_nil]⟩

/-- A loop that is done after it read a member had more time and goes on. -/
theorem Parser.repeatFor_of_next {State Result : Type} {step : State → Parser (State ⊕ Result)}
    {state following : State} {result : Result} {lexemes middle : List Lexeme}
    (done : repeatFor step budget state setting lexemes = .done result [] left)
    (next : step state setting lexemes = .done (.inl following) [] middle) :
    ∃ other fewer, budget = other :: fewer ∧
      repeatFor step fewer following setting middle = .done result [] left := by
  cases budget with
  | nil =>
    rw [repeatFor, bind_of_done next] at done
    obtain ⟨_, _, -, stopped⟩ := bind_eq_done done
    cases stopped
  | cons other fewer =>
    rw [repeatFor, bind_of_done next] at done
    exact ⟨other, fewer, rfl, done⟩

/-- A loop that reads a member goes on. -/
theorem Parser.repeatFor_cons_of_next {State Result : Type}
    {step : State → Parser (State ⊕ Result)} {state following : State}
    {lexemes middle : List Lexeme}
    (next : step state setting lexemes = .done (.inl following) [] middle) (other : Lexeme) :
    repeatFor step (other :: budget) state setting lexemes =
      repeatFor step budget following setting middle := by
  rw [repeatFor, bind_of_done next]

/-- A loop that reads the last member has its result. -/
theorem Parser.repeatFor_of_last {State Result : Type} {step : State → Parser (State ⊕ Result)}
    {state : State} {result : Result} {lexemes : List Lexeme}
    (last : step state setting lexemes = .done (.inr result) [] left) :
    repeatFor step budget state setting lexemes = .done result [] left := by
  cases budget with
  | nil =>
    rw [repeatFor, bind_of_done last]
    rfl
  | cons other fewer =>
    rw [repeatFor, bind_of_done last]
    rfl

/-- A loop that is done did its first step. -/
theorem Parser.exists_of_repeatFor {State Result : Type} {step : State → Parser (State ⊕ Result)}
    {state : State} {result : Result} {lexemes : List Lexeme}
    (done : repeatFor step budget state setting lexemes = .done result [] left) :
    ∃ found middle, step state setting lexemes = .done found [] middle := by
  cases budget
  all_goals
    rw [repeatFor] at done
    obtain ⟨found, middle, first, -⟩ := bind_eq_done done
    exact ⟨found, middle, first⟩

/-- A loop that is done read a member where no closing brace was next. -/
theorem Body.exists_of_repeatFor
    (done : repeatFor body.step budget state setting (lexeme :: rest) = .done result [] left)
    (goesOn : lexeme.token ≠ .symbol .rightBrace) :
    ∃ following middle, Parser.member body.member body.expected state lexeme.token setting
      (lexeme :: rest) = .done following [] middle := by
  obtain ⟨found, middle, first⟩ := Parser.exists_of_repeatFor done
  rw [step_eq goesOn, map_eq_pure_bind] at first
  obtain ⟨following, between, read, -⟩ := bind_eq_done first
  exact ⟨following, between, read⟩

/-- A loop that is done went on after each member that it read. -/
theorem Body.repeatFor_of_member {following : body.State} {middle : List Lexeme}
    (done : repeatFor body.step budget state setting (lexeme :: rest) = .done result [] left)
    (goesOn : lexeme.token ≠ .symbol .rightBrace)
    (read : Parser.member body.member body.expected state lexeme.token setting (lexeme :: rest) =
      .done following [] middle) :
    ∃ other fewer, budget = other :: fewer ∧
      repeatFor body.step fewer following setting middle = .done result [] left :=
  repeatFor_of_next done (step_of_member goesOn read)

/-- A loop that is done went through each block whose header it read, and goes on behind it. -/
theorem Body.repeatFor_of_header {kind : Block} {begun : kind.Value} {middle : List Lexeme}
    (done : repeatFor body.step budget state setting (lexeme :: rest) = .done result [] left)
    (opens : body.opened? state lexeme.token = some kind)
    (read : kind.form.header setting (lexeme :: rest) = .done begun [] middle) :
    ∃ known stop after other fewer,
      Parser.body kind.form.member kind.form.expected (kind.form.begin begun) setting middle =
          .done (known, stop) [] after ∧
        kind.form.faults setting.edition (kind.form.close begun known stop) = [] ∧
        budget = other :: fewer ∧
        repeatFor body.step fewer (body.attach kind state (kind.form.close begun known stop))
          setting after = .done result [] left := by
  have goesOn := goesOn_of_opened opens
  obtain ⟨following, after, member⟩ := exists_of_repeatFor done goesOn
  obtain ⟨other, fewer, split, again⟩ := repeatFor_of_member done goesOn member
  rw [readMember_of_opened opens] at member
  obtain ⟨value, between, parsed, attached⟩ := bind_eq_done member
  obtain ⟨rfl, -, rfl⟩ := Outcome.done.inj attached
  rw [kind.parser_of_header read] at parsed
  obtain ⟨known, stop, bodyDone, rfl, none⟩ := rest_eq_done_iff.mp parsed
  exact ⟨known, stop, _, other, fewer, bodyDone, none, split, again⟩

/-! ### From spot to spot -/

/-- The members of the body around a spot are read to their end from there. -/
def Spot.Completes (setting : Setting) (spot : Spot) : Prop :=
  ∃ budget result left,
    repeatFor spot.body.step budget spot.state setting spot.input = .done result [] left

/-- Where the parser goes on, it gets to the end of the body that it is in. -/
theorem Spot.Leads.completes {first second : Spot} (leads : Leads setting first second)
    (completes : first.Completes setting) : second.Completes setting := by
  obtain ⟨budget, result, left, done⟩ := completes
  cases leads with
  | member goesOn read =>
    obtain ⟨_, fewer, -, again⟩ := Body.repeatFor_of_member done goesOn read
    exact ⟨fewer, result, left, again⟩
  | @enter body state lexeme rest middle kind begun opens read =>
    obtain ⟨known, stop, after, _, _, bodyDone, -⟩ := Body.repeatFor_of_header done opens read
    exact ⟨middle, (known, stop), after, bodyDone⟩

theorem Spot.completes_of_reaches {first second : Spot}
    (reaches : Relation.ReflTransGen (Leads setting) first second)
    (completes : first.Completes setting) : second.Completes setting := by
  induction reaches with
  | refl => exact completes
  | tail _ leads inductionHypothesis => exact leads.completes inductionHypothesis

/-- What is next in a block that is read to its end closes the block or is read as a member. -/
theorem Body.repeatFor_cases {kind : Block} {state known : kind.State} {lexemes : List Lexeme}
    {stop : Span}
    (done : repeatFor (Body.block kind).step budget state setting lexemes =
      .done (known, stop) [] left) :
    (∃ brace, lexemes = brace :: left ∧ brace.token = .symbol .rightBrace ∧ state = known) ∨
      ∃ following middle other fewer,
        Spot.Leads setting ⟨.block kind, state, lexemes⟩ ⟨.block kind, following, middle⟩ ∧
          budget = other :: fewer ∧
          repeatFor (Body.block kind).step fewer following setting middle =
            .done (known, stop) [] left := by
  obtain ⟨found, middle, first⟩ := Parser.exists_of_repeatFor done
  cases lexemes with
  | nil => cases first
  | cons lexeme rest =>
    by_cases isBrace : lexeme.token = .symbol .rightBrace
    · have last : repeatFor (Body.block kind).step budget state setting (lexeme :: rest) =
          .done (state, lexeme.span) [] rest := repeatFor_of_last (step_brace isBrace)
      obtain ⟨same, -, rfl⟩ := Outcome.done.inj (last.symm.trans done)
      exact .inl ⟨lexeme, rfl, isBrace, congrArg Prod.fst same⟩
    · obtain ⟨following, between, read⟩ := exists_of_repeatFor done isBrace
      obtain ⟨other, fewer, split, again⟩ := repeatFor_of_member done isBrace read
      exact .inr ⟨following, between, other, fewer, .member isBrace read, split, again⟩

/-- From a spot in a block that is read to its end, the parser comes to the brace that closes it. -/
theorem Spot.reaches_close {kind : Block} {state known : kind.State} {lexemes : List Lexeme}
    {stop : Span}
    (done : repeatFor (Body.block kind).step budget state setting lexemes =
      .done (known, stop) [] left) :
    ∃ brace, brace.token = .symbol .rightBrace ∧
      Relation.ReflTransGen (Leads setting) ⟨.block kind, state, lexemes⟩
        ⟨.block kind, known, brace :: left⟩ := by
  induction budget generalizing state lexemes with
  | nil =>
    obtain ⟨brace, rfl, closes, rfl⟩ | ⟨_, _, _, _, _, split, _⟩ := Body.repeatFor_cases done
    · exact ⟨brace, closes, .refl⟩
    · cases split
  | cons other fewer inductionHypothesis =>
    obtain ⟨brace, rfl, closes, rfl⟩ | ⟨following, middle, _, _, leads, split, again⟩ :=
      Body.repeatFor_cases done
    · exact ⟨brace, closes, .refl⟩
    · obtain ⟨rfl, rfl⟩ := List.cons.inj split
      obtain ⟨brace, closes, reaches⟩ := inductionHypothesis again
      exact ⟨brace, closes, .head leads reaches⟩

end Loops

/-! ### Files -/

/-- A file is parsed if its edition is, and then its members up to its end, from the first spot. -/
theorem Parser.file_eq_done_iff {setting : Setting} {lexemes left : List Lexeme} {parsed : File} :
    Parser.file setting lexemes = .done parsed [] left ↔
      ∃ declared input, declaredEdition setting lexemes = .done declared [] input ∧
        repeatFor (Body.file).step input (Spot.first declared input).state
            { setting with edition := declared } input = .done parsed [] left ∧
          parsed.faults = [] := by
  constructor
  · intro done
    obtain ⟨declared, input, edition, members⟩ := bind_eq_done done
    refine ⟨declared, input, edition, ?_⟩
    rw [inEdition, declarations] at members
    obtain ⟨file, middle, loop, reported⟩ := bind_eq_done members
    obtain ⟨_, between, checked, answered⟩ := bind_eq_done reported
    obtain ⟨-, none, rfl⟩ := Outcome.done.inj checked
    obtain ⟨rfl, -, rfl⟩ := Outcome.done.inj answered
    rw [topLevel_eq] at loop
    exact ⟨loop, none⟩
  · rintro ⟨declared, input, edition, loop, none⟩
    rw [file, bind_of_done edition, inEdition, declarations, topLevel_eq]
    have members : repeating (topLevelStep fileMember (Body.expected .file))
        (Spot.first declared input).state { setting with edition := declared } input =
          .done parsed [] left := loop
    refine (bind_of_done members).trans ?_
    rw [none]
    rfl

end ProtoSchema
