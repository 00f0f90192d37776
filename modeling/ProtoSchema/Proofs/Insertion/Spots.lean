/-
This file inserts a semicolon behind a brace that closes a block. The proof
follows the parser from spot to spot up to that brace. What is read before and
behind it is carried to its new place; around the brace itself, the body that is
closed there has one token more behind it, which the body around it takes as an
empty statement.
-/

import ProtoSchema.Proofs.Grammar.Spots
import ProtoSchema.Proofs.Insertion.Files

namespace ProtoSchema

open ProtoSchema.Parser

variable {move : Move}

/-! ### Blocks and bodies -/

namespace Block

/-- A block at another place. -/
def shifted (change : Span → Span) : (kind : Block) → kind.Value → kind.Value
  | message _ _ => Message.shifted change
  | enumeration => Enumeration.shifted change
  | oneof _ => Oneof.shifted change
  | extension _ => Extension.shifted change
  | service => Service.shifted change
  | method => Method.shifted change

/-- What is known between two members, at another place. -/
def shiftedState (change : Span → Span) : (kind : Block) → kind.State → kind.State
  | message _ _ => Message.shifted change
  | enumeration => Enumeration.shifted change
  | oneof _ => Oneof.shifted change
  | extension _ => Extension.shifted change
  | service => Service.shifted change
  | method => List.map (OptionStatement.shifted change)

/-- The names of types that are compared with their places have parts, once the header was read. -/
def Begun : (kind : Block) → kind.Value → Prop
  | extension _ => fun extension => extension.extendee.path.parts ≠ []
  | service => fun service => ∀ method ∈ service.methods, method.Typed
  | method => Method.Typed
  | message _ _ | enumeration | oneof _ => fun _ => True

/-- The same between two members. -/
def Kept : (kind : Block) → kind.State → Prop
  | extension _ => fun extension => extension.extendee.path.parts ≠ []
  | service => fun service => ∀ method ∈ service.methods, method.Typed
  | message _ _ | enumeration | oneof _ | method => fun _ => True

/-- The same of the whole block. -/
def Read : (kind : Block) → kind.Value → Prop
  | method => Method.Typed
  | message _ _ | enumeration | oneof _ | extension _ | service => fun _ => True

theorem carries (kind : Block) :
    CarriesBlock move kind.form (kind.shifted move) (kind.shiftedState move) kind.Begun kind.Kept
      kind.Read := by
  cases kind with
  | message depth path => exact carries_messageBlock (carries_message depth)
  | enumeration => exact carries_enumerationBlock
  | oneof index => exact carries_oneofBlock
  | extension parent => exact carries_extensionBlock
  | service => exact carries_serviceBlock
  | method => exact carries_methodBlock

end Block

namespace Body

/-- What is known between two members, with every place in it changed. -/
def shifted (change : Span → Span) : (body : Body) → body.State → body.State
  | .file => File.shifted change
  | .block kind => kind.shiftedState change

/-- What is known after the last member, with the place of the closing brace moved on. -/
def shiftedResult (move : Move) : (body : Body) → body.Result → body.Result
  | .file => File.shifted move
  | .block kind => Prod.map (kind.shiftedState move) (Span.moved move)

/-- What insertions need of what is known between two members; of a file they need nothing. -/
def Kept : (body : Body) → body.State → Prop
  | .file => fun _ => True
  | .block kind => kind.Kept

/-- What is kept to the end of the body. -/
def KeptResult : (body : Body) → body.Result → Prop
  | .file => fun _ => True
  | .block kind => fun result => kind.Kept result.1

theorem carriesMember (body : Body) :
    CarriesMember move body.member (body.shifted move) body.Kept := by
  cases body with
  | file => exact carriesMember_file
  | block kind => exact kind.carries.members

theorem carries_step (body : Body) (state : body.State) (holds : body.Kept state) :
    Carries move (body.step state) (body.step (body.shifted move state))
      (Sum.map (body.shifted move) (body.shiftedResult move))
      fun found => found.elim body.Kept body.KeptResult := by
  cases body with
  | file => exact carries_topLevelStep carriesMember_file holds
  | block kind => exact carries_bodyStep kind.carries.members holds

variable {body : Body} {state : body.State} {kind : Block} {next : Token}

/-- The same tokens start the same blocks. -/
theorem opened?_shifted (body : Body) (state : body.State) (next : Token) :
    body.opened? (body.shifted move state) next = body.opened? state next := by
  cases body with
  | file =>
    cases next with
    | word text => simp [opened?, shifted, File.shifted]
    | _ => rfl
  | block kind =>
    cases kind with
    | message depth path =>
      cases next with
      | word text =>
        cases depth <;> simp [opened?, shifted, Block.shiftedState, Message.shifted_eq]
      | _ => rfl
    | _ => cases next <;> rfl

theorem attach_shifted (value : kind.Value) :
    body.attach kind (body.shifted move state) (kind.shifted move value) =
      body.shifted move (body.attach kind state value) := by
  cases body with
  | file => cases kind <;> simp [attach, shifted, Block.shifted, File.shifted]
  | block outer =>
    cases outer with
    | message depth path =>
      cases kind <;> simp [attach, shifted, Block.shiftedState, Block.shifted, Message.shifted_eq]
    | service =>
      cases kind <;>
        simp [attach, shifted, Block.shiftedState, Block.shifted, Service.shifted, Service.moved]
    | _ => cases kind <;> rfl

theorem kept_attach {value : kind.Value} (holds : body.Kept state) (read : kind.Read value) :
    body.Kept (body.attach kind state value) := by
  cases body with
  | file => trivial
  | block outer =>
    cases outer with
    | service =>
      cases kind with
      | method => exact List.forall_mem_append.mpr ⟨holds, List.forall_mem_singleton.mpr read⟩
      | _ => exact holds
    | _ => cases kind <;> exact holds

end Body

/-! ### Inserting -/

/-- A semicolon directly behind a closing brace. -/
structure Lexeme.Empty (lexeme : Lexeme) : Prop where
  token : lexeme.token = .symbol .semicolon
  followsBrace : lexeme.followsBrace = true

/-- A brace with what is behind it, and the same at another place with a semicolon between. -/
inductive Gains (move : Move) : List Lexeme → List Lexeme → Prop where
  | intro {brace other semicolon : Lexeme} {rest otherRest : List Lexeme}
      (closes : brace.token = .symbol .rightBrace) (same : brace.Carried move other)
      (empty : semicolon.Empty) (carried : List.Forall₂ (Lexeme.Carried move) rest otherRest) :
      Gains move (brace :: rest) (other :: semicolon :: otherRest)

/-- What is left, at another place, or behind an empty statement. -/
inductive Resumes (move : Move) (left : List Lexeme) : List Lexeme → Prop where
  | carried {otherLeft : List Lexeme}
      (carried : List.Forall₂ (Lexeme.Carried move) left otherLeft) :
      Resumes move left otherLeft
  | empty {semicolon : Lexeme} {otherLeft : List Lexeme} (empty : semicolon.Empty)
      (carried : List.Forall₂ (Lexeme.Carried move) left otherLeft) :
      Resumes move left (semicolon :: otherLeft)

theorem Gains.alongside {first second : List Lexeme} (gains : Gains move first second) :
    Alongside move first second := by
  obtain ⟨closes, same, -, carried⟩ := gains
  refine .brace same closes ?_
  rw [carried.length_eq, List.length_cons]
  exact Nat.le_succ _

/-- There are more tokens after the insertion, so there is time for one more round of a loop. -/
theorem Gains.length_lt {first second taken otherTaken : List Lexeme}
    (gains : Gains move first second)
    (carriedTaken : List.Forall₂ (Lexeme.Carried move) taken otherTaken) :
    (taken ++ first).length < (otherTaken ++ second).length := by
  obtain ⟨-, -, -, carried⟩ := gains
  rw [List.length_append, List.length_append, carriedTaken.length_eq, List.length_cons,
    List.length_cons, List.length_cons, carried.length_eq]
  exact Nat.lt_succ_self _

/-- The insertion leaves the first token what it is. -/
theorem Gains.exists_cons {first second taken otherTaken rest : List Lexeme} {lexeme : Lexeme}
    (gains : Gains move first second)
    (carriedTaken : List.Forall₂ (Lexeme.Carried move) taken otherTaken)
    (split : lexeme :: rest = taken ++ first) :
    ∃ otherLexeme otherRest, otherTaken ++ second = otherLexeme :: otherRest ∧
      otherLexeme.token = lexeme.token := by
  have alongside := gains.alongside.append carriedTaken
  rw [← split] at alongside
  exact alongside.exists_cons

section Loops

variable {body : Body} {state : body.State} {result : body.Result} {setting other : Setting}
variable {budget otherBudget lexemes otherLexemes left : List Lexeme}

/-- A semicolon directly behind a closing brace is read as a member that adds nothing. -/
theorem Body.step_empty {semicolon : Lexeme} {rest : List Lexeme} (empty : semicolon.Empty) :
    body.step state setting (semicolon :: rest) = .done (.inl state) [] rest := by
  obtain ⟨token, span, before, follows⟩ := semicolon
  obtain ⟨rfl, rfl⟩ := empty
  rw [step_eq (by simp), Parser.member, if_pos rfl]
  rfl

/-- A loop that is done is done at another place, with more time. -/
theorem Body.repeatFor_carried (holds : body.Kept state)
    (done : repeatFor body.step budget state setting lexemes = .done result [] left)
    (sameEdition : other.edition = setting.edition) (sameEnd : other.atEnd = setting.atEnd)
    (fewer : budget.length ≤ otherBudget.length)
    (carried : List.Forall₂ (Lexeme.Carried move) lexemes otherLexemes) :
    body.KeptResult result ∧ ∃ otherLeft, List.Forall₂ (Lexeme.Carried move) left otherLeft ∧
      repeatFor body.step otherBudget (body.shifted move state) other otherLexemes =
        .done (body.shiftedResult move result) [] otherLeft := by
  have loop : Carries move (repeatFor body.step budget state)
      (repeatFor body.step otherBudget (body.shifted move state)) (body.shiftedResult move)
      body.KeptResult := CarriesAt.repeatFor body.carries_step budget otherBudget fewer state holds
  obtain ⟨kept, taken, rfl, again⟩ :=
    loop setting other lexemes result left sameEdition sameEnd rfl done
  obtain ⟨otherTaken, otherLeft, rfl, carriedTaken, carriedLeft⟩ := Lexeme.Carried.split carried
  exact ⟨kept, otherLeft, carriedLeft,
    again otherTaken otherLeft carriedTaken (.of_carried carriedLeft)⟩

/-- The same if an empty statement may stand in front, and with more time for it. -/
theorem Body.repeatFor_resumed (holds : body.Kept state)
    (done : repeatFor body.step budget state setting lexemes = .done result [] left)
    (sameEdition : other.edition = setting.edition) (sameEnd : other.atEnd = setting.atEnd)
    (fewer : budget.length < otherBudget.length) (resumes : Resumes move lexemes otherLexemes) :
    body.KeptResult result ∧ ∃ otherLeft, Resumes move left otherLeft ∧
      repeatFor body.step otherBudget (body.shifted move state) other otherLexemes =
        .done (body.shiftedResult move result) [] otherLeft := by
  cases resumes with
  | carried carried =>
    obtain ⟨kept, otherLeft, carriedLeft, otherDone⟩ :=
      repeatFor_carried holds done sameEdition sameEnd (Nat.le_of_lt fewer) carried
    exact ⟨kept, otherLeft, .carried carriedLeft, otherDone⟩
  | empty empty carried =>
    cases otherBudget with
    | nil => cases fewer
    | cons first otherBudget =>
      obtain ⟨kept, otherLeft, carriedLeft, otherDone⟩ :=
        repeatFor_carried holds done sameEdition sameEnd (Nat.le_of_lt_succ fewer) carried
      refine ⟨kept, otherLeft, .carried carriedLeft, ?_⟩
      rw [repeatFor_cons_of_next (step_empty empty)]
      exact otherDone

end Loops

/-- The loop from a spot is done on input with a semicolon inserted, too, and so is each around
it. -/
def Spot.Absorbs (move : Move) (setting : Setting) (spot : Spot) (tail : List Lexeme) : Prop :=
  ∀ budget result left, spot.body.Kept spot.state →
    repeatFor spot.body.step budget spot.state setting spot.input = .done result [] left →
      spot.body.KeptResult result ∧ ∃ taken, spot.input = taken ++ tail ∧
        ∀ (other : Setting) (otherBudget otherTaken otherTail : List Lexeme),
          other.edition = setting.edition → other.atEnd = setting.atEnd →
            budget.length < otherBudget.length →
              List.Forall₂ (Lexeme.Carried move) taken otherTaken → Gains move tail otherTail →
                ∃ otherLeft, Resumes move left otherLeft ∧
                  repeatFor spot.body.step otherBudget (spot.body.shifted move spot.state) other
                      (otherTaken ++ otherTail) =
                    .done (spot.body.shiftedResult move result) [] otherLeft

namespace Spot

variable {setting : Setting} {tail : List Lexeme}

/-- At the brace itself, the body is closed and the semicolon is left. -/
theorem absorbs_close {kind : Block} {state : kind.State} {brace : Lexeme} {rest : List Lexeme}
    (closes : brace.token = .symbol .rightBrace) :
    Absorbs move setting ⟨.block kind, state, brace :: rest⟩ (brace :: rest) := by
  intro budget result left holds done
  have last : repeatFor (Body.block kind).step budget state setting (brace :: rest) =
      .done (state, brace.span) [] rest := repeatFor_of_last (Body.step_brace closes)
  obtain ⟨rfl, -, rfl⟩ := Outcome.done.inj (last.symm.trans done)
  refine ⟨holds, [], rfl, ?_⟩
  rintro other otherBudget _ _ - - - ⟨⟩ ⟨-, same, empty, carried⟩
  refine ⟨_, .empty empty carried, ?_⟩
  have otherCloses := same.token.trans closes
  rw [List.nil_append, repeatFor_of_last (Body.step_brace otherCloses), same.span]
  rfl

/-- Members before the brace are carried. -/
theorem absorbs_member {body : Body} {state following : body.State} {lexeme : Lexeme}
    {rest middle : List Lexeme} (goesOn : lexeme.token ≠ .symbol .rightBrace)
    (read : Parser.member body.member body.expected state lexeme.token setting (lexeme :: rest) =
      .done following [] middle)
    (absorbs : Absorbs move setting ⟨body, following, middle⟩ tail) :
    Absorbs move setting ⟨body, state, lexeme :: rest⟩ tail := by
  intro budget result left holds done
  obtain ⟨first, fewer, rfl, again⟩ := Body.repeatFor_of_member done goesOn read
  obtain ⟨kept, taken, split, carried⟩ := (carries_member body.carriesMember holds).run rfl read
  obtain ⟨keptResult, more, rfl, inserted⟩ := absorbs fewer result left kept again
  refine ⟨keptResult, taken ++ more, by rw [List.append_assoc]; exact split, ?_⟩
  intro other otherBudget _ otherTail sameEdition sameEnd longer carriedTaken gains
  obtain ⟨otherFirst, otherMore, rfl, carriedFirst, carriedMore⟩ :=
    Lexeme.Carried.split carriedTaken
  obtain ⟨otherHead, otherFewer, rfl⟩ := List.exists_cons_of_length_pos (Nat.zero_lt_of_lt longer)
  obtain ⟨otherLeft, resumes, otherDone⟩ := inserted other otherFewer otherMore otherTail
    sameEdition sameEnd (Nat.lt_of_succ_lt_succ longer) carriedMore gains
  have alongside := gains.alongside.append carriedMore
  have otherRead := carried other otherFirst (otherMore ++ otherTail) sameEdition sameEnd
    carriedFirst alongside
  refine ⟨otherLeft, resumes, ?_⟩
  obtain ⟨otherLexeme, otherRest, sameInput, sameToken⟩ := gains.exists_cons carriedTaken
    (split.trans (List.append_assoc _ _ _).symm)
  rw [List.append_assoc] at sameInput
  rw [sameInput, ← sameToken] at otherRead
  rw [List.append_assoc, sameInput,
    repeatFor_cons_of_next (Body.step_of_member (sameToken ▸ goesOn) otherRead)]
  exact otherDone

/-- A block around the brace is closed behind it, and the body around the block goes on. -/
theorem absorbs_enter {body : Body} {state : body.State} {lexeme : Lexeme}
    {rest middle : List Lexeme} {kind : Block} {begun : kind.Value}
    (opens : body.opened? state lexeme.token = some kind)
    (read : kind.form.header setting (lexeme :: rest) = .done begun [] middle)
    (absorbs : Absorbs move setting ⟨.block kind, kind.form.begin begun, middle⟩ tail) :
    Absorbs move setting ⟨body, state, lexeme :: rest⟩ tail := by
  intro budget result left holds done
  obtain ⟨known, stop, after, first, fewer, bodyDone, none, rfl, again⟩ :=
    Body.repeatFor_of_header done opens read
  have carries : CarriesBlock move kind.form _ _ _ _ _ := kind.carries
  obtain ⟨started, taken, split, carried⟩ := carries.header.run rfl read
  obtain ⟨keptKnown, more, rfl, inserted⟩ :=
    absorbs middle (known, stop) after (carries.start begun started) bodyDone
  have kept : body.Kept (body.attach kind state (kind.form.close begun known stop)) :=
    Body.kept_attach holds (carries.goal begun known stop started)
  obtain ⟨keptResult, -⟩ := Body.repeatFor_carried kept again rfl rfl (Nat.le_refl _)
    (@Lexeme.carried_carry move after)
  refine ⟨keptResult, taken ++ more, by rw [List.append_assoc]; exact split, ?_⟩
  intro other otherBudget _ otherTail sameEdition sameEnd longer carriedTaken gains
  obtain ⟨otherFirst, otherMore, rfl, carriedFirst, carriedMore⟩ :=
    Lexeme.Carried.split carriedTaken
  obtain ⟨otherHead, otherFewer, rfl⟩ := List.exists_cons_of_length_pos (Nat.zero_lt_of_lt longer)
  have alongside := gains.alongside.append carriedMore
  -- The inner body is read with the tokens left behind its header as its time.
  obtain ⟨otherAfter, resumes, innerDone⟩ := inserted other (otherMore ++ otherTail) otherMore
    otherTail sameEdition sameEnd (gains.length_lt carriedMore) carriedMore gains
  have otherHeader := carried other otherFirst (otherMore ++ otherTail) sameEdition sameEnd
    carriedFirst alongside
  have parsed : kind.parser other (otherFirst ++ (otherMore ++ otherTail)) =
      .done (kind.shifted move (kind.form.close begun known stop)) [] otherAfter := by
    rw [kind.parser_of_header otherHeader, rest_eq_done_iff]
    refine ⟨kind.shiftedState move known, stop.moved move, ?_,
      (carries.closeImage begun known stop).symm, ?_⟩
    · rw [carries.startImage]
      exact innerDone
    · rw [sameEdition]
      exact carries.faults setting.edition begun known stop keptKnown none
  obtain ⟨-, otherLeft, resumed, otherDone⟩ := Body.repeatFor_resumed kept again sameEdition sameEnd
    (Nat.lt_of_succ_lt_succ longer) resumes
  refine ⟨otherLeft, resumed, ?_⟩
  obtain ⟨otherLexeme, otherRest, sameInput, sameToken⟩ := gains.exists_cons carriedTaken
    (split.trans (List.append_assoc _ _ _).symm)
  rw [List.append_assoc] at sameInput
  have otherOpens : body.opened? (body.shifted move state) otherLexeme.token = some kind := by
    rw [Body.opened?_shifted, sameToken, opens]
  have otherRead : Parser.member body.member body.expected (body.shifted move state)
      otherLexeme.token other (otherLexeme :: otherRest) = .done
        (body.shifted move (body.attach kind state (kind.form.close begun known stop))) []
        otherAfter := by
    rw [Body.readMember_of_opened otherOpens, ← sameInput, bind_of_done parsed,
      Body.attach_shifted]
    rfl
  rw [List.append_assoc, sameInput, repeatFor_cons_of_next
    (Body.step_of_member (Body.goesOn_of_opened otherOpens) otherRead)]
  exact otherDone

theorem absorbs_of_reaches {spot : Spot} {kind : Block} {state : kind.State} {brace : Lexeme}
    {rest : List Lexeme} (closes : brace.token = .symbol .rightBrace)
    (reaches : Relation.ReflTransGen (Leads setting) spot ⟨.block kind, state, brace :: rest⟩) :
    Absorbs move setting spot (brace :: rest) := by
  induction reaches using Relation.ReflTransGen.head_induction_on with
  | refl => exact absorbs_close closes
  | head leads _ inductionHypothesis =>
    cases leads with
    | member goesOn read => exact absorbs_member goesOn read inductionHypothesis
    | enter opens read => exact absorbs_enter opens read inductionHypothesis

end Spot

/-! ### Files -/

/-- A file that is parsed is parsed, to the same tree at another place, with a semicolon inserted
behind a brace that closes a block. -/
theorem Parser.file_inserted {setting : Setting} {lexemes left : List Lexeme} {parsed : File}
    {kind : Block} {state : kind.State} {brace : Lexeme} {rest : List Lexeme}
    (done : file setting lexemes = .done parsed [] left)
    (closes : brace.token = .symbol .rightBrace)
    (visited : Spot.Visited setting lexemes ⟨.block kind, state, brace :: rest⟩) :
    ∃ taken, lexemes = taken ++ brace :: rest ∧ ∀ (other : Setting) otherTaken otherTail,
      other.edition = setting.edition → other.atEnd = setting.atEnd →
        List.Forall₂ (Lexeme.Carried move) taken otherTaken →
          Gains move (brace :: rest) otherTail →
            ∃ otherLeft, file other (otherTaken ++ otherTail) =
              .done (parsed.shifted move) [] otherLeft := by
  obtain ⟨declared, input, isEdition, loop, none⟩ := file_eq_done_iff.mp done
  obtain ⟨_, _, sameEdition, reaches⟩ := visited
  obtain ⟨rfl, -, rfl⟩ := Outcome.done.inj (isEdition.symm.trans sameEdition)
  obtain ⟨-, first, rfl, carried⟩ := carries_declaredEdition.run rfl isEdition
  obtain ⟨-, more, rfl, inserted⟩ :=
    Spot.absorbs_of_reaches closes reaches input parsed left trivial loop
  refine ⟨first ++ more, (List.append_assoc _ _ _).symm, ?_⟩
  intro other _ otherTail sameEdition sameEnd carriedTaken gains
  obtain ⟨otherFirst, otherMore, rfl, carriedFirst, carriedMore⟩ :=
    Lexeme.Carried.split carriedTaken
  have otherEdition := carried other otherFirst (otherMore ++ otherTail) sameEdition sameEnd
    carriedFirst (gains.alongside.append carriedMore)
  obtain ⟨otherLeft, -, otherLoop⟩ := inserted { other with edition := declared }
    (otherMore ++ otherTail) otherMore otherTail rfl sameEnd (gains.length_lt carriedMore)
    carriedMore gains
  rw [List.append_assoc]
  exact ⟨otherLeft, file_eq_done_iff.mpr
    ⟨declared, otherMore ++ otherTail, otherEdition, otherLoop, File.faults_shifted none⟩⟩

end ProtoSchema
