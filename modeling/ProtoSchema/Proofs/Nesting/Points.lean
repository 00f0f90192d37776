/-
This file names the points that the parser comes to where it knows how much more
may nest: in front of the members of a file or a block, and on its way into an
option value, to the messages in text format there, their entries and what these
hold. It goes on from a point in spite of the faults that it finds. What may still
nest at a point is what is open there short of the limit, by each step from a point
to the next.
-/

import Mathlib.Logic.Relation
import ProtoSchema.Proofs.Grammar.Spots
import ProtoSchema.Proofs.Nesting.Declarations

namespace ProtoSchema

open ProtoSchema.Parser

/-! ### Points -/

/-- What the parser is about to read, and the tokens that are left. -/
inductive Point where
  /-- A member of a file or a block, or what ends it. -/
  | member (body : Body) (state : body.State) (input : List Lexeme)
  /-- The name of an option, in a list of them or in a statement. -/
  | setting (listed : Bool) (input : List Lexeme)
  /-- A message in text format, in which others may nest to a depth less one. -/
  | value (depth : Nat) (input : List Lexeme)
  /-- An entry of such a message, in which others may nest to a depth, or its closing bracket. -/
  | entry (depth : Nat) (closing : Symbol) (input : List Lexeme)
  /-- What follows the key of an entry. -/
  | entryRest (depth : Nat) (input : List Lexeme)
  /-- A value in an entry, or in a list that is the value of one. -/
  | entryValue (listed : Bool) (depth : Nat) (input : List Lexeme)

namespace Point

/-- The tokens that are left at a point. -/
def input : Point → List Lexeme
  | member _ _ input | setting _ input | value _ input | entry _ _ input | entryRest _ input
  | entryValue _ _ input => input

end Point

/-- The parser passes what stands in front of what is left, whatever it answers and finds wrong. -/
def Parser.Passes {Value : Type} (parser : Parser Value) (setting : Setting)
    (input left : List Lexeme) : Prop :=
  ∃ value faults, parser setting input = .done value faults left

namespace Parser

/-- A field up to the bracket that opens its settings. -/
def fieldFront (context : FieldContext) : Parser Span := do
  let _ ← fieldLabel context
  if startsGroup (← ahead 5) then stop .group (← here)
  else
    let _ ← fieldType
    let _ ← name
    let _ ← mark .equals
    let _ ← fieldNumber
    mark .leftBracket

/-- The value of an enum up to the bracket that opens its settings. -/
def enumValueFront : Parser Span := do
  let _ ← name
  let _ ← mark .equals
  let _ ← signedInt "an integer"
  mark .leftBracket

/-- Ranges for extensions up to the bracket that opens their settings. -/
def extensionRangesFront : Parser Span := do
  let _ ← word "extensions"
  let _ ← ranges .field
  mark .leftBracket

/-- The bracket that opens a list in an entry, with the colon that may stand before it. -/
def arrayFront : Parser Span := do
  let _ ← accept (.symbol .colon)
  mark .leftBracket

/-- Whether a field may be the member that starts with a token. -/
def FieldStarts (context : FieldContext) (token : Token) : Prop :=
  startsField token = true ∧ ∀ word ∈ context.memberWords, token ≠ .word word

/-- What a token is that opens a message in text format. -/
def OpensValue (token : Token) : Prop := token = .symbol .leftBrace ∨ token = .symbol .leftAngle

end Parser

/-- How the fields of a body are declared, if it has fields. -/
def Body.fields? : Body → Option FieldContext
  | .block (.message _ _) => some .message
  | .block (.oneof index) => some (.oneof index)
  | .block (.extension _) => some .extension
  | _ => none

/-- How the parser goes on from a point. -/
inductive Point.Leads (setting : Setting) : Point → Point → Prop where
  /-- A member or an empty statement is read whole. -/
  | member {body : Body} {state following : body.State} {lexeme : Lexeme}
      {rest left : List Lexeme} {faults : List SemanticFault}
      (goesOn : lexeme.token ≠ .symbol .rightBrace)
      (done : Parser.member body.member body.expected state lexeme.token setting (lexeme :: rest) =
        .done following faults left) :
      Leads setting (.member body state (lexeme :: rest)) (.member body following left)
  /-- The header of a block is read. -/
  | enter {body : Body} {state : body.State} {lexeme : Lexeme} {rest left : List Lexeme}
      {kind : Block} {begun : kind.Value} {faults : List SemanticFault}
      (opens : body.opened? state lexeme.token = some kind)
      (done : kind.form.header setting (lexeme :: rest) = .done begun faults left) :
      Leads setting (.member body state (lexeme :: rest))
        (.member (.block kind) (kind.form.begin begun) left)
  /-- A statement sets an option. -/
  | statement {body : Body} {state : body.State} {lexeme : Lexeme} {rest : List Lexeme}
      (isOption : lexeme.token = .word "option") :
      Leads setting (.member body state (lexeme :: rest)) (.setting false rest)
  /-- A field has settings. -/
  | field {body : Body} {state : body.State} {lexeme : Lexeme} {rest left : List Lexeme}
      {context : FieldContext} (hasFields : body.fields? = some context)
      (starts : FieldStarts context lexeme.token)
      (passes : (fieldFront context).Passes setting (lexeme :: rest) left) :
      Leads setting (.member body state (lexeme :: rest)) (.setting true left)
  /-- The value of an enum has settings. -/
  | enumValue {state : Enumeration} {lexeme : Lexeme} {rest left : List Lexeme}
      (starts : lexeme.token ≠ .word "option" ∧ lexeme.token ≠ .word "reserved")
      (passes : enumValueFront.Passes setting (lexeme :: rest) left) :
      Leads setting (.member (.block .enumeration) state (lexeme :: rest)) (.setting true left)
  /-- Ranges for extensions have settings. -/
  | extensionRanges {depth : Nat} {path : MessagePath} {state : Message}
      {input left : List Lexeme} (passes : extensionRangesFront.Passes setting input left) :
      Leads setting (.member (.block (.message depth path)) state input) (.setting true left)
  /-- One more setting is in a list. -/
  | another {input left : List Lexeme}
      (passes : (Parser.setting >>= fun _ => mark .comma).Passes setting input left) :
      Leads setting (.setting true input) (.setting true left)
  /-- The option is set to a message in text format. -/
  | value {listed : Bool} {input left : List Lexeme} (passes : optionName.Passes setting input left)
      (opens : left.head?.map (·.token) = some (.symbol .leftBrace)) :
      Leads setting (.setting listed input) (.value Nesting.optionValue.limit left)
  /-- The bracket of a message is read. -/
  | opened {depth : Nat} {lexeme : Lexeme} {rest : List Lexeme} {closing : Symbol}
      (brackets : lexeme.token = .symbol .leftBrace ∧ closing = .rightBrace ∨
        lexeme.token = .symbol .leftAngle ∧ closing = .rightAngle) :
      Leads setting (.value (depth + 1) (lexeme :: rest)) (.entry depth closing rest)
  /-- An entry is read whole. -/
  | entry {depth : Nat} {closing : Symbol} {input left : List Lexeme}
      (goesOn : input.head?.map (·.token) ≠ some (.symbol closing))
      (passes : (Parser.entry (aggregate depth) closing).Passes setting input left) :
      Leads setting (.entry depth closing input) (.entry depth closing left)
  /-- The key of an entry is read. -/
  | key {depth : Nat} {closing : Symbol} {input left : List Lexeme}
      (passes : (entryKey closing).Passes setting input left) :
      Leads setting (.entry depth closing input) (.entryRest depth left)
  /-- A message may follow the key. -/
  | entryMessage {depth : Nat} {lexeme : Lexeme} {rest : List Lexeme}
      (opens : OpensValue lexeme.token) :
      Leads setting (.entryRest depth (lexeme :: rest)) (.value depth (lexeme :: rest))
  /-- A value follows a colon. -/
  | colon {depth : Nat} {lexeme : Lexeme} {rest : List Lexeme}
      (isColon : lexeme.token = .symbol .colon)
      (noList : rest.head?.map (·.token) ≠ some (.symbol .leftBracket)) :
      Leads setting (.entryRest depth (lexeme :: rest)) (.entryValue false depth rest)
  /-- A list follows the key. -/
  | list {depth : Nat} {input left : List Lexeme} (passes : arrayFront.Passes setting input left)
      (some : left.head?.map (·.token) ≠ some (.symbol .rightBracket)) :
      Leads setting (.entryRest depth input) (.entryValue true depth left)
  /-- One more value is in a list. -/
  | next {depth : Nat} {input left : List Lexeme}
      (passes : (Parser.entryValue (aggregate depth) >>= fun _ => mark .comma).Passes setting input
        left) :
      Leads setting (.entryValue true depth input) (.entryValue true depth left)
  /-- The value is a message. -/
  | message {listed : Bool} {depth : Nat} {lexeme : Lexeme} {rest : List Lexeme}
      (opens : OpensValue lexeme.token) :
      Leads setting (.entryValue listed depth (lexeme :: rest)) (.value depth (lexeme :: rest))

/-- The parser comes to a point of a source, of which this are the tokens. -/
def Point.Visited (setting : Setting) (lexemes : List Lexeme) (point : Point) : Prop :=
  ∃ declared faults input, declaredEdition setting lexemes = .done declared faults input ∧
    Relation.ReflTransGen (Leads { setting with edition := declared })
      (.member .file { File.empty with declaredEdition := declared } input) point

/-! ### What is known at the points of bodies -/

namespace Body

/-- What is known of the open brackets at the members of a body. -/
def Known : Body → List (Option Nesting) → Prop
  | .file => (· = [])
  | .block (.message depth _) => InMessages depth
  | .block _ => OutsideValues

theorem Known.outside {body : Body} {opened : List (Option Nesting)} (known : body.Known opened) :
    OutsideValues opened := by
  unfold Known at known
  split at known
  · rw [known]
    rfl
  · exact known.outside
  · exact known

theorem keepsMember (body : Body) : KeepsMember body.Known body.member := by
  cases body with
  | file => exact keepsMember_file
  | block kind =>
    cases kind with
    | message depth path => exact keepsMember_message (keeps_message depth)
    | enumeration => exact keepsMember_enum
    | oneof index => exact keepsMember_oneof
    | extension parent => exact keepsMember_extension
    | service => exact keepsMember_service
    | method => exact keepsMember_method

variable {body : Body} {state : body.State} {token : Token} {kind : Block}
variable {nest : Nest} {input : List Lexeme}

/-- A message that may start as a member leaves a depth to others that is one less than what is left
there. -/
theorem inMessages_of_opened {depth : Nat} {path : MessagePath} {opened : List (Option Nesting)}
    (opens : body.opened? state token = some (.message depth path)) (known : body.Known opened) :
    InMessages (depth + 1) opened := by
  unfold opened? at opens
  split at opens
  · split_ifs at opens with isMessage isEnum isService isExtend
    · cases Option.some.inj opens
      obtain rfl : opened = [] := known
      exact ⟨rfl, rfl⟩
    all_goals cases Option.some.inj opens
  · split_ifs at opens with isMessage isEnum isOneof isExtend
    · split at opens
      · cases opens
      · cases Option.some.inj opens
        exact known
    all_goals cases Option.some.inj opens
  · split_ifs at opens with isMethod
    cases Option.some.inj opens
  · cases opens

/-- Behind the header of a block that may start as a member, what is known is known of the block. -/
theorem nests_header (opens : body.opened? state token = some kind)
    (known : body.Known nest.opened) :
    Nests nest input kind.form.header fun _ final _ => (Body.block kind).Known final.opened := by
  have outside := known.outside
  have plain {keyword : String} {Value : Type}
      {build : Comments → Span → Name → Option String → Value} (other : keyword ≠ "message") :
      Nests nest input (do
          let comments ← leadingComments
          let start ← word keyword
          let name ← name
          let trailing ← openBrace
          return build comments start name trailing)
        fun _ final _ => OutsideValues final.opened := by
    refine (Parser.nests_header outside fun same => absurd same other).mono ?_
    intro _ final _ opened
    rw [opened, if_neg other]
    exact outside_cons _ outside
  cases kind with
  | message depth path =>
    have room : InMessages (depth + 1) nest.opened := inMessages_of_opened opens known
    refine (Parser.nests_header outside fun _ => room.fewer).mono fun _ final _ opened => ?_
    rw [opened]
    exact room.enter
  | enumeration => exact plain (by simp)
  | oneof index => exact plain (by simp)
  | service => exact plain (by simp)
  | extension parent =>
    refine (nests_extensionHeader outside).mono fun _ final _ opened => ?_
    rw [opened]
    exact outside_cons _ outside
  | method =>
    rw [Block.form, methodHeader_eq]
    refine nests_methodStart.bind fun begun middle rest ⟨kept, last⟩ => ?_
    refine (nests_methodBrace (kept ▸ outside) last).bind fun trailing final rest opened => ?_
    refine Nests.pure ?_
    change OutsideValues final.opened
    rw [opened, kept]
    exact outside_cons _ outside

end Body

/-! ### From point to point -/

variable {setting : Setting} {nest : Nest} {input left : List Lexeme}

/-- Where a parser goes through, what it passes leads to its goal. -/
theorem Parser.Nests.reads {Value : Type} {parser : Parser Value}
    {goal : Value → Nest → List Lexeme → Prop} (nests : Nests nest input parser goal)
    (bounded : nest.Bounded) (passes : parser.Passes setting input left) :
    ∃ value final, nest.Reads input final left ∧ goal value final left := by
  obtain ⟨value, faults, done⟩ := passes
  have outcome := nests bounded setting
  rw [done] at outcome
  obtain ⟨final, reads, meets⟩ := outcome
  exact ⟨value, final, reads, meets⟩

theorem Parser.Keeps.reads {Value : Type} {parser : Parser Value}
    {known : List (Option Nesting) → Prop} (keeps : Keeps known parser) (holds : known nest.opened)
    (bounded : nest.Bounded) (passes : parser.Passes setting input left) :
    ∃ final, nest.Reads input final left ∧ known final.opened := by
  obtain ⟨_, final, reads, kept⟩ := (keeps.nests holds).reads bounded passes
  exact ⟨final, reads, kept ▸ holds⟩

namespace Parser

variable {known : List (Option Nesting) → Prop}

theorem keeps_fieldFront {context : FieldContext} : Keeps OutsideValues (fieldFront context) := by
  refine fun head => (keeps_fieldLabel _).bind fun _ _ => KeepsAt.ahead fun tokens => ?_
  split
  · exact KeepsAt.stop_here fun _ => GrammarCause.noConfusion
  · refine (keeps_fieldType _).bind fun _ _ => (keeps_name _).bind fun _ _ => ?_
    refine KeepsAt.expect (fun _ _ => rfl) fun _ _ => (keeps_fieldNumber _).bind fun _ _ => ?_
    exact KeepsAt.expect_last fun _ _ => rfl

theorem keeps_enumValueFront : Keeps known enumValueFront := by
  refine fun head => (keeps_name _).bind fun _ _ => KeepsAt.expect (fun _ _ => rfl) fun _ _ => ?_
  exact (keeps_signedInt _).bind fun _ _ => KeepsAt.expect_last fun _ _ => rfl

theorem keeps_extensionRangesFront : Keeps known extensionRangesFront := by
  refine fun head => KeepsAt.expect (fun _ _ => rfl) fun _ _ => ?_
  exact (keeps_commaList keeps_range _).bind fun _ _ => KeepsAt.expect_last fun _ _ => rfl

theorem keeps_arrayFront : Keeps known arrayFront := fun _ =>
  KeepsAt.accept (fun _ _ => rfl) fun _ _ => KeepsAt.expect_last fun _ _ => rfl

/-- A parser in front of a token that changes nothing. -/
theorem Keeps.before {Value : Type} {parser : Parser Value} {symbol : Symbol}
    (keeps : Keeps known parser) (flat : Flat known (.symbol symbol)) :
    Keeps known (parser >>= fun _ => mark symbol) := fun head =>
  (keeps head).bind fun _ _ => KeepsAt.expect_last flat

end Parser

namespace Point

/-- What is known of the brackets at a point. What is open and what may still nest make up the limit:
of messages at the members of one, of option values from where one is read. -/
def Known : Point → Nest → Prop
  | .member body _ _, nest => body.Known nest.opened
  | .setting _ _, nest => OutsideValues nest.opened
  | .value depth input, nest => nest.count .optionValue + depth = Nesting.optionValue.limit ∧
      ∀ token, input.head?.map (·.token) = some token → OpensValue token →
        nest.openedBy token = some .optionValue :: nest.opened
  | .entry depth closing _, nest => InValue depth nest.opened ∧
      (closing = .rightBrace ∨ closing = .rightAngle)
  | .entryRest depth _, nest | .entryValue _ depth _, nest => InValue depth nest.opened

variable {point following : Point}

/-- A message may be entered in an option value. -/
theorem known_value {depth : Nat} (holds : InValue depth nest.opened) :
    (value depth input).Known nest :=
  ⟨holds.2, fun _ _ opens => Nest.openedBy_of_inValue (decide_eq_true holds.1) opens⟩

/-- On the way from one point to another nothing is left open but what is entered there. -/
theorem Leads.known (leads : Leads setting point following) (bounded : nest.Bounded)
    (known : point.Known nest) :
    ∃ final, nest.Reads point.input final following.input ∧ following.Known final := by
  cases leads with
  | @member body state after lexeme rest left faults goesOn done =>
    have keeps : KeepsAt body.Known (some lexeme.token)
        (Parser.member body.member body.expected state lexeme.token) :=
      keeps_member body.keepsMember
    obtain ⟨_, final, reads, kept⟩ :=
      Nests.reads (keeps nest (lexeme :: rest) rfl known) bounded ⟨_, _, done⟩
    have knownThere : body.Known final.opened := by
      rw [kept]
      exact known
    exact ⟨final, reads, knownThere⟩
  | @enter body state lexeme rest left kind begun faults opens done =>
    have header : Nests nest (lexeme :: rest) kind.form.header fun _ final _ =>
        (Body.block kind).Known final.opened := Body.nests_header opens known
    obtain ⟨_, final, reads, knownThere⟩ := header.reads bounded ⟨_, _, done⟩
    exact ⟨final, reads, knownThere⟩
  | @statement body state lexeme rest isOption =>
    have same : (nest.step lexeme.token).opened = nest.opened := by
      rw [isOption]
      rfl
    have outside : OutsideValues (nest.step lexeme.token).opened := by
      rw [same]
      exact Body.Known.outside known
    exact ⟨_, .take bounded (.none (bounded.of_opened same)), outside⟩
  | field _ _ passes => exact keeps_fieldFront.reads (Body.Known.outside known) bounded passes
  | enumValue _ passes =>
    have outside : OutsideValues nest.opened := known
    exact keeps_enumValueFront.reads outside bounded passes
  | extensionRanges passes =>
    have outside : OutsideValues nest.opened := InMessages.outside known
    exact keeps_extensionRangesFront.reads outside bounded passes
  | another passes => exact (keeps_setting.before fun _ _ => rfl).reads known bounded passes
  | value passes opens =>
    obtain ⟨_, final, reads, kept, equals⟩ := nests_optionName.reads bounded passes
    -- No option value is open yet, and behind the equals sign the brace opens one.
    refine ⟨final, reads, ?_, fun token next _ => ?_⟩
    · rw [Nest.count, kept, (known : OutsideValues nest.opened), Nat.zero_add]
    · obtain rfl := Option.some.inj (next.symm.trans opens)
      have brace : final.brace = some .optionValue := if_pos (.inr equals)
      exact congrArg (· :: final.opened) brace
  | @opened depth lexeme rest closing brackets =>
    -- The only bracket taken on the way into a value: there was room for one more.
    obtain ⟨enough, opens⟩ := known
    have opened : (nest.step lexeme.token).opened = some .optionValue :: nest.opened :=
      opens lexeme.token rfl (brackets.imp And.left And.left)
    refine ⟨_, .take bounded (.none (bounded_of_opened opened enough bounded)), ?_,
      brackets.imp And.right And.right⟩
    rw [opened]
    exact inValue_of_opened enough
  | entry _ passes =>
    obtain ⟨final, reads, holds⟩ :=
      Keeps.reads (fun head => keeps_entry (keeps_aggregate _) head) known.1 bounded passes
    exact ⟨final, reads, holds, known.2⟩
  | @key depth closing _ _ passes =>
    have keeps : Keeps (InValue depth) (entryKey closing) := keeps_entryKey
    exact keeps.reads known.1 bounded passes
  | entryMessage _ | message _ => exact ⟨nest, .none bounded, known_value known⟩
  | @colon depth lexeme rest isColon _ =>
    have same : (nest.step lexeme.token).opened = nest.opened := by
      rw [isColon]
      rfl
    have inside : InValue depth (nest.step lexeme.token).opened := by
      rw [same]
      exact known
    exact ⟨_, .take bounded (.none (bounded.of_opened same)), inside⟩
  | @list depth _ _ passes _ =>
    have keeps : Keeps (InValue depth) arrayFront := keeps_arrayFront
    exact keeps.reads known bounded passes
  | next passes =>
    exact ((keeps_entryValue (keeps_aggregate _)).before fun _ _ => rfl).reads known bounded passes

/-- The tokens in front of a point that the parser comes to lead to what is known there. -/
theorem Visited.known {lexemes : List Lexeme} (visited : Visited setting lexemes point) :
    ∃ final, Nest.start.Reads lexemes final point.input ∧ point.Known final := by
  obtain ⟨declared, faults, input, edition, reaches⟩ := visited
  induction reaches with
  | refl =>
    have keeps : Keeps (· = []) declaredEdition := keeps_declaredEdition
    exact keeps.reads rfl Nest.bounded_start ⟨_, _, edition⟩
  | tail _ leads inductionHypothesis =>
    obtain ⟨middle, reads, known⟩ := inductionHypothesis
    obtain ⟨final, more, knownThere⟩ := leads.known reads.bounded known
    exact ⟨final, reads.trans more, knownThere⟩

end Point

end ProtoSchema
