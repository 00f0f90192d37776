/-
This file follows the brackets of a schema through its tokens: which brackets are
open, and which of them hold a message or an option value. It goes by the tokens
alone, without a parser. A brace behind the name of a message opens that message.
A brace behind an equals sign opens an option value, and in an option value every
brace and every angle bracket opens another.
-/

import ProtoSchema.Diagnostic.Fault
import ProtoSchema.Token.Lexeme

namespace ProtoSchema

/-- How far brackets have been followed through some tokens. -/
structure Nest where
  /-- What each open bracket holds, if it is counted, the innermost first. -/
  opened : List (Option Nesting)
  /-- The last token. -/
  last : Option Token
  /-- The token before the last. -/
  earlier : Option Token

namespace Nest

/-- Before the first token. -/
def start : Nest := ⟨[], none, none⟩

/-- Whether the innermost open bracket holds an option value. -/
def inValue (nest : Nest) : Bool := nest.opened.head? = some (some .optionValue)

/-- What a brace opens. -/
def brace (nest : Nest) : Option Nesting :=
  if nest.inValue ∨ nest.last = some (.symbol .equals) then some .optionValue
  else
    match nest.earlier, nest.last with
    | some (.word "message"), some (.word _) => some .message
    | _, _ => none

/-- What is open after one more token. Outside of option values, angle brackets are those of map
types, which hold nothing that is counted. -/
def openedBy (nest : Nest) : Token → List (Option Nesting)
  | .symbol .leftBrace => nest.brace :: nest.opened
  | .symbol .leftAngle => if nest.inValue then some .optionValue :: nest.opened else nest.opened
  | .symbol .rightBrace => nest.opened.tail
  | .symbol .rightAngle => if nest.inValue then nest.opened.tail else nest.opened
  | _ => nest.opened

/-- What is open after one more token, which may decide what the next bracket opens. -/
def step (nest : Nest) (token : Token) : Nest := ⟨nest.openedBy token, some token, nest.last⟩

/-- Brackets followed through more tokens. -/
def after (nest : Nest) (tokens : List Token) : Nest := tokens.foldl step nest

/-- Brackets followed through the first tokens of a source. -/
def behind (read : List Lexeme) : Nest := start.after (read.map (·.token))

/-- How many brackets are open that hold a construct. -/
def count (nest : Nest) (construct : Nesting) : Nat := nest.opened.count (some construct)

/-- No more is open than may be. -/
def Bounded (nest : Nest) : Prop := ∀ construct, nest.count construct ≤ construct.limit

/-- The next token enters a construct: it is the word in front of a message, or a bracket that opens
an option value. -/
def Enters (nest : Nest) (head : Option Token) : Nesting → Prop
  | .message => head = some (.word "message")
  | .optionValue => ∃ token, head = some token ∧
      nest.openedBy token = some .optionValue :: nest.opened

variable {nest middle final : Nest}

/-- In an option value each bracket opens another. -/
theorem openedBy_of_inValue (inside : nest.inValue = true) {token : Token}
    (opening : token = .symbol .leftBrace ∨ token = .symbol .leftAngle) :
    nest.openedBy token = some .optionValue :: nest.opened := by
  obtain rfl | rfl := opening
  · have brace : nest.brace = some .optionValue := if_pos (.inl inside)
    exact congrArg (· :: nest.opened) brace
  · exact if_pos inside

theorem Bounded.of_opened (bounded : nest.Bounded) (same : final.opened = nest.opened) :
    final.Bounded := by
  intro construct
  rw [count, same]
  exact bounded construct

/-- An opened bracket that holds a construct is within the bounds if there is room for one more. -/
theorem Bounded.of_cons {held : Option Nesting} (bounded : nest.Bounded)
    (opens : final.opened = held :: nest.opened)
    (room : ∀ construct, held = some construct → nest.count construct < construct.limit) :
    final.Bounded := by
  intro construct
  rw [count, opens, List.count_cons]
  by_cases same : held = some construct
  · rw [same, beq_self_eq_true, if_pos rfl]
    exact Nat.succ_le_of_lt (room construct same)
  · have before := bounded construct
    simpa [same, count] using before

theorem Bounded.of_tail (bounded : nest.Bounded) (closes : final.opened = nest.opened.tail) :
    final.Bounded := by
  intro construct
  rw [count, closes]
  exact Nat.le_trans ((List.tail_sublist _).count_le _) (bounded construct)

/-! ### Reading -/

/-- From one nest the tokens in front of an input lead to another, with the given input left, and
nowhere on the way is more open than may be. -/
inductive Reads : Nest → List Lexeme → Nest → List Lexeme → Prop where
  | none {nest : Nest} {input : List Lexeme} (bounded : nest.Bounded) : Reads nest input nest input
  | take {nest final : Nest} {lexeme : Lexeme} {rest left : List Lexeme} (bounded : nest.Bounded)
      (reads : Reads (nest.step lexeme.token) rest final left) :
      Reads nest (lexeme :: rest) final left

namespace Reads

variable {input rest left : List Lexeme}

theorem bounded (reads : nest.Reads input final left) : final.Bounded := by
  induction reads with
  | none bounded => exact bounded
  | take _ _ inductionHypothesis => exact inductionHypothesis

theorem trans (first : nest.Reads input middle rest) (second : middle.Reads rest final left) :
    nest.Reads input final left := by
  induction first with
  | none => exact second
  | take bounded _ inductionHypothesis => exact .take bounded (inductionHypothesis second)

/-- What was read is in front of what is left, and each of its fronts is within the bounds. -/
theorem exists_front (reads : nest.Reads input final left) :
    ∃ read, input = read ++ left ∧ final = nest.after (read.map (·.token)) ∧
      ∀ front, front <+: read → (nest.after (front.map (·.token))).Bounded := by
  induction reads with
  | @none nest input bounded =>
    refine ⟨[], rfl, rfl, fun front isFront => ?_⟩
    rw [List.prefix_nil.mp isFront]
    exact bounded
  | @take nest final lexeme rest left bounded _ inductionHypothesis =>
    obtain ⟨read, rfl, rfl, each⟩ := inductionHypothesis
    refine ⟨lexeme :: read, rfl, rfl, fun front isFront => ?_⟩
    cases front with
    | nil => exact bounded
    | cons first others =>
      obtain ⟨rfl, inside⟩ := List.cons_prefix_cons.mp isFront
      exact each others inside

/-- The same by the tokens from the start. -/
theorem exists_behind (reads : start.Reads input final left) :
    ∃ read, input = read ++ left ∧ final = behind read ∧
      ∀ front, front <+: read → (behind front).Bounded :=
  reads.exists_front

end Reads

/-- A fault at the place of the next token or of the end, unless it is in a string that was read;
and if something is nested too deeply there, the next token enters it and as many are open as may
be. -/
structure StopsAt (nest : Nest) (length : Nat) (input : List Lexeme) (fault : GrammarFault) :
    Prop where
  place : fault.cause = .stringNotUtf8 ∨
    fault.span = (input.head?.map (·.span)).getD (.point length)
  entering : ∀ construct, fault.cause = .nestedTooDeeply construct →
    nest.Enters (input.head?.map (·.token)) construct ∧ nest.count construct = construct.limit

end Nest

end ProtoSchema
