/-
This file defines parsers: functions from the tokens that are left to a value,
the faults found in what was read, and the tokens that are then left. A parser
either goes on in spite of the faults it found, which are then all about the
meaning of declarations, or stops at a token that the grammar does not allow.
-/

import ProtoSchema.Diagnostic.Fault
import ProtoSchema.Token.Lexeme
import ProtoSchema.Tree.Declaration

namespace ProtoSchema

/-- What stays the same while a source is parsed. -/
structure Setting where
  /-- The edition that the source declares. -/
  edition : Option Edition
  /-- The length of the source. -/
  length : Nat
  /-- The comments after the last token. -/
  atEnd : Surroundings

/-- What comes of parsing. -/
inductive Outcome (Value : Type) where
  | done (value : Value) (faults : List SemanticFault) (rest : List Lexeme)
  | stopped (faults : List SemanticFault) (fault : GrammarFault)

/-- The outcome with faults found earlier in front. -/
def Outcome.after {Value : Type} (earlier : List SemanticFault) : Outcome Value → Outcome Value
  | done value faults rest => done value (earlier ++ faults) rest
  | stopped faults fault => stopped (earlier ++ faults) fault

/-- A parser of values. -/
def Parser (Value : Type) := Setting → List Lexeme → Outcome Value

namespace Parser

variable {Value Result State : Type}

/-- Answers a value and takes nothing. -/
def succeed (value : Value) : Parser Value := fun _ input => .done value [] input

/-- Parses in sequence. Faults that were found stay, also if the second parser stops. -/
def andThen (first : Parser Value) (next : Value → Parser Result) : Parser Result :=
  fun setting input =>
    match first setting input with
    | .done value faults rest => (next value setting rest).after faults
    | .stopped faults fault => .stopped faults fault

instance : Monad Parser where
  pure := Parser.succeed
  bind := Parser.andThen

/-! ### Looking -/

/-- The next tokens, as many as asked for unless the end comes first. -/
def ahead (count : Nat) : Parser (List Token) :=
  fun _ input => .done ((input.take count).map (·.token)) [] input

/-- Whether the last token taken was a closing brace. -/
def followsBrace : Parser Bool := fun _ input => .done (input.head?.any (·.followsBrace)) [] input

/-- The next token, `none` at the end. -/
def look : Parser (Option Token) := fun _ input => .done (input.head?.map (·.token)) [] input

/-- The place of the next token, or of the end. -/
def here : Parser Span := fun setting input =>
  match input with
  | [] => .done (.point setting.length) [] input
  | lexeme :: _ => .done lexeme.span [] input

/-- The comments before the next token, or before the end. -/
def surroundings : Parser Surroundings := fun setting input =>
  match input with
  | [] => .done setting.atEnd [] input
  | lexeme :: _ => .done lexeme.before [] input

/-- The edition that the source declares. -/
def edition : Parser (Option Edition) := fun setting input => .done setting.edition [] input

/-- Parses in a source that declares an edition. -/
def inEdition (edition : Option Edition) (parser : Parser Value) : Parser Value :=
  fun setting input => parser { setting with edition } input

/-! ### Going on and stopping -/

/-- Takes the next token and answers its place. -/
def advance : Parser Span := fun setting input =>
  match input with
  | [] => .done (.point setting.length) [] []
  | lexeme :: rest => .done lexeme.span [] rest

/-- Goes on with faults found in what was read. -/
def report (faults : List SemanticFault) : Parser Unit := fun _ input => .done () faults input

/-- Stops at a place. -/
def stop (cause : GrammarCause) (span : Span) : Parser Value :=
  fun _ _ => .stopped [] ⟨cause, span⟩

/-- Stops because the next token is not what is expected. -/
def unexpected (expected : String) : Parser Value := fun setting input =>
  match input with
  | [] => .stopped [] ⟨.unexpectedEnd expected, .point setting.length⟩
  | lexeme :: _ => .stopped [] ⟨.unexpectedToken expected lexeme.token.quoted, lexeme.span⟩

/-- Takes a given token and answers its place. -/
def expect (token : Token) : Parser Span := do
  if (← look) = some token then advance else unexpected ("'" ++ token.quoted ++ "'")

/-- Takes a given token if it is the next. -/
def accept (token : Token) : Parser Bool := do
  if (← look) = some token then
    let _ ← advance
    return true
  else return false

/-! ### Repeating -/

/-- Repeats a step until it answers a result. The step is tried as often as the list has entries,
and once more. -/
def repeatFor (step : State → Parser (State ⊕ Result)) : List Lexeme → State → Parser Result
  | [], state => do
    match ← step state with
    | .inl _ => stop .stalled (← here)
    | .inr result => return result
  | _ :: budget, state => do
    match ← step state with
    | .inl state => repeatFor step budget state
    | .inr result => return result

/-- Repeats a step until it answers a result. Each repetition takes a token, so that the tokens
left bound their number. -/
def repeating (step : State → Parser (State ⊕ Result)) (state : State) : Parser Result :=
  fun setting input => repeatFor step input state setting input

end Parser

end ProtoSchema
