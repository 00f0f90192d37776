/-
This file parses the phrases that declarations are made of: names, literals,
lists with commas, the ends of declarations with the comments around them, and
bodies in braces.
-/

import ProtoSchema.Grammar.Parser

namespace ProtoSchema

namespace Parser

variable {Value State : Type}

/-- Takes a given word. -/
def word (text : String) : Parser Span := expect (.word text)

/-- Takes a given punctuation character. -/
def mark (symbol : Symbol) : Parser Span := expect (.symbol symbol)

/-! ### Names -/

/-- Any word. -/
def name : Parser Name := do
  match ← look with
  | some (.word text) => return ⟨text, ← advance⟩
  | _ => unexpected "an identifier"

/-- Names with dots between them. -/
def dottedName : Parser DottedName := do
  let first ← name
  repeating (fun parts => do
    if ← accept (.symbol .dot) then return .inl (parts ++ [← name])
    else return .inr ⟨parts⟩) [first]

/-- The name of a type, which may start with a dot. -/
def typeName : Parser TypeName := do
  match ← look with
  | some (.symbol .dot) =>
    let dot ← advance
    return ⟨some dot, ← dottedName⟩
  | some (.word _) => return ⟨none, ← dottedName⟩
  | _ => unexpected "a type name"

/-! ### Literals -/

/-- An integer without a sign. -/
def positiveInt : Parser IntLiteral := do
  match ← look with
  | some (.int value) => return ⟨false, value, ← advance⟩
  | _ => unexpected "a positive integer"

/-- An integer with an optional minus sign; the text says what is expected after the sign. -/
def signedInt (expected : String) : Parser IntLiteral := do
  let start ← here
  let negative ← accept (.symbol .minus)
  match ← look with
  | some (.int value) => return ⟨negative, value, start.through (← advance)⟩
  | _ => unexpected expected

/-- A string literal; literals that follow one another are one. -/
def bytes : Parser (Bytes × Span) := do
  match ← look with
  | some (.string first) =>
    let start ← advance
    repeating (fun (value, span) => do
      match ← look with
      | some (.string more) => return .inl (value ++ more, span.through (← advance))
      | _ => return .inr (value, span)) (first, start)
  | _ => unexpected "a string literal"

/-- A string literal that is text. -/
def text : Parser Name := do
  let (value, span) ← bytes
  match String.fromUTF8? ⟨value.toArray⟩ with
  | some text => return ⟨text, span⟩
  | none => stop .stringNotUtf8 span

/-! ### Lists -/

/-- Items with commas between them, up to a token that ends the list, which is left. -/
def commaList (item : Parser Value) (ends : Token → Bool) (expected : String) :
    Parser (List Value) := do
  let first ← item
  repeating (fun items => do
    match ← look with
    | some (.symbol .comma) =>
      let _ ← advance
      return .inl (items ++ [← item])
    | some token => if ends token then return .inr items else unexpected expected
    | none => unexpected expected) [first]

/-! ### Ends of declarations -/

/-- The comments before a declaration. -/
def leadingComments : Parser Comments := do
  let around ← surroundings
  return ⟨around.detached, around.leading, none⟩

/-- The comment after the token just taken, on its line. -/
def trailingComment : Parser (Option String) := do
  return (← surroundings).trailing

/-- Takes the semicolon that ends a declaration. Answers its place and the comment after it. -/
def terminator : Parser (Span × Option String) := do
  let span ← mark .semicolon
  return (span, ← trailingComment)

/-- Takes the brace that opens a body, and answers the comment after it. -/
def openBrace : Parser (Option String) := do
  let _ ← mark .leftBrace
  trailingComment

/-- Takes a semicolon that ends nothing, which may only stand directly after a closing brace. -/
def emptyStatement : Parser Unit := do
  if ← followsBrace then
    let _ ← mark .semicolon
  else stop .emptyStatement (← here)

/-! ### Bodies -/

/-- Parses a member of a body, given the members before and the next token; `none` if no member
starts with that token. -/
abbrev Member (State : Type) := State → Token → Option (Parser State)

/-- A member or an empty statement. -/
def member (parse : Member State) (expected : String) (state : State) (next : Token) :
    Parser State := do
  if next = .symbol .semicolon then
    emptyStatement
    return state
  else
    match parse state next with
    | some parser => parser
    | none => unexpected expected

/-- The members of a body up to its closing brace, whose place is answered. -/
def body (parse : Member State) (expected : String) (state : State) : Parser (State × Span) :=
  repeating (fun state => do
    match ← look with
    | some (.symbol .rightBrace) => return .inr (state, ← advance)
    | some next => return .inl (← member parse expected state next)
    | none => unexpected expected) state

/-- The members of a file, up to its end. -/
def topLevel (parse : Member State) (expected : String) (state : State) : Parser State :=
  repeating (fun state => do
    match ← look with
    | some next => return .inl (← member parse expected state next)
    | none => return .inr state) state

end Parser

end ProtoSchema
