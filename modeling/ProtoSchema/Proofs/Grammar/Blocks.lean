/-
This file takes the parsers of blocks apart: messages, enums, oneofs, extension
blocks, services and the bodies of methods. Each reads a header up to the brace
that opens the body, then the members, and checks what was read when the body is
closed.
-/

import ProtoSchema.Grammar.Messages
import ProtoSchema.Grammar.Services
import ProtoSchema.Proofs.Grammar.Reading

namespace ProtoSchema

open ProtoSchema.Parser

/-- How a block is parsed. -/
structure BlockForm (Value State : Type) where
  /-- What stands before the members, with the opening brace; answers the block without members. -/
  header : Parser Value
  /-- What is known before the first member. -/
  begin : Value → State
  member : Member State
  expected : String
  /-- The block whose members were read, given the place of the closing brace. -/
  close : Value → State → Span → Value
  faults : Option Edition → Value → List SemanticFault

namespace BlockForm

variable {Value State : Type}

/-- What follows the header. -/
def rest (form : BlockForm Value State) (begun : Value) : Parser Value := do
  let (read, stop) ← body form.member form.expected (form.begin begun)
  let result := form.close begun read stop
  report (form.faults (← edition) result)
  return result

/-- The header and what follows it. -/
def parser (form : BlockForm Value State) : Parser Value := form.header >>= form.rest

/-! ### The kinds of blocks -/

/-- An enum may have aliases only once an option says so. -/
def enumeration : BlockForm Enumeration Enumeration where
  header := do
    let comments ← leadingComments
    let start ← word "enum"
    let name ← name
    let trailing ← openBrace
    return ⟨name, [], [], [], false, { comments with trailing }, start⟩
  begin := id
  member := enumMember
  expected := "an identifier, 'reserved', 'option' or '\x7d'"
  close begun read stop := { read with span := begun.span.through stop }
  faults _ := Enumeration.faults

/-- A method that ends in a body. -/
def method : BlockForm Method (List OptionStatement) where
  header := do
    let comments ← leadingComments
    let start ← word "rpc"
    let name ← name
    let (streamsInput, input) ← methodType
    let _ ← word "returns"
    let (streamsOutput, output) ← methodType
    let trailing ← openBrace
    return { name, input, output, streamsInput, streamsOutput, options := []
             comments := { comments with trailing }
             span := start }
  begin _ := []
  member options next :=
    if next = .word "option" then some do return options ++ [← optionStatement] else none
  expected := "'option' or '\x7d'"
  close begun options stop := { begun with options, span := begun.span.through stop }
  faults _ _ := []

/-- The blocks of a service are its methods. -/
def service : BlockForm Service Service where
  header := do
    let comments ← leadingComments
    let start ← word "service"
    let name ← name
    let trailing ← openBrace
    return ⟨name, [], [], { comments with trailing }, start⟩
  begin := id
  member := serviceMember
  expected := "'rpc', 'option' or '\x7d'"
  close begun read stop := { read with span := begun.span.through stop }
  faults _ := Service.faults

/-- A oneof, with its index among those of its message. -/
def oneof (index : Nat) : BlockForm Oneof Oneof where
  header := do
    let comments ← leadingComments
    let start ← word "oneof"
    let name ← name
    let trailing ← openBrace
    return ⟨name, [], [], { comments with trailing }, start⟩
  begin := id
  member := oneofMember index
  expected := "a oneof field, option or '\x7d'"
  close begun read stop := { read with span := begun.span.through stop }
  faults _ := Oneof.faults

/-- An extension block, declared in the message at a path or at the top of the file. -/
def extension (parent : Option MessagePath) : BlockForm Extension Extension where
  header := do
    let comments ← leadingComments
    let start ← word "extend"
    let extendee ← typeName
    let trailing ← openBrace
    return ⟨extendee, [], [], parent, extendee.namesOptions, { comments with trailing }, start⟩
  begin := id
  member := extensionMember
  expected := "a message field, option or '\x7d'"
  close begun read stop := { read with span := begun.span.through stop }
  faults edition extension := extension.faults edition

/-- The message at a path, given the parser of nested messages. -/
def message (nested : MessagePath → Parser Message) (path : MessagePath) :
    BlockForm Message Message where
  header := do
    let comments ← leadingComments
    let start ← word "message"
    let name ← name
    let trailing ← openBrace
    return ⟨name, [], [], [], [], [], [], [], [], { comments with trailing }, start⟩
  begin := id
  member := messageMember nested path
  expected := "a message field, oneof, reserved range, enum, message, option or '\x7d'"
  close begun read stop := { read with span := begun.span.through stop }
  faults _ := Message.faults

end BlockForm

namespace Parser

/-! ### The parsers of the grammar -/

/-- Whoever does not ask for the edition may be told. -/
theorem edition_bind {Value : Type} (parser : Parser Value) :
    (edition >>= fun _ => parser) = parser := by
  funext setting lexemes
  exact after_nil _

theorem enumeration_eq : enumeration = BlockForm.enumeration.parser := by
  simp [enumeration, BlockForm.parser, BlockForm.rest, BlockForm.enumeration, edition_bind]

theorem service_eq : service = BlockForm.service.parser := by
  simp [service, BlockForm.parser, BlockForm.rest, BlockForm.service, edition_bind]

theorem oneof_eq (index : Nat) : oneof index = (BlockForm.oneof index).parser := by
  simp [oneof, BlockForm.parser, BlockForm.rest, BlockForm.oneof, edition_bind]

theorem extension_eq (parent : Option MessagePath) :
    extension parent = (BlockForm.extension parent).parser := by
  simp [extension, BlockForm.parser, BlockForm.rest, BlockForm.extension]

theorem message_eq (depth : Nat) (path : MessagePath) :
    message (depth + 1) path = (BlockForm.message (message depth) path).parser := by
  simp [message, messageRest, BlockForm.parser, BlockForm.rest, BlockForm.message, edition_bind]

/-! ### Going through a block -/

/-- What a look at the next token leads to. -/
theorem look_bind {Value : Type} {next : Option Token → Parser Value} {setting : Setting}
    {lexemes : List Lexeme} :
    (look >>= next) setting lexemes = next (lexemes.head?.map (·.token)) setting lexemes :=
  after_nil _

/-- A parser in sequence after one that goes through. -/
theorem bind_of_done {Value Result : Type} {parser : Parser Value} {next : Value → Parser Result}
    {setting : Setting} {lexemes left : List Lexeme} {value : Value}
    (done : parser setting lexemes = .done value [] left) :
    (parser >>= next) setting lexemes = next value setting left := by
  rw [bind_eq, done]
  exact after_nil _

/-- What follows the header goes through if the body does and nothing is found in the block. -/
theorem rest_eq_done_iff {Value State : Type} {form : BlockForm Value State} {begun value : Value}
    {setting : Setting} {lexemes left : List Lexeme} :
    form.rest begun setting lexemes = .done value [] left ↔
      ∃ read stop, body form.member form.expected (form.begin begun) setting lexemes =
          .done (read, stop) [] left ∧
        value = form.close begun read stop ∧ form.faults setting.edition value = [] := by
  constructor
  · intro done
    obtain ⟨⟨read, stop⟩, middle, bodyDone, closed⟩ := bind_eq_done done
    obtain ⟨declared, between, asked, reported⟩ := bind_eq_done closed
    obtain ⟨rfl, -, rfl⟩ := Outcome.done.inj asked
    obtain ⟨_, after, found, answered⟩ := bind_eq_done reported
    obtain ⟨-, none, rfl⟩ := Outcome.done.inj found
    obtain ⟨rfl, -, rfl⟩ := Outcome.done.inj answered
    exact ⟨read, stop, bodyDone, rfl, none⟩
  · rintro ⟨read, stop, bodyDone, rfl, none⟩
    have asked : edition setting left = .done setting.edition [] left := rfl
    have reported : report (form.faults setting.edition (form.close begun read stop)) setting left =
        .done () [] left := congrArg (Outcome.done () · left) none
    rw [BlockForm.rest, bind_of_done bodyDone]
    dsimp only
    rw [bind_of_done asked, bind_of_done reported]
    rfl

/-! Of a method it is known only after its types that it ends in a body. -/

/-- What stands before the end of a method. -/
def methodStart : Parser Method := do
  let comments ← leadingComments
  let start ← word "rpc"
  let name ← name
  let (streamsInput, input) ← methodType
  let _ ← word "returns"
  let (streamsOutput, output) ← methodType
  return { name, input, output, streamsInput, streamsOutput, options := [], comments
           span := start }

/-- A method with its end. -/
def endMethod (begun : Method) (found : List OptionStatement × Span × Option String) : Method :=
  { begun with
    options := found.1
    comments := { begun.comments with trailing := found.2.2 }
    span := begun.span.through found.2.1 }

theorem method_eq : method = do return endMethod (← methodStart) (← methodEnd) := by
  simp [method, methodStart, endMethod]

theorem methodHeader_eq : BlockForm.method.header = do
    let begun ← methodStart
    let trailing ← openBrace
    return { begun with comments := { begun.comments with trailing } } := by
  simp [BlockForm.method, methodStart]

/-- A token that was taken because it was expected was the next one. -/
theorem expect_eq_done {token : Token} {setting : Setting} {lexemes left : List Lexeme}
    {span : Span} {faults : List SemanticFault}
    (done : expect token setting lexemes = .done span faults left) :
    ∃ lexeme, lexemes = lexeme :: left ∧ lexeme.token = token ∧ span = lexeme.span := by
  rw [expect, look_bind] at done
  cases lexemes with
  | nil => cases done
  | cons lexeme rest =>
    split at done
    · next same =>
      obtain ⟨rfl, -, rfl⟩ := Outcome.done.inj done
      exact ⟨lexeme, rfl, Option.some.inj same, rfl⟩
    · cases done

/-- After a header that ends in a brace, a method goes on with its body. -/
theorem method_of_header {setting : Setting} {lexemes left : List Lexeme} {begun : Method}
    (done : BlockForm.method.header setting lexemes = .done begun [] left) :
    method setting lexemes = BlockForm.method.rest begun setting left := by
  rw [methodHeader_eq] at done
  obtain ⟨start, middle, started, opened⟩ := bind_eq_done done
  obtain ⟨trailing, rest, brace, ended⟩ := bind_eq_done opened
  obtain ⟨rfl, -, rfl⟩ := Outcome.done.inj ended
  obtain ⟨_, after, marked, -⟩ := bind_eq_done brace
  obtain ⟨lexeme, rfl, isBrace, -⟩ := expect_eq_done marked
  have goesOn : methodEnd setting (lexeme :: after) = (do
      let found ← body BlockForm.method.member BlockForm.method.expected []
      return (found.1, found.2, trailing)) setting rest := by
    rw [methodEnd, look_bind, List.head?_cons, Option.map_some, isBrace]
    exact bind_of_done brace
  have nothing : report [] = (pure () : Parser Unit) := rfl
  rw [method_eq, bind_of_done started, bind_eq, goesOn, ← bind_eq]
  simp [BlockForm.rest, BlockForm.method, endMethod, nothing, edition_bind, -bind_pure_comp]

end Parser

end ProtoSchema
