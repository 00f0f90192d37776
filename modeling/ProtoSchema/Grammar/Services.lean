/-
This file parses services. A method takes and returns one message or a stream
of messages; the word for that is a type name when no name follows it.
-/

import ProtoSchema.Grammar.Options
import ProtoSchema.Validation.Service

namespace ProtoSchema

namespace Parser

/-- Whether some tokens start with the word for a stream and go on with a name. -/
def startsStream : List Token → Bool
  | .word "stream" :: .word _ :: _ | .word "stream" :: .symbol .dot :: _ => true
  | _ => false

/-- Takes the word for a stream, if there is one. -/
def streamWord : Parser Bool := do
  if startsStream (← ahead 2) then
    let _ ← advance
    return true
  else return false

/-- A type in parentheses, and whether it is streamed. -/
def methodType : Parser (Bool × TypeName) := do
  let _ ← mark .leftParen
  let streams ← streamWord
  let name ← typeName
  let _ ← mark .rightParen
  return (streams, name)

/-- What ends a method: a semicolon or a body of options. Answers the options, the place of the
end and the trailing comment. -/
def methodEnd : Parser (List OptionStatement × Span × Option String) := do
  match ← look with
  | some (.symbol .semicolon) =>
    let (stop, trailing) ← terminator
    return ([], stop, trailing)
  | some (.symbol .leftBrace) =>
    let trailing ← openBrace
    let (options, stop) ← body
      (fun options next =>
        if next = .word "option" then some do return options ++ [← optionStatement] else none)
      "'option' or '\x7d'" []
    return (options, stop, trailing)
  | _ => unexpected "';' or '\x7b'"

/-- A method with its types, which ends in a semicolon or a body. -/
def method : Parser Method := do
  let comments ← leadingComments
  let start ← word "rpc"
  let name ← name
  let (streamsInput, input) ← methodType
  let _ ← word "returns"
  let (streamsOutput, output) ← methodType
  let (options, stop, trailing) ← methodEnd
  return { name, input, output, streamsInput, streamsOutput, options
           comments := { comments with trailing }
           span := start.through stop }

/-- The members of a service. -/
def serviceMember : Member Service := fun service next =>
  if next = .word "rpc" then some do
    return { service with methods := service.methods ++ [← method] }
  else if next = .word "option" then some do
    return { service with options := service.options ++ [← optionStatement] }
  else none

/-- A service, which is checked when its body is closed. -/
def service : Parser Service := do
  let comments ← leadingComments
  let start ← word "service"
  let name ← name
  let trailing ← openBrace
  let (read, stop) ← body serviceMember "'rpc', 'option' or '\x7d'"
    ⟨name, [], [], { comments with trailing }, start⟩
  let result := { read with span := start.through stop }
  report result.faults
  return result

end Parser

end ProtoSchema
