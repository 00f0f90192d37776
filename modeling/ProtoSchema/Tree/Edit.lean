/-
This file edits schema trees. An edit changes what it names and nothing else:
no span, path or reference elsewhere is adjusted, and nothing is checked.
-/

import ProtoSchema.Tree.Declaration

namespace ProtoSchema

namespace File

/-! ### Messages at a path -/

/-- Some messages with the list that holds the message at a path, and its index there, changed. -/
def editList (edit : Nat → Message → List Message → List Message) :
    MessagePath → List Message → Option (List Message)
  | [], _ => none
  | [index], messages => messages[index]?.map fun message => edit index message messages
  | index :: next :: rest, messages => do
    let message ← messages[index]?
    let inner ← editList edit (next :: rest) message.messages
    return messages.set index { message with messages := inner }

/-- The file with the message at a path changed; `none` if there is none. -/
def modifyMessage? (file : File) (path : MessagePath) (change : Message → Message) : Option File :=
  (editList (fun index message messages => messages.set index (change message)) path
    file.messages).map fun messages => { file with messages }

/-- The file without the message at a path; `none` if there is none. -/
def removeMessage? (file : File) (path : MessagePath) : Option File :=
  (editList (fun index _ messages => messages.eraseIdx index) path file.messages).map
    fun messages => { file with messages }

/-- The file with the message at a path renamed; the span of the name stays. -/
def renameMessage? (file : File) (path : MessagePath) (text : String) : Option File :=
  file.modifyMessage? path fun message => { message with name := { message.name with text } }

/-- The file with all named types among the direct fields of the message at a path, map values
included, taken to be of a kind. -/
def setKinds? (file : File) (path : MessagePath) (kind : ReferenceKind) : Option File :=
  file.modifyMessage? path fun message =>
    { message with
      fields := message.fields.map fun field =>
        { field with type := field.type.mapReference fun reference => { reference with kind } } }

/-! ### Packages -/

/-- The file in a package with the given parts, or in none. -/
def withPackage (file : File) (parts : Option (List String)) : File :=
  { file with
    package := parts.map fun texts =>
      ⟨⟨texts.map fun text => ⟨text, .point 0⟩⟩, Comments.none, .point 0⟩ }

/-! ### Grafting -/

/-- The file followed by the declarations of another. -/
def append (file fragment : File) : File :=
  { file with
    imports := file.imports ++ fragment.imports
    options := file.options ++ fragment.options
    messages := file.messages ++ fragment.messages
    enums := file.enums ++ fragment.enums
    services := file.services ++ fragment.services
    extensions := file.extensions ++ fragment.extensions }

end File

/-- The message followed by those declarations of a file that a message can hold. -/
def Message.append (message : Message) (fragment : File) : Message :=
  { message with
    messages := message.messages ++ fragment.messages
    enums := message.enums ++ fragment.enums
    extensions := message.extensions ++ fragment.extensions
    options := message.options ++ fragment.options }

/-- The file with a fragment appended at its end, for the empty path, or to the message at a path;
`none` if there is none. -/
def File.graft? (file : File) (path : MessagePath) (fragment : File) : Option File :=
  if path = [] then some (file.append fragment)
  else file.modifyMessage? path fun message => message.append fragment

end ProtoSchema
