/-
This file checks services: methods have names of their own, and take and return
messages, whose names end in a part that starts with an uppercase letter.
-/

import ProtoSchema.Tree.Declaration
import ProtoSchema.Validation.Clashes

namespace ProtoSchema

/-- Whether a name can be that of a message: identifiers, the last of which names a type. -/
def TypeName.namesMessage (name : TypeName) : Bool :=
  (name.path.parts.getLast?.any fun part => isTypeIdentifier part.text) &&
    name.path.parts.dropLast.all fun part => isIdentifier part.text

namespace Method

/-- Both types of a method are named as messages are. -/
def typeFaults (method : Method) : List SemanticFault :=
  [method.input, method.output].flatMap fun name =>
    if name.namesMessage then [] else [⟨.badMethodType name.text, name.span⟩]

end Method

/-- Everything wrong with a service. -/
def Service.faults (service : Service) : List SemanticFault :=
  typeNameFaults .service service.name ++
    service.methods.flatMap (fun method => typeNameFaults .method method.name ++ method.typeFaults) ++
    repeatedNames (service.methods.map (·.name))

end ProtoSchema
