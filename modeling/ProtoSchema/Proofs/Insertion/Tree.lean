/-
This file moves trees to other places in a source without taking their comments
away. A tree that was moved in this way and the tree itself are equal once every
span is erased; and since no check looks at a comment, what passes the checks of
a declaration passes them after it was moved.
-/

import ProtoSchema.Proofs.Movement.Faults
import ProtoSchema.Proofs.Movement.Resolve

namespace ProtoSchema

/-! ### Declarations -/

/-- The comments stay, here and in every declaration, where moving would drop them. -/
def OptionStatement.shifted (change : Span → Span) (option : OptionStatement) : OptionStatement :=
  { option.moved change with comments := option.comments }

/-- A field with the places in it changed. -/
def Field.shifted (change : Span → Span) (field : Field) : Field :=
  { field.moved change with comments := field.comments }

/-- A statement that reserves, with the places in it changed. -/
def Reserved.shifted (change : Span → Span) (reserved : Reserved) : Reserved :=
  { reserved.moved change with comments := reserved.comments }

/-- Ranges left to extensions, with the places in them changed. -/
def ExtensionRanges.shifted (change : Span → Span) (extensions : ExtensionRanges) :
    ExtensionRanges :=
  { extensions.moved change with comments := extensions.comments }

/-- A oneof with the places in it changed and the comments on its members kept. -/
def Oneof.shifted (change : Span → Span) (oneof : Oneof) : Oneof :=
  { oneof.moved change with
    fields := oneof.fields.map (Field.shifted change)
    options := oneof.options.map (OptionStatement.shifted change)
    comments := oneof.comments }

/-- A value of an enum with the places in it changed. -/
def EnumValue.shifted (change : Span → Span) (value : EnumValue) : EnumValue :=
  { value.moved change with comments := value.comments }

/-- An enum with the places in it changed and the comments on its members kept. -/
def Enumeration.shifted (change : Span → Span) (enumeration : Enumeration) : Enumeration :=
  { enumeration.moved change with
    values := enumeration.values.map (EnumValue.shifted change)
    options := enumeration.options.map (OptionStatement.shifted change)
    reserved := enumeration.reserved.map (Reserved.shifted change)
    comments := enumeration.comments }

/-- A method with the places in it changed and the comments on its options kept. -/
def Method.shifted (change : Span → Span) (method : Method) : Method :=
  { method.moved change with
    options := method.options.map (OptionStatement.shifted change)
    comments := method.comments }

/-- A service with the places in it changed and the comments on its members kept. -/
def Service.shifted (change : Span → Span) (service : Service) : Service :=
  { service.moved change with
    methods := service.methods.map (Method.shifted change)
    options := service.options.map (OptionStatement.shifted change)
    comments := service.comments }

/-- An extension block with the places in it changed and the comments on its members kept. -/
def Extension.shifted (change : Span → Span) (extension : Extension) : Extension :=
  { extension.moved change with
    fields := extension.fields.map (Field.shifted change)
    options := extension.options.map (OptionStatement.shifted change)
    comments := extension.comments }

mutual

/-- A message with the places in it changed and the comments kept, at every depth. -/
def Message.shifted (change : Span → Span) : Message → Message
  | ⟨name, fields, oneofs, messages, enums, extensions, extensionRanges, options, reserved,
      comments, span⟩ =>
    ⟨name.moved change, fields.map (Field.shifted change), oneofs.map (Oneof.shifted change),
      Message.shiftedList change messages, enums.map (Enumeration.shifted change),
      extensions.map (Extension.shifted change),
      extensionRanges.map (ExtensionRanges.shifted change),
      options.map (OptionStatement.shifted change), reserved.map (Reserved.shifted change),
      comments, change span⟩

/-- The messages inside another. -/
def Message.shiftedList (change : Span → Span) : List Message → List Message
  | [] => []
  | message :: rest => message.shifted change :: Message.shiftedList change rest

end

/-! ### Files -/

/-- An import with the places in it changed. -/
def Import.shifted (change : Span → Span) (entry : Import) : Import :=
  { entry.moved change with comments := entry.comments }

/-- A package with the places in it changed. -/
def Package.shifted (change : Span → Span) (package : Package) : Package :=
  { package.moved change with comments := package.comments }

/-- A file with the places in it changed and all comments kept. -/
def File.shifted (change : Span → Span) (file : File) : File :=
  { file with
    package := file.package.map (Package.shifted change)
    imports := file.imports.map (Import.shifted change)
    options := file.options.map (OptionStatement.shifted change)
    messages := file.messages.map (Message.shifted change)
    enums := file.enums.map (Enumeration.shifted change)
    services := file.services.map (Service.shifted change)
    extensions := file.extensions.map (Extension.shifted change) }

/-- A file without its spans. Its comments stay, and so does whether a field has a label. -/
def File.spanless (file : File) : File := file.shifted fun _ => .erased

variable (change : Span → Span)

/-- The function on lists is there for the recursion alone. -/
theorem Message.shiftedList_eq (messages : List Message) :
    Message.shiftedList change messages = messages.map (Message.shifted change) := by
  induction messages with
  | nil => rfl
  | cons message rest inductionHypothesis => rw [shiftedList, inductionHypothesis, List.map_cons]

/-- The parts of a message that was moved with its comments. -/
theorem Message.shifted_eq (message : Message) :
    message.shifted change =
      ⟨message.name.moved change, message.fields.map (Field.shifted change),
        message.oneofs.map (Oneof.shifted change), message.messages.map (Message.shifted change),
        message.enums.map (Enumeration.shifted change),
        message.extensions.map (Extension.shifted change),
        message.extensionRanges.map (ExtensionRanges.shifted change),
        message.options.map (OptionStatement.shifted change),
        message.reserved.map (Reserved.shifted change), message.comments, change message.span⟩ := by
  cases message
  rw [Message.shifted, Message.shiftedList_eq]

/-! ### Moving twice -/

section Twice

variable (first second : Span → Span)

/-! A second move may take the comments away that the first one kept. -/

/-- Moving drops the comments that a change of places kept, here and in what follows. -/
@[simp]
theorem OptionStatement.moved_shifted (option : OptionStatement) :
    (option.shifted first).moved second = option.moved (second ∘ first) :=
  option.moved_moved first second

@[simp]
theorem Field.moved_shifted (field : Field) :
    (field.shifted first).moved second = field.moved (second ∘ first) :=
  field.moved_moved first second

@[simp]
theorem Reserved.moved_shifted (reserved : Reserved) :
    (reserved.shifted first).moved second = reserved.moved (second ∘ first) :=
  reserved.moved_moved first second

@[simp]
theorem ExtensionRanges.moved_shifted (extensions : ExtensionRanges) :
    (extensions.shifted first).moved second = extensions.moved (second ∘ first) :=
  extensions.moved_moved first second

@[simp]
theorem Oneof.moved_shifted (oneof : Oneof) :
    (oneof.shifted first).moved second = oneof.moved (second ∘ first) := by
  simp [shifted, moved, Function.comp_def]

@[simp]
theorem EnumValue.moved_shifted (value : EnumValue) :
    (value.shifted first).moved second = value.moved (second ∘ first) :=
  value.moved_moved first second

@[simp]
theorem Enumeration.moved_shifted (enumeration : Enumeration) :
    (enumeration.shifted first).moved second = enumeration.moved (second ∘ first) := by
  simp [shifted, moved, Function.comp_def]

@[simp]
theorem Method.moved_shifted (method : Method) :
    (method.shifted first).moved second = method.moved (second ∘ first) := by
  simp [shifted, moved, Function.comp_def]

@[simp]
theorem Service.moved_shifted (service : Service) :
    (service.shifted first).moved second = service.moved (second ∘ first) := by
  simp [shifted, moved, Function.comp_def]

@[simp]
theorem Extension.moved_shifted (extension : Extension) :
    (extension.shifted first).moved second = extension.moved (second ∘ first) := by
  simp [shifted, moved, Function.comp_def]

/-- The recursion goes through the messages inside. -/
@[simp]
theorem Message.moved_shifted (message : Message) :
    (message.shifted first).moved second = message.moved (second ∘ first) := by
  induction message using Message.induction with
  | step message inductionHypothesis =>
    rw [shifted_eq, moved_eq, moved_eq]
    have messages : (message.messages.map (shifted first)).map (moved second) =
        message.messages.map (moved (second ∘ first)) := by
      rw [List.map_map]
      exact List.map_congr_left inductionHypothesis
    rw [messages]
    simp [Function.comp_def]

@[simp]
theorem Import.moved_shifted (entry : Import) :
    (entry.shifted first).moved second = entry.moved (second ∘ first) :=
  entry.moved_moved first second

@[simp]
theorem Package.moved_shifted (package : Package) :
    (package.shifted first).moved second = package.moved (second ∘ first) :=
  package.moved_moved first second

/-- In a whole file the comments are dropped by moving it after all. -/
theorem File.moved_shifted (file : File) :
    (file.shifted first).moved second = file.moved (second ∘ first) := by
  simp [shifted, moved, Function.comp_def]

/-! If it does not, the comments are those of the tree. -/

/-- Places are changed twice as they are once, here and in what follows. -/
@[simp]
theorem OptionStatement.shifted_shifted (option : OptionStatement) :
    (option.shifted first).shifted second = option.shifted (second ∘ first) := by
  rw [shifted, moved_shifted]
  rfl

@[simp]
theorem Field.shifted_shifted (field : Field) :
    (field.shifted first).shifted second = field.shifted (second ∘ first) := by
  rw [shifted, moved_shifted]
  rfl

@[simp]
theorem Reserved.shifted_shifted (reserved : Reserved) :
    (reserved.shifted first).shifted second = reserved.shifted (second ∘ first) := by
  rw [shifted, moved_shifted]
  rfl

@[simp]
theorem ExtensionRanges.shifted_shifted (extensions : ExtensionRanges) :
    (extensions.shifted first).shifted second = extensions.shifted (second ∘ first) := by
  rw [shifted, moved_shifted]
  rfl

@[simp]
theorem Oneof.shifted_shifted (oneof : Oneof) :
    (oneof.shifted first).shifted second = oneof.shifted (second ∘ first) := by
  simp [shifted, moved, Function.comp_def]

@[simp]
theorem EnumValue.shifted_shifted (value : EnumValue) :
    (value.shifted first).shifted second = value.shifted (second ∘ first) := by
  rw [shifted, moved_shifted]
  rfl

@[simp]
theorem Enumeration.shifted_shifted (enumeration : Enumeration) :
    (enumeration.shifted first).shifted second = enumeration.shifted (second ∘ first) := by
  simp [shifted, moved, Function.comp_def]

@[simp]
theorem Method.shifted_shifted (method : Method) :
    (method.shifted first).shifted second = method.shifted (second ∘ first) := by
  simp [shifted, moved, Function.comp_def]

@[simp]
theorem Service.shifted_shifted (service : Service) :
    (service.shifted first).shifted second = service.shifted (second ∘ first) := by
  simp [shifted, moved, Function.comp_def]

@[simp]
theorem Extension.shifted_shifted (extension : Extension) :
    (extension.shifted first).shifted second = extension.shifted (second ∘ first) := by
  simp [shifted, moved, Function.comp_def]

@[simp]
theorem Message.shifted_shifted (message : Message) :
    (message.shifted first).shifted second = message.shifted (second ∘ first) := by
  induction message using Message.induction with
  | step message inductionHypothesis =>
    rw [shifted_eq, shifted_eq, shifted_eq]
    have messages : (message.messages.map (shifted first)).map (shifted second) =
        message.messages.map (shifted (second ∘ first)) := by
      rw [List.map_map]
      exact List.map_congr_left inductionHypothesis
    rw [messages]
    simp [Function.comp_def]

@[simp]
theorem Import.shifted_shifted (entry : Import) :
    (entry.shifted first).shifted second = entry.shifted (second ∘ first) := by
  rw [shifted, moved_shifted]
  rfl

@[simp]
theorem Package.shifted_shifted (package : Package) :
    (package.shifted first).shifted second = package.shifted (second ∘ first) := by
  rw [shifted, moved_shifted]
  rfl

theorem File.shifted_shifted (file : File) :
    (file.shifted first).shifted second = file.shifted (second ∘ first) := by
  simp [shifted, Function.comp_def]

end Twice

/-- Where a file stands is not seen in it without its spans. -/
theorem File.spanless_shifted (file : File) : (file.shifted change).spanless = file.spanless :=
  file.shifted_shifted change _

/-! ### Checks -/

/-- Everything stays where it is. -/
def Move.stay : Move where
  start := id
  stop := id
  strict less := less

variable {move : Move}

theorem Move.stay_comp : Span.moved .stay ∘ Span.moved move = Span.moved move := rfl

/-- Nothing is found in what was moved if nothing was found before. -/
theorem SemanticFault.none_of_moved {found shiftedFound movedFound : List SemanticFault}
    (stayed : movedFound = shiftedFound.map (SemanticFault.moved .stay))
    (moved : movedFound = found.map (SemanticFault.moved move)) (none : found = []) :
    shiftedFound = [] := by
  rw [none, List.map_nil] at moved
  exact List.map_eq_nil_iff.mp (stayed.symm.trans moved)

theorem Oneof.faults_shifted {oneof : Oneof} (none : oneof.faults = []) :
    (oneof.shifted move).faults = [] := by
  have stayed : ((oneof.shifted move).moved Move.stay).faults = _ := faults_moved _
  rw [moved_shifted, Move.stay_comp] at stayed
  exact SemanticFault.none_of_moved stayed oneof.faults_moved none

theorem Enumeration.faults_shifted {enumeration : Enumeration} (none : enumeration.faults = []) :
    (enumeration.shifted move).faults = [] := by
  have stayed : ((enumeration.shifted move).moved Move.stay).faults = _ := faults_moved _
  rw [moved_shifted, Move.stay_comp] at stayed
  exact SemanticFault.none_of_moved stayed enumeration.faults_moved none

/-- A name that has parts has them after it was moved. -/
theorem TypeName.parts_moved_ne_nil {name : TypeName} (some : name.path.parts ≠ []) :
    (name.moved change).path.parts ≠ [] :=
  fun none => some (List.map_eq_nil_iff.mp none)

theorem Service.faults_shifted {service : Service}
    (typed : ∀ method ∈ service.methods, method.Typed) (none : service.faults = []) :
    (service.shifted move).faults = [] := by
  have stillTyped : ∀ method ∈ (service.shifted move).methods, method.Typed := by
    refine List.forall_mem_map.mpr fun method member => ?_
    obtain ⟨input, output⟩ := typed method member
    exact ⟨TypeName.parts_moved_ne_nil _ input, TypeName.parts_moved_ne_nil _ output⟩
  have stayed : ((service.shifted move).moved Move.stay).faults = _ := faults_moved stillTyped
  rw [moved_shifted, Move.stay_comp] at stayed
  exact SemanticFault.none_of_moved stayed (faults_moved typed) none

theorem Extension.faults_shifted {extension : Extension} {edition : Option Edition}
    (some : extension.extendee.path.parts ≠ []) (none : extension.faults edition = []) :
    (extension.shifted move).faults edition = [] := by
  have stillSome : (extension.shifted move).extendee.path.parts ≠ [] :=
    TypeName.parts_moved_ne_nil _ some
  have stayed : ((extension.shifted move).moved Move.stay).faults edition = _ :=
    faults_moved edition stillSome
  rw [moved_shifted, Move.stay_comp] at stayed
  exact SemanticFault.none_of_moved stayed (faults_moved edition some) none

theorem Message.faults_shifted {message : Message} (none : message.faults = []) :
    (message.shifted move).faults = [] := by
  have stayed : ((message.shifted move).moved Move.stay).faults = _ := faults_moved _
  rw [moved_shifted, Move.stay_comp] at stayed
  exact SemanticFault.none_of_moved stayed message.faults_moved none

theorem File.faults_shifted {file : File} (none : file.faults = []) :
    (file.shifted move).faults = [] := by
  have stayed : ((file.shifted move).moved Move.stay).faults = _ := faults_moved _
  rw [moved_shifted, Move.stay_comp] at stayed
  exact SemanticFault.none_of_moved stayed file.faults_moved none

/-! ### Resolving -/

namespace SymbolTable

variable {change} (table : SymbolTable) (scopes : List String)

theorem ofFile_shifted (file : File) : ofFile (file.shifted change) = ofFile file := by
  have without : ofFile ((file.shifted change).moved id) = ofFile (file.shifted change) :=
    ofFile_moved _
  rw [← without, File.moved_shifted, ofFile_moved]

/-- Only the type of a field is resolved. -/
theorem resolveField_shifted (field : Field) :
    table.resolveField scopes (field.shifted change) =
      (table.resolveField scopes field).shifted change :=
  congrArg (fun moved : Field => { moved with comments := field.comments })
    (table.resolveField_moved scopes field)

theorem resolveOneof_shifted (oneof : Oneof) :
    table.resolveOneof scopes (oneof.shifted change) =
      (table.resolveOneof scopes oneof).shifted change := by
  simp [resolveOneof, Oneof.shifted, Oneof.moved, Function.comp_def, resolveField_shifted]

theorem resolveExtension_shifted (extension : Extension) :
    table.resolveExtension scopes (extension.shifted change) =
      (table.resolveExtension scopes extension).shifted change := by
  simp [resolveExtension, Extension.shifted, Extension.moved, Function.comp_def,
    resolveField_shifted]

theorem resolveMessage_shifted (message : Message) :
    table.resolveMessage scopes (message.shifted change) =
      (table.resolveMessage scopes message).shifted change := by
  induction message using Message.induction generalizing scopes with
  | step message inductionHypothesis =>
    have scope : enter scopes (message.shifted change) = enter scopes message := by
      rw [Message.shifted_eq]
      rfl
    have inner : message.messages.map (fun inner =>
        table.resolveMessage (enter scopes message) (inner.shifted change)) =
        message.messages.map fun inner =>
          (table.resolveMessage (enter scopes message) inner).shifted change :=
      List.map_congr_left fun inner member => inductionHypothesis inner member _
    rw [resolveMessage_eq, resolveMessage_eq, scope, Message.shifted_eq, Message.shifted_eq]
    simp [Function.comp_def, resolveField_shifted, resolveOneof_shifted, resolveExtension_shifted,
      inner]

end SymbolTable

/-- Moving with comments and resolving may change places. -/
theorem File.resolve_shifted (file : File) :
    (file.shifted change).resolve = file.resolve.shifted change := by
  rw [resolve, resolve, SymbolTable.ofFile_shifted]
  simp only [shifted, SymbolTable.resolveMessages_eq, List.map_map, Function.comp_def,
    SymbolTable.resolveMessage_shifted, SymbolTable.resolveExtension_shifted]

end ProtoSchema
