/-
This file shows that the canonical text of a file spells its canonical tokens.
Every line ends in a punctuation character, so lines go together in any order; a
block of lines is written if its header and its lines are. The text of the file
is therefore scanned without a fault, and its tokens are those of the tree.
-/

import ProtoSchema.Proofs.Canonical.Texts
import ProtoSchema.Proofs.Tree.Printing

namespace ProtoSchema

/-! ### Lines -/

/-- The lines spell the tokens. -/
def WritesLines (lines : List Line) (tokens : List Token) : Prop :=
  Spells (lines.flatMap fun line => line.render.toList) tokens Anything

namespace WritesLines

variable {Item : Type} {lines first second : List Line}
  {tokens firstTokens secondTokens : List Token}

theorem nil : WritesLines [] [] := Spells.nil

/-- A line ends where anything may follow, since its line break does. -/
theorem single {depth : Nat} {text : String} (writes : Writes text tokens Anything) :
    WritesLines [⟨depth, text⟩] tokens := by
  have indented := (Spells.spaces (2 * depth)).then_ (Spells.then_ writes Spells.newline)
  simpa [WritesLines, Line.render] using indented

/-- Lines are written one after the other. -/
theorem append (left : WritesLines first firstTokens) (right : WritesLines second secondTokens) :
    WritesLines (first ++ second) (firstTokens ++ secondTokens) := by
  rw [WritesLines, List.flatMap_append]
  exact Spells.then_ left right

theorem flatMap {each : Item → List Line} {itemTokens : Item → List Token} {items : List Item}
    (writes : ∀ item ∈ items, WritesLines (each item) (itemTokens item)) :
    WritesLines (items.flatMap each) (items.flatMap itemTokens) := by
  rw [WritesLines, List.flatMap_assoc]
  exact Spells.flatMap _ itemTokens items writes

theorem map {line : Item → Line} {itemTokens : Item → List Token} {items : List Item}
    (writes : ∀ item ∈ items, Writes (line item).text (itemTokens item) Anything) :
    WritesLines (items.map line) (items.flatMap itemTokens) := by
  rw [List.map_eq_flatMap]
  exact flatMap fun item member => single (writes item member)

/-- Lines in braces after a header. -/
theorem block {depth : Nat} {header : String} {headerTokens : List Token}
    (writes : Writes header headerTokens EndsWord) (inner : WritesLines lines tokens) :
    WritesLines (block depth header lines) (headerTokens ++ braced tokens) := by
  have opening : Writes " \x7b" [.symbol .leftBrace] Anything := writes_marks rfl
  have closing : Writes "\x7d" [.symbol .rightBrace] Anything := writes_marks rfl
  have first : WritesLines [⟨depth, header ++ " \x7b"⟩] (headerTokens ++ [.symbol .leftBrace]) :=
    single (writes.before opening rfl (endsWord_some rfl))
  have last : WritesLines [⟨depth, "\x7d"⟩] [.symbol .rightBrace] := single closing
  have all := first.append (inner.append last)
  rwa [List.append_assoc] at all

end WritesLines

/-! ### Options and fields -/

/-- The text of a statement spells its tokens, and so do the texts in what follows. -/
theorem OptionStatement.writes {option : OptionStatement} (wellFormed : option.WellFormed)
    (depth : Nat) : Writes (option.line depth).text option.tokens Anything := by
  have word : Writes "option " [.word "option"] Anything := writes_keyword "option" rfl
  have semicolon : Writes ";" [.symbol .semicolon] Anything := writes_marks rfl
  rw [line, String.append_assoc]
  exact word.then_ ((OptionSetting.writes wellFormed).before semicolon rfl (endsNumber_some rfl))

/-- The settings of a declaration and the semicolon that ends it. -/
theorem OptionSetting.writes_end {settings : List OptionSetting}
    (wellFormed : ∀ setting ∈ settings, setting.WellFormed) :
    Writes (listText settings ++ ";") (listTokens settings ++ [.symbol .semicolon]) Anything :=
  (writes_listText wellFormed).then_ (writes_marks rfl)

/-- What ends a declaration does not go on with the number before it. -/
theorem OptionSetting.endsNumber_end (settings : List OptionSetting) (rest : List Char) :
    EndsNumber ((listText settings ++ ";").toList ++ rest).head? := by
  rw [listText]
  split
  · exact endsNumber_some rfl
  · rw [String.toList_append, String.toList_append, String.toList_append]
    exact endsNumber_some rfl

/-- A type ends in a word, so no word may follow it directly. -/
theorem ValueType.writes {type : ValueType} (wellFormed : type.WellFormed) :
    Writes type.text type.tokens EndsWord := by
  cases type with
  | scalar type span => exact writes_word type.isIdentifier_name
  | named reference => exact TypeName.writes wellFormed.name

theorem FieldType.writes {type : FieldType} (wellFormed : type.WellFormed) :
    Writes type.text type.tokens EndsWord := by
  match type with
  | .single type => exact ValueType.writes wellFormed
  | .map ⟨key, _, value, _⟩ =>
    have word : Writes "map" [.word "map"] EndsWord := writes_word rfl
    have angle : Writes "<" [.symbol .leftAngle] Anything := writes_marks rfl
    have opening : Writes "map<" [.word "map", .symbol .leftAngle] Anything :=
      word.before angle rfl (endsWord_some rfl)
    have comma : Writes ", " [.symbol .comma] Anything := writes_marks rfl
    have closing : Writes ">" [.symbol .rightAngle] Anything := writes_marks rfl
    obtain ⟨-, noMap, valueWellFormed⟩ := wellFormed
    obtain ⟨value, rfl⟩ : ∃ type, value = .single type := ⟨_, FieldType.eq_single noMap⟩
    have value := comma.then_ ((ValueType.writes valueWellFormed).before closing rfl
      (endsWord_some rfl))
    have all := opening.then_ ((writes_word key.isIdentifier_name).before value
      (by rw [String.toList_append]; rfl) (endsWord_some rfl))
    rw [text]
    simp only [String.append_assoc]
    exact all.weaken fun _ _ => trivial

/-- A label is written with the blank behind it. -/
theorem FieldLabel.writes (label : FieldLabel) : Writes label.text label.tokens Anything := by
  cases label with
  | singular => exact Writes.empty
  | optional => exact writes_keyword "optional" rfl
  | repeated => exact writes_keyword "repeated" rfl

/-- A field is written on one line, from its label to its semicolon. -/
theorem Field.writes {edition : Option Edition} {context : FieldContext} {field : Field}
    (wellFormed : field.WellFormed edition context) (depth : Nat) :
    Writes (field.line depth).text field.tokens Anything := by
  have space : Writes " " [] Anything := writes_marks rfl
  have equals : Writes " = " [.symbol .equals] Anything := writes_marks rfl
  have number := (writes_nat field.number.magnitude).append
    (OptionSetting.writes_end wellFormed.options) fun rest _ =>
      OptionSetting.endsNumber_end field.options rest
  have name := (writes_word wellFormed.name).before (equals.then_ number)
    (by rw [String.toList_append]; rfl) (endsWord_some rfl)
  have type := (FieldType.writes wellFormed.type).before (space.then_ name)
    (by rw [String.toList_append]; rfl) (endsWord_some rfl)
  rw [line]
  simp only [String.append_assoc]
  exact field.label.writes.then_ type

/-! ### Reserved numbers and names -/

/-- A range ends in a number or a word. -/
theorem Range.writes (range : Range) : Writes range.text range.tokens EndsNumber := by
  obtain ⟨first, last⟩ := range
  cases last with
  | absent => exact first.writes.append Writes.empty fun _ ends => ends
  | int literal =>
    have word : Writes " to " [.word "to"] Anything :=
      Writes.then_ (writes_marks rfl : Writes " " [] Anything) (writes_keyword "to" rfl)
    exact first.writes.before (word.then_ literal.writes) (by rw [String.toList_append]; rfl)
      (endsNumber_some rfl)
  | max span =>
    have word : Writes " to " [.word "to"] Anything :=
      Writes.then_ (writes_marks rfl : Writes " " [] Anything) (writes_keyword "to" rfl)
    have max : Writes "max" [.word "max"] EndsNumber :=
      (writes_word rfl).weaken fun _ => EndsNumber.endsWord
    have both : Writes " to max" [.word "to", .word "max"] EndsNumber := word.then_ max
    have starts : " to max".toList = ' ' :: "to max".toList := rfl
    exact first.writes.before both starts (endsNumber_some rfl)

/-- A name in quotes is a literal. -/
theorem writes_quoted {name : String} (identifier : isIdentifier name = true) :
    Writes ("\"" ++ name ++ "\"") [textToken name] Anything := by
  rw [← literal_of_isIdentifier identifier]
  exact spells_literal _

/-- Names in quotes may be followed by anything, numbers may not. -/
theorem ReservedItems.writes {kind : RangeKind} {items : ReservedItems}
    (wellFormed : items.WellFormed kind) : Writes items.text items.tokens EndsNumber := by
  cases items with
  | ranges ranges => exact writes_commaSeparated fun range _ => range.writes
  | names names =>
    exact writes_commaSeparated fun name member =>
      (writes_quoted (wellFormed.2 name member)).weaken fun _ _ => trivial

theorem Reserved.writes {kind : RangeKind} {reserved : Reserved}
    (wellFormed : reserved.WellFormed kind) (depth : Nat) :
    Writes (reserved.line depth).text reserved.tokens Anything := by
  have word : Writes "reserved " [.word "reserved"] Anything := writes_keyword "reserved" rfl
  have semicolon : Writes ";" [.symbol .semicolon] Anything := writes_marks rfl
  rw [line, String.append_assoc]
  exact word.then_ ((ReservedItems.writes wellFormed).before semicolon rfl (endsNumber_some rfl))

theorem ExtensionRanges.writes {extensions : ExtensionRanges} (wellFormed : extensions.WellFormed)
    (depth : Nat) : Writes (extensions.line depth).text extensions.tokens Anything := by
  have word : Writes "extensions " [.word "extensions"] Anything :=
    writes_keyword "extensions" rfl
  have ranges : Writes (commaSeparated (extensions.ranges.map Range.text))
      (separated .comma (extensions.ranges.map Range.tokens)) EndsNumber :=
    writes_commaSeparated fun range _ => range.writes
  rw [line]
  simp only [String.append_assoc]
  exact word.then_ (ranges.append (OptionSetting.writes_end wellFormed.options) fun rest _ =>
    OptionSetting.endsNumber_end extensions.options rest)

/-! ### Declarations with a body -/

theorem writes_options {options : List OptionStatement}
    (wellFormed : ∀ option ∈ options, option.WellFormed) (depth : Nat) :
    WritesLines (options.map (OptionStatement.line depth))
      (options.flatMap OptionStatement.tokens) :=
  WritesLines.map fun option member => OptionStatement.writes (wellFormed option member) depth

theorem writes_fields {edition : Option Edition} {context : FieldContext} {fields : List Field}
    (wellFormed : ∀ field ∈ fields, field.WellFormed edition context) (depth : Nat) :
    WritesLines (fields.map (Field.line depth)) (fields.flatMap Field.tokens) :=
  WritesLines.map fun field member => Field.writes (wellFormed field member) depth

theorem writes_reserved {kind : RangeKind} {reserved : List Reserved}
    (wellFormed : ∀ entry ∈ reserved, entry.WellFormed kind) (depth : Nat) :
    WritesLines (reserved.map (Reserved.line depth)) (reserved.flatMap Reserved.tokens) :=
  WritesLines.map fun entry member => Reserved.writes (wellFormed entry member) depth

/-- A word and a name head a block. -/
theorem writes_header {header : String} (keyword : String) (isWord : isIdentifier keyword = true)
    {name : String} {tokens : List Token} (writes : Writes name tokens EndsWord)
    (eq : header = keyword ++ " ") :
    Writes (header ++ name) (.word keyword :: tokens) EndsWord := by
  rw [eq]
  exact (writes_keyword keyword isWord).then_ writes

/-- A block is written as its header, its members and its closing brace. -/
theorem Oneof.writes {edition : Option Edition} {index : Nat} {oneof : Oneof}
    (wellFormed : oneof.WellFormed edition index) (depth : Nat) :
    WritesLines (oneof.lines depth) oneof.tokens :=
  WritesLines.block (writes_header "oneof" rfl (writes_word wellFormed.name) rfl)
    ((writes_options wellFormed.members.options _).append
      (writes_fields wellFormed.members.fields _))

theorem Extension.writes {edition : Option Edition} {parent : Option MessagePath}
    {extension : Extension} (wellFormed : extension.WellFormed edition parent) (depth : Nat) :
    WritesLines (extension.lines depth) extension.tokens :=
  WritesLines.block (writes_header "extend" rfl (TypeName.writes wellFormed.extendee) rfl)
    ((writes_options wellFormed.members.options _).append
      (writes_fields wellFormed.members.fields _))

/-- A value is written on one line. -/
theorem EnumValue.writes {value : EnumValue} (wellFormed : value.WellFormed) (depth : Nat) :
    Writes (value.line depth).text value.tokens Anything := by
  have equals : Writes " = " [.symbol .equals] Anything := writes_marks rfl
  have number := value.number.writes.append (OptionSetting.writes_end wellFormed.options)
    fun rest _ => OptionSetting.endsNumber_end value.options rest
  rw [line]
  simp only [String.append_assoc]
  exact (writes_word wellFormed.name).before (equals.then_ number)
    (by rw [String.toList_append]; rfl) (endsWord_some rfl)

theorem Enumeration.writes {enumeration : Enumeration} (wellFormed : enumeration.WellFormed)
    (depth : Nat) : WritesLines (enumeration.lines depth) enumeration.tokens := by
  have values : WritesLines (enumeration.values.map (EnumValue.line (depth + 1)))
      (enumeration.values.flatMap EnumValue.tokens) :=
    WritesLines.map fun value member =>
      EnumValue.writes (wellFormed.members.values value member) _
  have inner := ((writes_options wellFormed.members.options (depth + 1)).append
    (writes_reserved wellFormed.members.reserved (depth + 1))).append values
  rw [List.append_assoc (enumeration.options.flatMap _)] at inner
  exact WritesLines.block (writes_header "enum" rfl (writes_word wellFormed.name) rfl) inner

/-- The parentheses around a type keep it apart from what is beside it. -/
theorem writes_methodType (streams : Bool) {name : TypeName} (wellFormed : name.WellFormed) :
    Writes (methodTypeText streams name) (methodTypeTokens streams name) Anything := by
  have opening : Writes "(" [.symbol .leftParen] Anything := writes_marks rfl
  have closing : Writes ")" [.symbol .rightParen] Anything := writes_marks rfl
  have stream : Writes (if streams then "stream " else "")
      (if streams then [.word "stream"] else []) Anything := by
    cases streams
    · exact Writes.empty
    · exact writes_keyword "stream" rfl
  rw [methodTypeText]
  simp only [String.append_assoc]
  exact opening.then_ (stream.then_ ((TypeName.writes wellFormed).before closing rfl
    (endsWord_some rfl)))

/-- The name of a method is kept apart from its types by a parenthesis. -/
theorem toList_methodTypeText (streams : Bool) (name : TypeName) :
    ∃ others, (methodTypeText streams name).toList = '(' :: others := by
  rw [methodTypeText, String.append_assoc, String.append_assoc, String.toList_append]
  exact ⟨_, rfl⟩

/-- The tokens of a method up to its end. -/
def Method.headerTokens (method : Method) : List Token :=
  .word "rpc" :: .word method.name.text ::
    (methodTypeTokens method.streamsInput method.input ++
      .word "returns" :: methodTypeTokens method.streamsOutput method.output)

theorem Method.writes_header {method : Method} (wellFormed : method.WellFormed) :
    Writes method.header method.headerTokens Anything := by
  have word : Writes "rpc " [.word "rpc"] Anything := writes_keyword "rpc" rfl
  have returns : Writes " returns " [.word "returns"] Anything :=
    Writes.then_ (writes_marks rfl : Writes " " [] Anything) (writes_keyword "returns" rfl)
  have types := (writes_methodType method.streamsInput wellFormed.input).then_
    (returns.then_ (writes_methodType method.streamsOutput wellFormed.output))
  obtain ⟨others, starts⟩ := toList_methodTypeText method.streamsInput method.input
  rw [header]
  simp only [String.append_assoc]
  exact word.then_ ((writes_word wellFormed.name).before types
    (by rw [String.toList_append, starts]; rfl) (endsWord_some rfl))

/-- A method is written on one line, unless it has options. -/
theorem Method.writes {method : Method} (wellFormed : method.WellFormed) (depth : Nat) :
    WritesLines (method.lines depth) method.tokens := by
  have header := writes_header wellFormed
  have semicolon : Writes ";" [.symbol .semicolon] Anything := writes_marks rfl
  rw [lines]
  cases none : method.options.isEmpty with
  | true =>
    have tokens : method.tokens = method.headerTokens ++ [.symbol .semicolon] := by
      simp [Method.tokens, headerTokens, none]
    rw [tokens]
    exact WritesLines.single (header.then_ semicolon)
  | false =>
    have tokens : method.tokens =
        method.headerTokens ++ braced (method.options.flatMap OptionStatement.tokens) := by
      simp [Method.tokens, headerTokens, none]
    rw [tokens]
    exact WritesLines.block (header.weaken fun _ _ => trivial)
      (writes_options wellFormed.options _)

theorem Service.writes {service : Service} (wellFormed : service.WellFormed) (depth : Nat) :
    WritesLines (service.lines depth) service.tokens :=
  WritesLines.block (writes_header "service" rfl (writes_word wellFormed.name) rfl)
    ((writes_options wellFormed.members.options _).append
      (WritesLines.flatMap fun method member =>
        Method.writes (wellFormed.members.methods method member) _))

/-! ### Messages -/

/-- A message is written at any depth, with those inside it a step deeper. -/
theorem Message.writes {edition : Option Edition} {limit : Nat} {path : MessagePath}
    {message : Message} (wellFormed : message.WellFormed edition limit path) (depth : Nat) :
    WritesLines (message.lines depth) message.tokens := by
  induction limit generalizing path message depth with
  | zero => exact wellFormed.elim
  | succ limit inductionHypothesis =>
    obtain ⟨name, members, -⟩ := wellFormed
    rw [lines_eq, tokens_eq]
    refine WritesLines.block (writes_header "message" rfl (writes_word name) rfl) ?_
    refine (writes_options members.options _).append ((writes_reserved members.reserved _).append
      (WritesLines.append ?_ ((writes_fields members.fields _).append
        (WritesLines.append ?_ (WritesLines.append ?_ (WritesLines.append ?_ ?_))))))
    · exact WritesLines.map fun ranges member =>
        ExtensionRanges.writes (members.extensionRanges ranges member) _
    · refine WritesLines.flatMap fun oneof member => ?_
      obtain ⟨index, found⟩ := List.getElem?_of_mem member
      exact Oneof.writes (members.oneofs index oneof found) _
    · refine WritesLines.flatMap fun inner member => ?_
      obtain ⟨index, found⟩ := List.getElem?_of_mem member
      exact inductionHypothesis (members.messages index inner found) _
    · exact WritesLines.flatMap fun enumeration member =>
        Enumeration.writes (members.enums enumeration member) _
    · exact WritesLines.flatMap fun extension member =>
        Extension.writes (members.extensions extension member) _

/-! ### Files -/

/-- The parts of a file spell the tokens one after the other. -/
inductive WritesParts : List (List Line) → List Token → Prop
  | nil : WritesParts [] []
  | cons {part : List Line} {parts : List (List Line)} {tokens others : List Token}
      (first : WritesLines part tokens) (rest : WritesParts parts others) :
      WritesParts (part :: parts) (tokens ++ others)

namespace WritesParts

variable {Item : Type} {first second parts : List (List Line)}
  {firstTokens secondTokens tokens : List Token}

/-- Groups of lines are written with blank lines between them. -/
theorem append (left : WritesParts first firstTokens) (right : WritesParts second secondTokens) :
    WritesParts (first ++ second) (firstTokens ++ secondTokens) := by
  induction left with
  | nil => exact right
  | cons part rest inductionHypothesis =>
    rw [List.append_assoc]
    exact cons part inductionHypothesis

theorem map {lines : Item → List Line} {itemTokens : Item → List Token} {items : List Item}
    (writes : ∀ item ∈ items, WritesLines (lines item) (itemTokens item)) :
    WritesParts (items.map lines) (items.flatMap itemTokens) := by
  induction items with
  | nil => exact nil
  | cons item rest inductionHypothesis =>
    rw [List.forall_mem_cons] at writes
    exact cons writes.1 (inductionHypothesis writes.2)

/-- Lines that form one part, unless there are none. -/
theorem partOf {line : Item → Line} {itemTokens : Item → List Token} {items : List Item}
    (writes : ∀ item ∈ items, Writes (line item).text (itemTokens item) Anything) :
    WritesParts (partOf (items.map line)) (items.flatMap itemTokens) := by
  cases items with
  | nil => exact nil
  | cons item rest =>
    have all := cons (WritesLines.map writes) nil
    rwa [List.append_nil] at all

/-- Blank lines between the parts add no tokens. -/
theorem lines (writes : WritesParts parts tokens) :
    WritesLines (parts.intersperse [Line.blank]).flatten tokens := by
  induction writes with
  | nil => exact WritesLines.nil
  | @cons part parts tokens others first rest inductionHypothesis =>
    cases rest with
    | nil => simpa using first
    | cons next more =>
      have blank : WritesLines [Line.blank] [] := WritesLines.single Writes.empty
      have all := first.append (blank.append inductionHypothesis)
      simpa using all

end WritesParts

/-- The path is written as a literal, so it may be any text. -/
theorem Import.writes (entry : Import) : Writes entry.line.text entry.tokens Anything := by
  have word : Writes "import " [.word "import"] Anything := writes_keyword "import" rfl
  have kind : Writes ((entry.kind.map fun kind => kind.name ++ " ").getD "")
      (entry.kind.toList.map fun kind => .word kind.name) Anything := by
    cases entry.kind with
    | none => exact Writes.empty
    | some kind => cases kind <;> exact writes_keyword _ rfl
  have path : Writes (Escape.literal entry.path.text.toUTF8.toList) [textToken entry.path.text]
      Anything := spells_literal _
  have semicolon : Writes ";" [.symbol .semicolon] Anything := writes_marks rfl
  rw [line]
  simp only [String.append_assoc]
  exact word.then_ (kind.then_ (path.then_ semicolon))

theorem Package.writes {package : Package} (wellFormed : package.name.WellFormed) :
    Writes ("package " ++ package.name.text ++ ";") package.tokens Anything := by
  have word : Writes "package " [.word "package"] Anything := writes_keyword "package" rfl
  have semicolon : Writes ";" [.symbol .semicolon] Anything := writes_marks rfl
  rw [String.append_assoc]
  exact word.then_ ((DottedName.writes wellFormed).before semicolon rfl (endsWord_some rfl))

theorem Edition.writes (edition : Edition) :
    Writes ("syntax = \"" ++ edition.name ++ "\";") edition.tokens Anything := by
  have word : Writes "syntax " [.word "syntax"] Anything := writes_keyword "syntax" rfl
  have equals : Writes "= " [.symbol .equals] Anything := writes_marks rfl
  have name : Writes ("\"" ++ edition.name ++ "\"") [textToken edition.name] Anything :=
    writes_quoted (by cases edition <;> decide)
  have semicolon : Writes ";" [.symbol .semicolon] Anything := writes_marks rfl
  have text : "syntax = \"" ++ edition.name ++ "\";" =
      "syntax " ++ ("= " ++ ("\"" ++ edition.name ++ "\"" ++ ";")) := by
    cases edition <;> rfl
  rw [text]
  exact word.then_ (equals.then_ (name.then_ semicolon))

namespace File

/-- A file is written as its parts, with a blank line between two of them. -/
theorem writes_parts {file : File} {declared : Option Edition} (members : file.Members declared) :
    WritesParts file.parts file.tokens := by
  have edition : WritesParts (file.declaredEdition.toList.map fun edition =>
      [⟨0, "syntax = \"" ++ edition.name ++ "\";"⟩])
      (file.declaredEdition.toList.flatMap Edition.tokens) :=
    WritesParts.map fun edition _ => WritesLines.single edition.writes
  have package : WritesParts (file.package.toList.map fun package =>
      [⟨0, "package " ++ package.name.text ++ ";"⟩]) (file.package.toList.flatMap Package.tokens) :=
    WritesParts.map fun package member =>
      WritesLines.single (Package.writes (members.package package (by simpa using member)))
  have imports : WritesParts (partOf (file.imports.map Import.line))
      (file.imports.flatMap Import.tokens) :=
    WritesParts.partOf fun entry _ => entry.writes
  have options : WritesParts (partOf (file.options.map (OptionStatement.line 0)))
      (file.options.flatMap OptionStatement.tokens) :=
    WritesParts.partOf fun option member => OptionStatement.writes (members.options option member) 0
  have messages : WritesParts (file.messages.map (Message.lines 0))
      (file.messages.flatMap Message.tokens) := by
    refine WritesParts.map fun message member => ?_
    obtain ⟨index, found⟩ := List.getElem?_of_mem member
    exact Message.writes (members.messages index message found) 0
  have enums : WritesParts (file.enums.map (Enumeration.lines 0))
      (file.enums.flatMap Enumeration.tokens) :=
    WritesParts.map fun enumeration member =>
      Enumeration.writes (members.enums enumeration member) 0
  have services : WritesParts (file.services.map (Service.lines 0))
      (file.services.flatMap Service.tokens) :=
    WritesParts.map fun service member => Service.writes (members.services service member) 0
  have extensions : WritesParts (file.extensions.map (Extension.lines 0))
      (file.extensions.flatMap Extension.tokens) :=
    WritesParts.map fun extension member =>
      Extension.writes (members.extensions extension member) 0
  rw [parts]
  simp only [List.append_assoc]
  exact edition.append (package.append (imports.append (options.append (messages.append
    (enums.append (services.append extensions))))))

/-- The canonical text of a file spells its canonical tokens. -/
theorem spells_render {file : File} {declared : Option Edition}
    (members : file.Members declared) : Spells file.render.toList file.tokens Anything := by
  have text : file.render.toList = file.lines.flatMap fun line => line.render.toList := by
    rw [render, String.toList_join, List.flatMap_map]
  rw [text]
  exact (writes_parts members).lines

end File

end ProtoSchema
