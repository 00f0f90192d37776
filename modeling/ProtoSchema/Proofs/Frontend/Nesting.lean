/-
This file shows that paths and the messages of an accepted file answer to each
other. There is just one path to each message, and an extension block in a message
refers back by it. The paths are those that the messages were parsed with, however
deep and among whatever else they stand, and resolving keeps them. It also shows
that what is nested is counted as it is. At each point of a parse, what the parser
knows of the depth is what its brackets say, so what stood beside does not count,
and only what is nested too deeply is refused for it. In an accepted file a message
is as far in as its path is long, and an option value nests as deep as the messages
in text format in it are in one another.
-/

import ProtoSchema.Proofs.Frontend.Spans
import ProtoSchema.Proofs.Layout.Paths
import ProtoSchema.Proofs.Nesting.Points

namespace ProtoSchema

/-! ### Paths -/

namespace File

variable {file : File} {path : MessagePath} {message : Message}

/-- In a well-formed file the extension blocks in the message at a path refer back by it. -/
theorem WellFormed.parent_of_messageAt (wellFormed : file.WellFormed)
    (found : file.messageAt? path = some message) :
    ∀ extension ∈ message.extensions, extension.parent = some path := by
  obtain ⟨depth, messageWellFormed, -⟩ :=
    wellFormed_descend [] wellFormed.members.messages found
  intro extension member
  cases depth with
  | zero => cases messageWellFormed
  | succ depth => exact (messageWellFormed.2.1.extensions extension member).members.parent

theorem WellFormed.parent_of_resolve (wellFormed : file.WellFormed)
    (found : file.resolve.messageAt? path = some message) :
    ∀ extension ∈ message.extensions, extension.parent = some path := by
  rw [messageAt?, resolve, SymbolTable.resolveMessages_eq] at found
  obtain ⟨original, scopes, originalFound, rfl⟩ := exists_of_descend_resolve found
  rw [SymbolTable.resolveMessage_eq, List.forall_mem_map]
  exact wellFormed.parent_of_messageAt originalFound

end File

namespace ParseOptions

variable {options : ParseOptions} {parsed : File}

theorem parent_of_finish (wellFormed : parsed.WellFormed) {path : MessagePath} {message : Message}
    (found : (options.finish parsed).messageAt? path = some message) :
    ∀ extension ∈ message.extensions, extension.parent = some path := by
  rw [finish] at found
  split at found
  · exact wellFormed.parent_of_resolve found
  · exact wellFormed.parent_of_messageAt found

/-- The extension blocks at the top of a file refer back to no message. -/
theorem parent_of_top (wellFormed : parsed.WellFormed) :
    ∀ extension ∈ (options.finish parsed).extensions, extension.parent = none := by
  have each : ∀ extension ∈ parsed.extensions, extension.parent = none :=
    fun extension member => (wellFormed.members.extensions extension member).members.parent
  rw [finish]
  split
  · exact List.forall_mem_map.mpr each
  · exact each

end ParseOptions

/-- In an accepted file the extension blocks in the message at a path have that path and that
message as their scope, and those at the top have none; messages at different paths start at
different places, and each message in the file is at just one path. -/
theorem paths_exact {options : ParseOptions} {source : String} {file : File}
    (accepted : options.parse source = .ok file) :
    (∀ path message, file.messageAt? path = some message → ∀ extension ∈ message.extensions,
      extension.parent = some path ∧ file.scopeOf? extension = some message) ∧
    (∀ extension ∈ file.extensions, extension.parent = none ∧ file.scopeOf? extension = none) ∧
    (∀ path other message another, file.messageAt? path = some message →
      file.messageAt? other = some another → path ≠ other →
        message.span.start ≠ another.span.start) ∧
    ∀ around, file.Place around → ∀ message ∈ file.messagesAt around,
      ∃! path, file.messageAt? path = some message := by
  obtain ⟨pieces, parsed, answers, rfl⟩ := ParseOptions.parse_eq_ok_iff.mp accepted
  have wellFormed := answers.wellFormed.1
  have interior : (options.finish parsed).Interior source.toList 0 (byteLength source.toList) := by
    refine File.Interior.of_laid ?_
    rw [ParseOptions.outlines_finish]
    exact answers.laid
  have injective {path other : MessagePath} {message another : Message}
      (found : (options.finish parsed).messageAt? path = some message)
      (otherFound : (options.finish parsed).messageAt? other = some another)
      (same : message.span.start = another.span.start) : path = other :=
    File.descend_injective (fun message member => (interior.messages message member).1)
      interior.messagesInOrder found otherFound same
  refine ⟨fun path message found extension member => ?_, fun extension member => ?_,
    fun path other message another found otherFound differ same => ?_,
    fun around place message member => ?_⟩
  · have parent := ParseOptions.parent_of_finish wellFormed found extension member
    refine ⟨parent, ?_⟩
    rw [File.scopeOf?, parent]
    exact found
  · have parent := ParseOptions.parent_of_top wellFormed extension member
    refine ⟨parent, ?_⟩
    rw [File.scopeOf?, parent]
    rfl
  · exact differ (injective found otherFound same)
  · obtain ⟨path, found⟩ := place.exists_path message member
    exact ⟨path, found, fun other otherFound => injective otherFound found rfl⟩

/-- A block in a message that stands behind other messages and another block. -/
theorem paths_exact_sample : ∃ file message extension,
    parse "message A { } message B { message C { } extend A { } message D { extend A { } } }" =
        .ok file ∧
      file.messageAt? [1, 1] = some message ∧ message.name.text = "D" ∧
        message.extensions = [extension] ∧ extension.parent = some [1, 1] ∧
          file.scopeOf? extension = some message := by
  obtain ⟨file, accepted, checked⟩ := exists_of_check
    (parse "message A { } message B { message C { } extend A { } message D { extend A { } } }")
    (fun file : File => (file.messageAt? [1, 1]).any fun message : Message =>
      decide (message.name.text = "D" ∧ message.extensions.length = 1)) (by decide +kernel)
  obtain ⟨message, found, holds⟩ := (Option.any_eq_true _ _).mp checked
  obtain ⟨name, single⟩ := of_decide_eq_true holds
  obtain ⟨extension, extensions⟩ := List.length_eq_one_iff.mp single
  have back := (paths_exact accepted).1 [1, 1] message found extension
    (extensions ▸ List.mem_singleton_self _)
  exact ⟨file, message, extension, accepted, found, name, extensions, back⟩

/-! ### How deep option values nest -/

mutual

/-- How many messages in text format are in one another in a value, through entries and lists. -/
def OptionValue.nesting : OptionValue → Nat
  | .aggregate entries _ => OptionEntry.greatestNesting entries + 1
  | .array values _ => OptionValue.greatestNesting values
  | _ => 0

/-- The greatest nesting of some values. -/
def OptionValue.greatestNesting : List OptionValue → Nat
  | [] => 0
  | value :: rest => max value.nesting (OptionValue.greatestNesting rest)

/-- The greatest nesting of the values of some entries. -/
def OptionEntry.greatestNesting : List OptionEntry → Nat
  | [] => 0
  | ⟨_, value, _⟩ :: rest => max value.nesting (OptionEntry.greatestNesting rest)

end

theorem OptionValue.greatestNesting_le {values : List OptionValue} {depth : Nat} :
    OptionValue.greatestNesting values ≤ depth ↔ ∀ value ∈ values, value.nesting ≤ depth := by
  induction values with
  | nil => simp [OptionValue.greatestNesting]
  | cons value rest inductionHypothesis =>
    rw [OptionValue.greatestNesting, Nat.max_le, inductionHypothesis, List.forall_mem_cons]

theorem OptionEntry.greatestNesting_le {entries : List OptionEntry} {depth : Nat} :
    OptionEntry.greatestNesting entries ≤ depth ↔
      ∀ entry ∈ entries, entry.value.nesting ≤ depth := by
  induction entries with
  | nil => simp [OptionEntry.greatestNesting]
  | cons entry rest inductionHypothesis =>
    cases entry
    rw [OptionEntry.greatestNesting, Nat.max_le, inductionHypothesis, List.forall_mem_cons]

/-- Scalars hold no messages. -/
theorem OptionValue.IsScalar.nesting_eq {value : OptionValue} (scalar : value.IsScalar) :
    value.nesting = 0 := by
  cases value with
  | array _ _ | aggregate _ _ => exact scalar.elim
  | _ => rfl

/-- A value that was read to a depth nests no deeper; by induction on the depth. -/
theorem OptionValue.nesting_le (depth : Nat) : ∀ {value : OptionValue},
    value.IsScalar ∨ value.IsMessage depth → value.nesting ≤ depth := by
  induction depth with
  | zero =>
    rintro value (scalar | message)
    · exact Nat.le_of_eq scalar.nesting_eq
    · cases message
  | succ depth inductionHypothesis =>
    rintro value (scalar | message)
    · exact Nat.le_trans (Nat.le_of_eq scalar.nesting_eq) (Nat.zero_le _)
    · cases value with
      | aggregate entries span =>
        refine Nat.succ_le_succ (OptionEntry.greatestNesting_le.mpr fun entry member => ?_)
        obtain ⟨values, span, eq, each⟩ | shape := (message entry member).2.cases
        · rw [eq, nesting]
          exact OptionValue.greatestNesting_le.mpr fun inner member =>
            inductionHypothesis (each inner member)
        · exact inductionHypothesis shape
      | _ => exact message.elim

/-! ### The settings of declarations -/

/-- What is set by statements of their own. -/
def OptionStatement.settings (options : List OptionStatement) : List OptionSetting :=
  options.map OptionStatement.setting

/-- What is set in an enum, by statements and on its values. -/
def Enumeration.settings (enumeration : Enumeration) : List OptionSetting :=
  OptionStatement.settings enumeration.options ++ enumeration.values.flatMap EnumValue.options

/-- What is set in a service, by statements and in the bodies of methods. -/
def Service.settings (service : Service) : List OptionSetting :=
  OptionStatement.settings service.options ++
    service.methods.flatMap fun method => OptionStatement.settings method.options

/-- What is set in a oneof, by statements and on its fields. -/
def Oneof.settings (oneof : Oneof) : List OptionSetting :=
  OptionStatement.settings oneof.options ++ oneof.fields.flatMap Field.options

/-- What is set in an extension block, by statements and on its fields. -/
def Extension.settings (extension : Extension) : List OptionSetting :=
  OptionStatement.settings extension.options ++ extension.fields.flatMap Field.options

/-- The settings in a message, but for those in the messages that nest in it. -/
def Message.settings (message : Message) : List OptionSetting :=
  OptionStatement.settings message.options ++ message.fields.flatMap Field.options ++
    message.oneofs.flatMap Oneof.settings ++ message.enums.flatMap Enumeration.settings ++
      message.extensions.flatMap Extension.settings ++
        message.extensionRanges.flatMap ExtensionRanges.options

/-- The settings in a file, but for those in its messages. -/
def File.settings (file : File) : List OptionSetting :=
  OptionStatement.settings file.options ++ file.enums.flatMap Enumeration.settings ++
    file.services.flatMap Service.settings ++ file.extensions.flatMap Extension.settings

/-! ### Settings of well-formed declarations -/

section WellFormed

variable {edition : Option Edition}

/-- The settings in some parts are well formed if those in each part are. -/
theorem wellFormed_flatMap {Part : Type} {parts : List Part} {settings : Part → List OptionSetting}
    (each : ∀ part ∈ parts, ∀ setting ∈ settings part, setting.WellFormed) :
    ∀ setting ∈ parts.flatMap settings, setting.WellFormed := by
  intro setting member
  obtain ⟨part, partMember, inside⟩ := List.mem_flatMap.mp member
  exact each part partMember setting inside

theorem wellFormed_statements {options : List OptionStatement}
    (each : ∀ option ∈ options, option.WellFormed) :
    ∀ setting ∈ OptionStatement.settings options, setting.WellFormed :=
  List.forall_mem_map.mpr each

theorem Enumeration.WellFormed.settings {enumeration : Enumeration}
    (wellFormed : enumeration.WellFormed) : ∀ setting ∈ enumeration.settings, setting.WellFormed :=
  List.forall_mem_append.mpr ⟨wellFormed_statements wellFormed.members.options,
    wellFormed_flatMap fun value member => (wellFormed.members.values value member).options⟩

theorem Service.WellFormed.settings {service : Service} (wellFormed : service.WellFormed) :
    ∀ setting ∈ service.settings, setting.WellFormed :=
  List.forall_mem_append.mpr ⟨wellFormed_statements wellFormed.members.options,
    wellFormed_flatMap fun method member =>
      wellFormed_statements (wellFormed.members.methods method member).options⟩

theorem Oneof.WellFormed.settings {oneof : Oneof} {index : Nat}
    (wellFormed : oneof.WellFormed edition index) :
    ∀ setting ∈ oneof.settings, setting.WellFormed :=
  List.forall_mem_append.mpr ⟨wellFormed_statements wellFormed.members.options,
    wellFormed_flatMap fun field member => (wellFormed.members.fields field member).options⟩

theorem Extension.WellFormed.settings {extension : Extension} {parent : Option MessagePath}
    (wellFormed : extension.WellFormed edition parent) :
    ∀ setting ∈ extension.settings, setting.WellFormed :=
  List.forall_mem_append.mpr ⟨wellFormed_statements wellFormed.members.options,
    wellFormed_flatMap fun field member => (wellFormed.members.fields field member).options⟩

theorem Message.WellFormed.settings {message : Message} {depth : Nat} {path : MessagePath}
    (wellFormed : message.WellFormed edition depth path) :
    ∀ setting ∈ message.settings, setting.WellFormed := by
  cases depth with
  | zero => cases wellFormed
  | succ depth =>
    have members := wellFormed.2.1
    refine List.forall_mem_append.mpr ⟨List.forall_mem_append.mpr ⟨List.forall_mem_append.mpr
      ⟨List.forall_mem_append.mpr ⟨List.forall_mem_append.mpr ⟨?options, ?fields⟩, ?oneofs⟩,
        ?enums⟩, ?extensions⟩, ?extensionRanges⟩
    case options => exact wellFormed_statements members.options
    case fields =>
      exact wellFormed_flatMap fun field member => (members.fields field member).options
    case oneofs =>
      refine wellFormed_flatMap fun oneof member => ?_
      obtain ⟨index, found⟩ := List.mem_iff_getElem?.mp member
      exact (members.oneofs index oneof found).settings
    case enums =>
      exact wellFormed_flatMap fun enumeration member => (members.enums enumeration member).settings
    case extensions =>
      exact wellFormed_flatMap fun extension member =>
        (members.extensions extension member).settings
    case extensionRanges =>
      exact wellFormed_flatMap fun ranges member => (members.extensionRanges ranges member).options

theorem File.WellFormed.settings {file : File} (wellFormed : file.WellFormed) :
    ∀ setting ∈ file.settings, setting.WellFormed := by
  have members := wellFormed.members
  refine List.forall_mem_append.mpr ⟨List.forall_mem_append.mpr ⟨List.forall_mem_append.mpr
    ⟨?options, ?enums⟩, ?services⟩, ?extensions⟩
  case options => exact wellFormed_statements members.options
  case enums =>
    exact wellFormed_flatMap fun enumeration member => (members.enums enumeration member).settings
  case services =>
    exact wellFormed_flatMap fun service member => (members.services service member).settings
  case extensions =>
    exact wellFormed_flatMap fun extension member => (members.extensions extension member).settings

end WellFormed

/-! ### Resolving keeps settings -/

section Resolve

variable (table : SymbolTable) (scopes : List String)

theorem settings_resolveOneof (oneof : Oneof) :
    (table.resolveOneof scopes oneof).settings = oneof.settings := by
  rw [Oneof.settings, SymbolTable.resolveOneof, List.flatMap_map]
  rfl

theorem settings_resolveExtension (extension : Extension) :
    (table.resolveExtension scopes extension).settings = extension.settings := by
  rw [Extension.settings, SymbolTable.resolveExtension, List.flatMap_map]
  rfl

theorem settings_resolveMessage (message : Message) :
    (table.resolveMessage scopes message).settings = message.settings := by
  rw [Message.settings, SymbolTable.resolveMessage_eq, List.flatMap_map, List.flatMap_map,
    List.flatMap_map, funext (settings_resolveOneof table _),
    funext (settings_resolveExtension table _)]
  rfl

theorem settings_finish (options : ParseOptions) (file : File) :
    (options.finish file).settings = file.settings := by
  rw [ParseOptions.finish]
  split
  · rw [File.settings, File.resolve, List.flatMap_map, funext (settings_resolveExtension _ _)]
    rfl
  · rfl

end Resolve

/-! ### Messages by their paths -/

variable {file : File} {path : MessagePath} {message : Message}

/-- A message of a well-formed file is no further in than may be, and its settings are well
formed. -/
theorem File.WellFormed.nested (wellFormed : file.WellFormed)
    (found : file.messageAt? path = some message) :
    path.length ≤ Nesting.message.limit ∧ ∀ setting ∈ message.settings, setting.WellFormed := by
  obtain ⟨left, messageWellFormed, total⟩ :=
    File.wellFormed_descend [] wellFormed.members.messages found
  refine ⟨?_, messageWellFormed.settings⟩
  cases left with
  | zero => cases messageWellFormed
  | succ left => omega

theorem ParseOptions.nested_of_finish {options : ParseOptions} (wellFormed : file.WellFormed)
    (found : (options.finish file).messageAt? path = some message) :
    path.length ≤ Nesting.message.limit ∧ ∀ setting ∈ message.settings, setting.WellFormed := by
  rw [finish] at found
  split at found
  · rw [File.messageAt?, File.resolve, SymbolTable.resolveMessages_eq] at found
    obtain ⟨original, scopes, originalFound, rfl⟩ := File.exists_of_descend_resolve found
    rw [settings_resolveMessage]
    exact wellFormed.nested originalFound
  · exact wellFormed.nested found

/-! ### What is counted is open -/

/-- Of any tokens, those that the parser reads never have more open than may be, and none is left
open if it goes through; if it stops because something is nested too deeply, the next token enters
it, and as many are open as may be. At each point that it comes to on its way it knows how many are
open, wherever it has been before. So in an accepted file messages and option values nest within the
limits, option values through entries and lists alike. -/
theorem nesting_counted :
    (∀ (setting : Setting) (lexemes : List Lexeme) (file : File) (faults : List SemanticFault)
        (rest : List Lexeme), Parser.file setting lexemes = .done file faults rest →
      rest = [] ∧ (Nest.behind lexemes).opened = [] ∧
        ∀ front, front <+: lexemes → (Nest.behind front).Bounded) ∧
    (∀ (setting : Setting) (lexemes : List Lexeme) (faults : List SemanticFault)
        (fault : GrammarFault), Parser.file setting lexemes = .stopped faults fault →
      ∃ read rest, lexemes = read ++ rest ∧ (Nest.behind read).StopsAt setting.length rest fault ∧
        ∀ front, front <+: read → (Nest.behind front).Bounded) ∧
    (∀ (setting : Setting) (lexemes : List Lexeme) (point : Point),
        point.Visited setting lexemes →
      ∃ read, lexemes = read ++ point.input ∧ point.Known (Nest.behind read) ∧
        ∀ front, front <+: read → (Nest.behind front).Bounded) ∧
    ∀ (options : ParseOptions) (source : String) (file : File),
        options.parse source = .ok file →
      (∀ setting ∈ file.settings, setting.value.nesting ≤ 100) ∧
        ∀ path message, file.messageAt? path = some message →
          path.length ≤ 32 ∧ ∀ setting ∈ message.settings, setting.value.nesting ≤ 100 := by
  have outcome (setting : Setting) (lexemes : List Lexeme) :
      (Parser.file setting lexemes).Nests setting.length .start lexemes fun _ final rest =>
        final.opened = [] ∧ rest = [] := Parser.nests_file Nest.bounded_start setting
  refine ⟨fun setting lexemes file faults rest done => ?_,
    fun setting lexemes faults fault stopped => ?_, fun setting lexemes point visited => ?_,
    fun options source file accepted => ?_⟩
  · have outcome := outcome setting lexemes
    rw [done] at outcome
    obtain ⟨final, reads, opened, ended⟩ := outcome
    obtain ⟨read, all, rfl, each⟩ := reads.exists_behind
    rw [ended, List.append_nil] at all
    subst all
    exact ⟨ended, opened, each⟩
  · have outcome := outcome setting lexemes
    rw [stopped] at outcome
    obtain ⟨final, rest, reads, stops⟩ := outcome
    obtain ⟨read, all, rfl, each⟩ := reads.exists_behind
    exact ⟨read, rest, all, stops, each⟩
  · obtain ⟨final, reads, known⟩ := visited.known
    obtain ⟨read, all, rfl, each⟩ := reads.exists_behind
    exact ⟨read, all, known, each⟩
  · obtain ⟨parsed, wellFormed, rfl⟩ := ParseOptions.wellFormed_of_parse accepted
    have bound {setting : OptionSetting} (setWell : setting.WellFormed) :
        setting.value.nesting ≤ Nesting.optionValue.limit :=
      OptionValue.nesting_le _ setWell.value
    refine ⟨fun setting member => ?_, fun path message found => ?_⟩
    · rw [settings_finish] at member
      exact bound (wellFormed.settings setting member)
    · obtain ⟨short, settings⟩ := ParseOptions.nested_of_finish wellFormed found
      exact ⟨short, fun setting member => bound (settings setting member)⟩

/-- Option values in a message in a message, and the point in front of the second of two that are in
one another. -/
theorem nesting_counted_sample :
    (∃ file message setting,
      parse "message A { message B { option (o) = { a < b: [{ }] > }; } }" = .ok file ∧
        file.messageAt? [0, 0] = some message ∧ message.settings = [setting] ∧
          setting.value.nesting = 3 ∧ setting.value.nesting ≤ 100) ∧
    ∃ (setting : Setting) (lexemes input : List Lexeme),
      lexemes.map (·.token) = [.word "option", .word "a", .symbol .equals, .symbol .leftBrace,
          .word "b", .symbol .leftBrace] ∧
        (Point.value 99 input).Visited setting lexemes ∧
          ∃ read, lexemes = read ++ input ∧ (Nest.behind read).count .optionValue = 1 := by
  refine ⟨?_, ?_⟩
  · obtain ⟨file, accepted, checked⟩ := exists_of_check
      (parse "message A { message B { option (o) = { a < b: [{ }] > }; } }")
      (fun file : File => (file.messageAt? [0, 0]).any fun message : Message =>
        decide (message.settings.map (·.value.nesting) = [3])) (by decide +kernel)
    obtain ⟨message, found, holds⟩ := (Option.any_eq_true _ _).mp checked
    obtain ⟨setting, single, nesting⟩ := List.map_eq_singleton_iff.mp (of_decide_eq_true holds)
    have bounds := (nesting_counted.2.2.2 {} _ file accepted).2 [0, 0] message found
    exact ⟨file, message, setting, accepted, found, single, nesting,
      bounds.2 setting (single ▸ List.mem_singleton_self _)⟩
  · let lexeme (token : Token) : Lexeme := ⟨token, .point 0, ⟨none, [], none⟩, false⟩
    let setting : Setting := ⟨none, 0, ⟨none, [], none⟩⟩
    let inner := [lexeme (.symbol .leftBrace)]
    let value := lexeme (.symbol .leftBrace) :: lexeme (.word "b") :: inner
    let name := lexeme (.word "a") :: lexeme (.symbol .equals) :: value
    have visited : (Point.value 99 inner).Visited setting (lexeme (.word "option") :: name) := by
      refine ⟨none, [], lexeme (.word "option") :: name, rfl, ?_⟩
      have statement : Point.Leads setting
          (.member .file { File.empty with declaredEdition := none }
            (lexeme (.word "option") :: name)) (.setting false name) := .statement rfl
      have named : Relation.ReflTransGen (Point.Leads setting) _ (.value 100 value) :=
        .tail (.single statement) (.value ⟨_, _, rfl⟩ rfl)
      have opened : Relation.ReflTransGen (Point.Leads setting) _
          (.entry 99 .rightBrace (lexeme (.word "b") :: inner)) :=
        named.tail (.opened (.inl ⟨rfl, rfl⟩))
      have key : Relation.ReflTransGen (Point.Leads setting) _ (.entryRest 99 inner) :=
        opened.tail (.key ⟨_, _, rfl⟩)
      exact key.tail (.entryMessage (.inl rfl))
    obtain ⟨read, all, ⟨enough, -⟩, -⟩ := nesting_counted.2.2.1 _ _ _ visited
    exact ⟨setting, _, inner, rfl, visited, read, all, Nat.add_right_cancel enough⟩

end ProtoSchema
