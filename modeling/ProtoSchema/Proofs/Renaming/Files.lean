/-
This file renames a field in the tokens that its file is read from. A field that is
renamed in what is known after a member was renamed before, or else it stands in the
member, which is read from tokens with another word; so it is member by member,
block by block, down to the field. What is read before the field and behind it is
read again as it was.
-/

import ProtoSchema.Proofs.Renaming.Fields
import ProtoSchema.Proofs.Renaming.Tree

namespace ProtoSchema

open ProtoSchema.Parser

/-! ### Members -/

section Members

variable (field : Field) (word : String)

/-- A field in the block is renamed. There are fields in messages, oneofs and extension blocks. -/
def Block.Renames : (kind : Block) → kind.Value → kind.Value → Prop
  | .message _ _ => Message.Renames field word
  | .oneof _ => Oneof.Renames field word
  | .extension _ => Extension.Renames field word
  | .enumeration | .service | .method => fun _ _ => False

/-- The same of what is known between two members. -/
def Body.Renames : (body : Body) → body.State → body.State → Prop
  | .file => File.Renames field word
  | .block (.message _ _) => Message.Renames field word
  | .block (.oneof _) => Oneof.Renames field word
  | .block (.extension _) => Extension.Renames field word
  | .block _ => fun _ _ => False

/-- The same of what is known after the last member. -/
def Body.RenamesResult : (body : Body) → body.Result → body.Result → Prop
  | .file => File.Renames field word
  | .block kind => fun result other =>
    (Body.block kind).Renames field word result.1 other.1 ∧ other.2 = result.2

/-- A field that is renamed after a member was renamed before, or the member is read from tokens
with another word. -/
def Parser.Traces {State : Type} (renames : State → State → Prop)
    (parse : State → Option (Parser State)) : Prop :=
  ∀ state parser, parse state = some parser →
    ∀ (setting : Setting) (input : List Lexeme) (following other : State) (left : List Lexeme),
      parser setting input = .done following [] left → renames following other →
        (∃ known again, renames state known ∧ parse known = some again ∧
          again setting input = .done other [] left) ∨
        ∃ otherInput, Swaps field word input otherInput ∧
          parser setting otherInput = .done other [] left

end Members

namespace Parser.Traces

variable {field : Field} {word : String} {State Item : Type} {renames : State → State → Prop}

theorem none : Traces field word renames fun _ => none := nofun

theorem ite {condition : Prop} [Decidable condition] {first second : State → Option (Parser State)}
    (holds : condition → Traces field word renames first)
    (fails : ¬ condition → Traces field word renames second) :
    Traces field word renames fun state => if condition then first state else second state := by
  by_cases isFirst : condition
  · simp only [if_pos isFirst]
    exact holds isFirst
  · simp only [if_neg isFirst]
    exact fails isFirst

/-- A member that holds no field. -/
theorem add {parser : Parser Item} {add : State → Item → State}
    (apart : ∀ state item other, renames (add state item) other →
      ∃ known, renames state known ∧ other = add known item) :
    Traces field word renames fun state => some do return add state (← parser) := by
  rintro state _ ⟨⟩ setting input following other left done renamed
  obtain ⟨item, middle, read, ended⟩ := bind_eq_done done
  obtain ⟨rfl, -, rfl⟩ := Outcome.done.inj ended
  obtain ⟨known, before, rfl⟩ := apart state item other renamed
  exact .inl ⟨known, _, before, rfl, bind_of_done read⟩

/-- A member that is a field. -/
theorem addField {context : FieldContext} {add : State → Option Field → State}
    (apart : ∀ state found other, renames (add state found) other →
      (∃ known, renames state known ∧ other = add known found) ∨
        found = some field ∧ other = add state (some (field.renamed word))) :
    Traces field word renames fun state => some do return add state (← Parser.field context) := by
  rintro state _ ⟨⟩ setting input following other left done renamed
  obtain ⟨found, middle, read, ended⟩ := bind_eq_done done
  obtain ⟨rfl, -, rfl⟩ := Outcome.done.inj ended
  obtain ⟨known, before, rfl⟩ | ⟨rfl, rfl⟩ := apart state found other renamed
  · exact .inl ⟨known, _, before, rfl, bind_of_done read⟩
  · obtain ⟨otherInput, swaps, again⟩ := field_swaps read word
    exact .inr ⟨otherInput, swaps, bind_of_done again⟩

/-- A member that is never read. -/
theorem never {parse : State → Parser State}
    (stops : ∀ state setting input following left,
      parse state setting input ≠ .done following [] left) :
    Traces field word renames fun state => some (parse state) := by
  rintro state _ ⟨⟩ setting input following other left done -
  exact absurd done (stops state setting input following left)

end Parser.Traces

section Apart

variable {field : Field} {word : String}

/-- Of what is added to a message, only what fields stand in is told from what was there. -/
theorem Message.Renames.apart (message : Message) {changed other : Message}
    (renames : changed.Renames field word other)
    (same : changed.fields = message.fields ∧ changed.oneofs = message.oneofs ∧
      changed.extensions = message.extensions ∧ changed.messages = message.messages) :
    ∃ fields oneofs extensions messages,
      message.Renames field word { message with fields, oneofs, extensions, messages } ∧
        other = { changed with fields, oneofs, extensions, messages } := by
  obtain ⟨sameFields, sameOneofs, sameExtensions, sameMessages⟩ := same
  cases renames with
  | direct replaces =>
    rw [sameFields] at replaces
    rw [sameOneofs, sameExtensions, sameMessages]
    exact ⟨_, _, _, _, .direct replaces, rfl⟩
  | member renames sound replaces =>
    rw [sameOneofs] at replaces
    rw [sameFields, sameExtensions, sameMessages]
    exact ⟨_, _, _, _, .member renames sound replaces, rfl⟩
  | extension renames replaces =>
    rw [sameExtensions] at replaces
    rw [sameFields, sameOneofs, sameMessages]
    exact ⟨_, _, _, _, .extension renames replaces, rfl⟩
  | nested renames sound replaces =>
    rw [sameMessages] at replaces
    rw [sameFields, sameOneofs, sameExtensions]
    exact ⟨_, _, _, _, .nested renames sound replaces, rfl⟩

/-- The same of a file. -/
theorem File.Renames.apart (file : File) {changed other : File}
    (renames : changed.Renames field word other)
    (same : changed.extensions = file.extensions ∧ changed.messages = file.messages) :
    ∃ extensions messages, file.Renames field word { file with extensions, messages } ∧
      other = { changed with extensions, messages } := by
  obtain ⟨sameExtensions, sameMessages⟩ := same
  cases renames with
  | message renames sound replaces =>
    rw [sameMessages] at replaces
    rw [sameExtensions]
    exact ⟨_, _, .message renames sound replaces, rfl⟩
  | extension renames replaces =>
    rw [sameExtensions] at replaces
    rw [sameMessages]
    exact ⟨_, _, .extension renames replaces, rfl⟩

/-! Of a field that is added it is told. -/

theorem Message.Renames.of_field {message other : Message} {found : Option Field}
    (renames : { message with fields := message.fields ++ found.toList }.Renames field word other) :
    (∃ known, message.Renames field word known ∧
        other = { known with fields := known.fields ++ found.toList }) ∨
      found = some field ∧
        other = { message with fields := message.fields ++ [field.renamed word] } := by
  cases renames with
  | direct replaces =>
    obtain ⟨fields, before, rfl⟩ | ⟨isField, rfl⟩ := replaces.append_toList
    · exact .inl ⟨_, .direct before, rfl⟩
    · exact .inr ⟨isField, rfl⟩
  | member renames sound replaces => exact .inl ⟨_, .member renames sound replaces, rfl⟩
  | extension renames replaces => exact .inl ⟨_, .extension renames replaces, rfl⟩
  | nested renames sound replaces => exact .inl ⟨_, .nested renames sound replaces, rfl⟩

theorem Oneof.Renames.of_field {oneof other : Oneof} {found : Option Field}
    (renames : { oneof with fields := oneof.fields ++ found.toList }.Renames field word other) :
    (∃ known, oneof.Renames field word known ∧
        other = { known with fields := known.fields ++ found.toList }) ∨
      found = some field ∧
        other = { oneof with fields := oneof.fields ++ [field.renamed word] } := by
  obtain ⟨replaces⟩ := renames
  obtain ⟨fields, before, rfl⟩ | ⟨isField, rfl⟩ := replaces.append_toList
  · exact .inl ⟨_, .intro before, rfl⟩
  · exact .inr ⟨isField, rfl⟩

theorem Extension.Renames.of_field {extension other : Extension} {found : Option Field}
    (renames : { extension with fields := extension.fields ++ found.toList }.Renames field word
      other) :
    (∃ known, extension.Renames field word known ∧
        other = { known with fields := known.fields ++ found.toList }) ∨
      found = some field ∧
        other = { extension with fields := extension.fields ++ [field.renamed word] } := by
  obtain ⟨replaces⟩ := renames
  obtain ⟨fields, before, rfl⟩ | ⟨isField, rfl⟩ := replaces.append_toList
  · exact .inl ⟨_, .intro before, rfl⟩
  · exact .inr ⟨isField, rfl⟩

end Apart

namespace Parser

variable {field : Field} {word : String}

/-- A package holds no field. -/
theorem traces_package :
    Traces field word (File.Renames field word) fun file => some (package >>= addPackage file) := by
  rintro file _ ⟨⟩ setting input following other left done renames
  obtain ⟨package, middle, read, added⟩ := bind_eq_done done
  cases first : file.package with
  | some known =>
    rw [addPackage, first] at added
    obtain ⟨_, _, reported, -⟩ := bind_eq_done added
    cases reported
  | none =>
    rw [addPackage, first] at added
    obtain ⟨rfl, -, rfl⟩ := Outcome.done.inj added
    obtain ⟨extensions, messages, before, rfl⟩ := renames.apart file ⟨rfl, rfl⟩
    refine .inl ⟨_, _, before, rfl, (bind_of_done read).trans ?_⟩
    rw [addPackage, first]
    rfl

/-- Of the members that are no blocks, only fields are told. -/
theorem traces_member {body : Body} {state : body.State} {next : Token}
    (opens : body.opened? state next = none) :
    Traces field word (body.Renames field word) fun known => body.member known next := by
  match body, next with
  | .file, .word text =>
    dsimp only [Body.opened?] at opens
    dsimp only [Body.member, fileMember]
    split_ifs at opens with isMessage isEnum isService isExtend
    refine .ite (fun _ => .add ?imports) fun _ => .ite (fun _ => traces_package) fun _ =>
      .ite (fun _ => .add ?options) fun _ => ?blocks
    case imports | options =>
      intro file item other renames
      obtain ⟨extensions, messages, before, rfl⟩ := renames.apart file ⟨rfl, rfl⟩
      exact ⟨_, before, rfl⟩
    refine .ite (absurd · isMessage) fun _ => .ite (absurd · isEnum) fun _ => ?_
    exact .ite (absurd · isService) fun _ => .ite (absurd · isExtend) fun _ => .none
  | .block (.message depth path), .word text =>
    dsimp only [Body.opened?] at opens
    dsimp only [Body.member, Block.form, BlockForm.message, messageMember]
    refine .ite (fun isMessage => ?message) fun noMessage => ?others
    case message =>
      cases depth with
      | zero =>
        refine .never fun known setting input following left done => ?_
        obtain ⟨_, _, stopped, -⟩ := bind_eq_done done
        obtain ⟨_, _, -, stopped⟩ := bind_eq_done stopped
        cases stopped
      | succ depth =>
        rw [if_pos isMessage] at opens
        cases opens
    rw [if_neg noMessage] at opens
    split_ifs at opens with isEnum isOneof isExtend
    refine .ite (absurd · isEnum) fun _ => .ite (absurd · isOneof) fun _ =>
      .ite (fun _ => .add ?reserved) fun _ => .ite (fun _ => .add ?ranges) fun _ =>
        .ite (fun _ => .add ?options) fun _ => .ite (absurd · isExtend) fun _ => ?fields
    case reserved | ranges | options =>
      intro message item other renames
      obtain ⟨_, _, _, _, before, rfl⟩ := renames.apart message ⟨rfl, rfl, rfl, rfl⟩
      exact ⟨_, before, rfl⟩
    exact .addField fun _ _ _ => Message.Renames.of_field
  | .block (.message depth path), .symbol mark =>
    cases mark with
    | dot => exact .addField fun _ _ _ => Message.Renames.of_field
    | _ => exact .none
  | .block (.oneof index), next =>
    refine .ite (fun _ => .add ?_) fun _ => .ite (fun _ => .addField ?_) fun _ => .none
    · rintro oneof item other ⟨replaces⟩
      exact ⟨_, .intro replaces, rfl⟩
    · exact fun _ _ _ => Oneof.Renames.of_field
  | .block (.extension parent), next =>
    refine .ite (fun _ => .add ?_) fun _ => .ite (fun _ => .addField ?_) fun _ => .none
    · rintro extension item other ⟨replaces⟩
      exact ⟨_, .intro replaces, rfl⟩
    · exact fun _ _ _ => Extension.Renames.of_field
  | .block .enumeration, next | .block .service, next | .block .method, next =>
    exact fun _ _ _ _ _ _ _ _ _ renames => renames.elim
  | .file, .int _ | .file, .float _ | .file, .string _ | .file, .symbol _ => exact .none
  | .block (.message _ _), .int _ | .block (.message _ _), .float _
  | .block (.message _ _), .string _ => exact .none

end Parser

/-! ### Blocks -/

section Blocks

variable {field : Field} {word : String} {body : Body} {kind : Block} {setting : Setting}
variable {input left : List Lexeme}

/-- Which block a token starts does not depend on names of fields. -/
theorem Body.Renames.opened?_eq {state known : body.State}
    (renames : body.Renames field word state known) (next : Token) :
    body.opened? known next = body.opened? state next := by
  match body, next with
  | .file, .word text =>
    have messages : known.messages.length = state.messages.length := by
      cases renames with
      | message _ _ replaces => exact replaces.length_eq
      | extension => rfl
    simp only [opened?, messages]
  | .block (.message depth path), .word text =>
    have lengths : known.messages.length = state.messages.length ∧
        known.oneofs.length = state.oneofs.length := by
      cases renames with
      | direct => exact ⟨rfl, rfl⟩
      | member _ _ replaces => exact ⟨rfl, replaces.length_eq⟩
      | extension => exact ⟨rfl, rfl⟩
      | nested _ _ replaces => exact ⟨replaces.length_eq, rfl⟩
    cases depth <;> simp only [opened?, lengths]
  | .block .service, next => exact renames.elim
  | .file, .int _ | .file, .float _ | .file, .string _ | .file, .symbol _ => rfl
  | .block (.message _ _), .int _ | .block (.message _ _), .float _
  | .block (.message _ _), .string _ | .block (.message _ _), .symbol _ => rfl
  | .block .enumeration, next | .block (.oneof _), next | .block (.extension _), next
  | .block .method, next => rfl

/-- A field that is renamed after a block was renamed before, or in the block. -/
theorem Body.Renames.of_attach {state other : body.State} {value : kind.Value}
    (renames : body.Renames field word (body.attach kind state value) other) :
    (∃ known, body.Renames field word state known ∧ other = body.attach kind known value) ∨
      ∃ renamed, kind.Renames field word value renamed ∧
        (∀ edition, kind.form.faults edition value = [] → kind.form.faults edition renamed = []) ∧
        other = body.attach kind state renamed := by
  cases body with
  | file =>
    cases kind with
    | message depth path =>
      cases renames with
      | message renames sound replaces =>
        obtain ⟨messages, before, rfl⟩ | ⟨rfl, rfl⟩ := Replaces.concat_iff.mp replaces
        · exact .inl ⟨_, .message renames sound before, rfl⟩
        · exact .inr ⟨_, renames, fun _ _ => sound, rfl⟩
      | extension renames replaces => exact .inl ⟨_, .extension renames replaces, rfl⟩
    | extension parent =>
      cases renames with
      | message renames sound replaces => exact .inl ⟨_, .message renames sound replaces, rfl⟩
      | extension renames replaces =>
        obtain ⟨extensions, before, rfl⟩ | ⟨rfl, rfl⟩ := Replaces.concat_iff.mp replaces
        · exact .inl ⟨_, .extension renames before, rfl⟩
        · exact .inr ⟨_, renames, fun edition none => (renames.faults_eq edition).trans none, rfl⟩
    | enumeration | service =>
      obtain ⟨_, _, before, rfl⟩ := renames.apart state ⟨rfl, rfl⟩
      exact .inl ⟨_, before, rfl⟩
    | oneof | method => exact .inl ⟨other, renames, rfl⟩
  | block outer =>
    cases outer with
    | message depth path =>
      cases kind with
      | message depth path =>
        cases renames with
        | direct replaces => exact .inl ⟨_, .direct replaces, rfl⟩
        | member renames sound replaces => exact .inl ⟨_, .member renames sound replaces, rfl⟩
        | extension renames replaces => exact .inl ⟨_, .extension renames replaces, rfl⟩
        | nested renames sound replaces =>
          obtain ⟨messages, before, rfl⟩ | ⟨rfl, rfl⟩ := Replaces.concat_iff.mp replaces
          · exact .inl ⟨_, .nested renames sound before, rfl⟩
          · exact .inr ⟨_, renames, fun _ _ => sound, rfl⟩
      | oneof index =>
        cases renames with
        | direct replaces => exact .inl ⟨_, .direct replaces, rfl⟩
        | member renames sound replaces =>
          obtain ⟨oneofs, before, rfl⟩ | ⟨rfl, rfl⟩ := Replaces.concat_iff.mp replaces
          · exact .inl ⟨_, .member renames sound before, rfl⟩
          · exact .inr ⟨_, renames, fun _ _ => sound, rfl⟩
        | extension renames replaces => exact .inl ⟨_, .extension renames replaces, rfl⟩
        | nested renames sound replaces => exact .inl ⟨_, .nested renames sound replaces, rfl⟩
      | extension parent =>
        cases renames with
        | direct replaces => exact .inl ⟨_, .direct replaces, rfl⟩
        | member renames sound replaces => exact .inl ⟨_, .member renames sound replaces, rfl⟩
        | extension renames replaces =>
          obtain ⟨extensions, before, rfl⟩ | ⟨rfl, rfl⟩ := Replaces.concat_iff.mp replaces
          · exact .inl ⟨_, .extension renames before, rfl⟩
          · exact .inr ⟨_, renames, fun edition none => (renames.faults_eq edition).trans none, rfl⟩
        | nested renames sound replaces => exact .inl ⟨_, .nested renames sound replaces, rfl⟩
      | enumeration =>
        obtain ⟨_, _, _, _, before, rfl⟩ := renames.apart state ⟨rfl, rfl, rfl, rfl⟩
        exact .inl ⟨_, before, rfl⟩
      | service | method => exact .inl ⟨other, renames, rfl⟩
    | oneof | extension => cases kind <;> exact .inl ⟨other, renames, rfl⟩
    | enumeration | service | method => exact renames.elim

/-- Of what is known of a block, only the end is added when it is closed. -/
theorem Block.Renames.of_close {begun other : kind.Value} {known : kind.State} {stop : Span}
    (renames : kind.Renames field word (kind.form.close begun known stop) other) :
    ∃ read, (Body.block kind).Renames field word known read ∧
      other = kind.form.close begun read stop := by
  cases kind with
  | message depth path =>
    obtain ⟨_, _, _, _, before, rfl⟩ := renames.apart known ⟨rfl, rfl, rfl, rfl⟩
    exact ⟨_, before, rfl⟩
  | oneof index =>
    obtain ⟨replaces⟩ := renames
    exact ⟨_, .intro replaces, rfl⟩
  | extension parent =>
    obtain ⟨replaces⟩ := renames
    exact ⟨_, .intro replaces, rfl⟩
  | enumeration | service | method => exact renames.elim

/-- There is no field before the first member. -/
theorem Block.not_renames_begin {begun : kind.Value} {known : kind.State}
    (header : kind.form.header setting input = .done begun [] left) :
    ¬ (Body.block kind).Renames field word (kind.form.begin begun) known := by
  intro renames
  cases kind with
  | message | oneof | extension =>
    obtain ⟨_, _, -, header⟩ := bind_eq_done header
    obtain ⟨_, _, -, header⟩ := bind_eq_done header
    obtain ⟨_, _, -, header⟩ := bind_eq_done header
    obtain ⟨_, _, -, header⟩ := bind_eq_done header
    obtain ⟨rfl, -, -⟩ := Outcome.done.inj header
    cases renames
    all_goals
      next replaces => exact absurd replaces.mem List.not_mem_nil
  | enumeration | service | method => exact renames

end Blocks

/-! ### From members to files -/

/-- What is known between two members, if nothing of it is changed where everything stays. -/
structure Body.Stands (body : Body) (state : body.State) : Prop where
  kept : body.Kept state
  same : body.shifted Move.stay state = state

/-- A field that is renamed when the last member was read was renamed in what was known before, or
the members are read from tokens with another word. -/
def Body.Traces (field : Field) (word : String) (setting : Setting) (body : Body) : Prop :=
  ∀ budget state input result other left, body.Stands state →
    repeatFor body.step budget state setting input = .done result [] left →
      body.RenamesResult field word result other →
        (∃ known, body.Renames field word state known ∧
          repeatFor body.step budget known setting input = .done other [] left) ∨
        ∃ otherInput, Swaps field word input otherInput ∧
          repeatFor body.step budget state setting otherInput = .done other [] left

section Traces

variable {field : Field} {word : String} {body : Body} {kind : Block} {setting : Setting}
variable {input left : List Lexeme}

/-- How long a loop may go on is told by the length of a list alone. -/
theorem Parser.repeatFor_of_length {State Result : Type} {step : State → Parser (State ⊕ Result)}
    {budget other : List Lexeme} (same : other.length = budget.length) :
    repeatFor step other = repeatFor step budget := by
  induction budget generalizing other with
  | nil => rw [List.length_eq_zero_iff.mp same]
  | cons first budget inductionHypothesis =>
    cases other with
    | nil => cases same
    | cons second other =>
      funext state
      rw [repeatFor, repeatFor, inductionHypothesis (Nat.succ.inj same)]

/-- What is read before the renamed field is read again. -/
theorem Body.Stands.step {state following : body.State} {middle : List Lexeme}
    (stands : body.Stands state)
    (done : body.step state setting input = .done (.inl following) [] middle) :
    body.Stands following ∧ ∀ otherMiddle, Swaps field word middle otherMiddle →
      ∃ otherInput, Swaps field word input otherInput ∧
        body.step state setting otherInput = .done (.inl following) [] otherMiddle := by
  have carries : Carries .stay _ _ _ _ := body.carries_step state stands.kept
  rw [stands.same] at carries
  obtain ⟨kept, same, -⟩ := carries.stays done (.of_carried (Lexeme.carried_stay middle))
  refine ⟨⟨kept, Sum.inl.inj same⟩, fun otherMiddle swaps => ?_⟩
  obtain ⟨-, -, taken, rfl, again⟩ := carries.stays done swaps.alongside
  exact ⟨_, swaps.append taken, again⟩

/-- Before its first member, nothing of a block changes where everything stays. -/
theorem Block.stands_begin {begun : kind.Value}
    (header : kind.form.header setting input = .done begun [] left) :
    (Body.block kind).Stands (kind.form.begin begun) ∧
      ∀ otherLeft, Swaps field word left otherLeft →
        ∃ otherInput, Swaps field word input otherInput ∧
          kind.form.header setting otherInput = .done begun [] otherLeft := by
  have carries : CarriesBlock .stay kind.form _ _ _ _ _ := kind.carries
  obtain ⟨started, same, -⟩ :=
    Carries.stays carries.header header (.of_carried (Lexeme.carried_stay left))
  refine ⟨⟨carries.start begun started, ?_⟩, fun otherLeft swaps => ?_⟩
  · exact (carries.startImage begun).symm.trans (congrArg kind.form.begin same)
  · obtain ⟨-, -, taken, rfl, again⟩ := Carries.stays carries.header header swaps.alongside
    exact ⟨_, swaps.append taken, again⟩

/-- A block in which a field is renamed is read from tokens with another word. -/
theorem Block.parser_swaps {value renamed : kind.Value}
    (inside : (Body.block kind).Traces field word setting)
    (done : kind.parser setting input = .done value [] left)
    (renames : kind.Renames field word value renamed)
    (sound : kind.form.faults setting.edition value = [] →
      kind.form.faults setting.edition renamed = []) :
    ∃ otherInput, Swaps field word input otherInput ∧
      kind.parser setting otherInput = .done renamed [] left := by
  have noMethod : kind ≠ .method := by
    rintro rfl
    exact renames
  rw [kind.parser_eq noMethod] at done
  obtain ⟨begun, middle, header, done⟩ := bind_eq_done done
  obtain ⟨known, stop, bodyDone, rfl, none⟩ := rest_eq_done_iff.mp done
  obtain ⟨read, before, rfl⟩ := renames.of_close
  obtain ⟨stands, headerAgain⟩ := Block.stands_begin header
  obtain ⟨_, early, -⟩ | ⟨otherMiddle, swaps, again⟩ :=
    inside middle _ middle (known, stop) (read, stop) left stands bodyDone ⟨before, rfl⟩
  · exact absurd early (Block.not_renames_begin header)
  · obtain ⟨otherInput, otherSwaps, headerAgain⟩ := headerAgain otherMiddle swaps
    refine ⟨otherInput, otherSwaps, ?_⟩
    rw [kind.parser_of_header headerAgain, rest_eq_done_iff]
    refine ⟨read, stop, ?_, rfl, sound none⟩
    rw [← Parser.repeatFor_of_length swaps.length_eq] at again
    exact again

/-- A member in which a field is renamed is read from tokens with another word, unless the field
was there before. -/
theorem Body.traces_step {state following other : body.State}
    (inside : ∀ next kind, body.opened? state next = some kind → kind ≠ .method →
      (Body.block kind).Traces field word setting)
    (done : body.step state setting input = .done (.inl following) [] left)
    (renames : body.Renames field word following other) :
    (∃ known, body.Renames field word state known ∧
        body.step known setting input = .done (.inl other) [] left) ∨
      ∃ otherInput, Swaps field word input otherInput ∧
        body.step state setting otherInput = .done (.inl other) [] left := by
  obtain ⟨lexeme, rest, rfl, goesOn, read⟩ := exists_of_step done
  cases opens : body.opened? state lexeme.token with
  | none =>
    rw [Parser.member] at read
    split_ifs at read with isSemicolon
    · obtain ⟨_, _, empty, ended⟩ := bind_eq_done read
      obtain ⟨rfl, -, rfl⟩ := Outcome.done.inj ended
      refine .inl ⟨other, renames, step_of_member goesOn ?_⟩
      rw [Parser.member, if_pos isSemicolon]
      exact bind_of_done empty
    · cases found : body.member state lexeme.token with
      | none =>
        rw [found] at read
        cases read
      | some parser =>
        rw [found] at read
        obtain ⟨known, again, before, knownFound, otherDone⟩ | ⟨_, swaps, otherDone⟩ :=
          traces_member opens state parser found setting _ _ other left read renames
        · refine .inl ⟨known, before, step_of_member goesOn ?_⟩
          have sameMember : body.member known lexeme.token = some again := knownFound
          rw [Parser.member, if_neg isSemicolon, sameMember]
          exact otherDone
        · obtain ⟨otherRest, rfl⟩ := swaps.exists_cons
          refine .inr ⟨_, swaps, step_of_member goesOn ?_⟩
          rw [Parser.member, if_neg isSemicolon, found]
          exact otherDone
  | some kind =>
    rw [readMember_of_opened opens] at read
    obtain ⟨value, middle, parsed, ended⟩ := bind_eq_done read
    obtain ⟨rfl, -, rfl⟩ := Outcome.done.inj ended
    obtain ⟨known, before, rfl⟩ | ⟨renamed, inner, sound, rfl⟩ := renames.of_attach
    · refine .inl ⟨known, before, step_of_member goesOn ?_⟩
      rw [readMember_of_opened ((before.opened?_eq _).trans opens)]
      exact bind_of_done parsed
    · have noMethod : kind ≠ .method := by
        rintro rfl
        exact inner
      obtain ⟨_, swaps, otherParsed⟩ :=
        Block.parser_swaps (inside _ kind opens noMethod) parsed inner (sound setting.edition)
      obtain ⟨otherRest, rfl⟩ := swaps.exists_cons
      refine .inr ⟨_, swaps, step_of_member goesOn ?_⟩
      rw [readMember_of_opened opens]
      exact bind_of_done otherParsed

/-- Where no member is left to be read, the field was there before. -/
theorem Body.traces_last {state : body.State} {last result other : body.Result}
    {budget middle : List Lexeme}
    (first : body.step state setting input = .done (.inr last) [] middle)
    (done : repeatFor body.step budget state setting input = .done result [] left)
    (renames : body.RenamesResult field word result other) :
    ∃ known, body.Renames field word state known ∧
      repeatFor body.step budget known setting input = .done other [] left := by
  obtain ⟨rfl, -, rfl⟩ := Outcome.done.inj ((repeatFor_of_last first).symm.trans done)
  cases input with
  | nil =>
    cases body with
    | file =>
      obtain ⟨same, -, rfl⟩ := Outcome.done.inj first
      obtain rfl := Sum.inr.inj same
      exact ⟨other, renames, repeatFor_of_last rfl⟩
    | block kind => cases first
  | cons lexeme rest =>
    by_cases isBrace : lexeme.token = .symbol .rightBrace
    · cases body with
      | file =>
        rw [step, topLevelStep, look_bind, List.head?_cons, Option.map_some, isBrace] at first
        cases first
      | block kind =>
        rw [step_brace isBrace] at first
        obtain ⟨same, -, rfl⟩ := Outcome.done.inj first
        obtain rfl := Sum.inr.inj same
        obtain ⟨read, stop⟩ := other
        obtain ⟨before, rfl⟩ : _ ∧ stop = lexeme.span := renames
        exact ⟨read, before, repeatFor_of_last (step_brace isBrace)⟩
    · rw [step_eq isBrace, map_eq_pure_bind] at first
      obtain ⟨_, _, -, answered⟩ := bind_eq_done first
      cases answered

/-- Fields are renamed where they are read. The induction is on how deep the members nest, and at
each depth on the members that are left. -/
theorem Body.traces (body : Body) : body.Traces field word setting := by
  induction nesting : body.height using Nat.strong_induction_on generalizing body with
  | _ height inductionHypothesis =>
    subst nesting
    intro budget
    induction budget with
    | nil =>
      intro state input result other left stands done renames
      obtain ⟨found, middle, first⟩ := Parser.exists_of_repeatFor done
      cases found with
      | inl following =>
        obtain ⟨_, _, split, -⟩ := repeatFor_of_next done first
        cases split
      | inr last => exact .inl (traces_last first done renames)
    | cons lexeme budget goOn =>
      intro state input result other left stands done renames
      obtain ⟨found, middle, first⟩ := Parser.exists_of_repeatFor done
      cases found with
      | inl following =>
        obtain ⟨_, _, split, onward⟩ := repeatFor_of_next done first
        obtain ⟨rfl, rfl⟩ := List.cons.inj split
        obtain ⟨standsStill, again⟩ := stands.step first
        obtain ⟨known, before, otherDone⟩ | ⟨otherMiddle, swaps, otherDone⟩ :=
          goOn following middle result other left standsStill onward renames
        · have inside (next : Token) (kind : Block) (opens : body.opened? state next = some kind)
              (noMethod : kind ≠ .method) : (Body.block kind).Traces field word setting :=
            inductionHypothesis _ (height_lt_of_opened opens noMethod) (.block kind) rfl
          obtain ⟨early, renames, otherFirst⟩ | ⟨otherInput, swaps, otherFirst⟩ :=
            traces_step inside first before
          · exact .inl ⟨early, renames, (repeatFor_cons_of_next otherFirst lexeme).trans otherDone⟩
          · exact .inr ⟨otherInput, swaps,
              (repeatFor_cons_of_next otherFirst lexeme).trans otherDone⟩
        · obtain ⟨otherInput, swaps, otherFirst⟩ := again otherMiddle swaps
          exact .inr ⟨otherInput, swaps,
            (repeatFor_cons_of_next otherFirst lexeme).trans otherDone⟩
      | inr last => exact .inl (traces_last first done renames)

/-- A file in which a field is renamed is read from tokens with another word. -/
theorem Parser.file_swaps {parsed renamed : File}
    (done : file setting input = .done parsed [] left)
    (renames : parsed.Renames field word renamed) :
    ∃ otherInput, Swaps field word input otherInput ∧
      file setting otherInput = .done renamed [] left := by
  obtain ⟨declared, members, edition, loop, none⟩ := file_eq_done_iff.mp done
  obtain ⟨known, early, -⟩ | ⟨otherMembers, swaps, again⟩ :=
    Body.file.traces members _ members parsed renamed left ⟨trivial, rfl⟩ loop renames
  · cases early
    all_goals
      next replaces => exact absurd replaces.mem List.not_mem_nil
  · obtain ⟨-, -, taken, rfl, otherEdition⟩ :=
      Carries.stays carries_declaredEdition edition swaps.alongside
    refine ⟨_, swaps.append taken, file_eq_done_iff.mpr
      ⟨declared, otherMembers, otherEdition, ?_, renames.faults_eq.trans none⟩⟩
    rw [← Parser.repeatFor_of_length swaps.length_eq] at again
    exact again

end Traces

/-! ### Pieces -/

/-- Another word in the place of a word is another token, with the same around it. -/
theorem TokenStream.exists_of_word {comments : Tracker} {follows : Bool} {pieces : List Piece}
    {taken rest : List Lexeme} {lexeme : Lexeme} {text : String}
    (split : (build comments follows pieces).lexemes = taken ++ lexeme :: rest)
    (isWord : lexeme.token = .word text) :
    ∃ front back, pieces = front ++ ⟨.token (.word text), lexeme.span⟩ :: back ∧
      ∀ word, build comments follows (front ++ ⟨.token (.word word), lexeme.span⟩ :: back) =
        ⟨taken ++ { lexeme with token := .word word } :: rest,
          (build comments follows pieces).atEnd⟩ := by
  obtain ⟨token, span, before, isBehind⟩ := lexeme
  obtain rfl : token = .word text := isWord
  fun_induction build comments follows pieces generalizing taken with
  | case1 => cases taken <;> cases split
  | case2 comments follows trivia place pieces inductionHypothesis =>
    obtain ⟨front, back, rfl, same⟩ := inductionHypothesis split
    exact ⟨⟨.trivia trivia, place⟩ :: front, back, rfl, same⟩
  | case3 comments follows token place pieces inductionHypothesis =>
    cases taken with
    | nil =>
      obtain ⟨isFirst, rfl⟩ := List.cons.inj split
      obtain ⟨rfl, rfl, rfl, rfl⟩ := Lexeme.mk.inj isFirst
      exact ⟨[], pieces, rfl, fun _ => rfl⟩
    | cons first taken =>
      obtain ⟨rfl, later⟩ := List.cons.inj split
      obtain ⟨front, back, rfl, same⟩ := inductionHypothesis later
      refine ⟨⟨.token token, place⟩ :: front, back, rfl, fun word => ?_⟩
      rw [List.cons_append, build, same]
      rfl

end ProtoSchema
