/-
This file follows the fault of an empty oneof back to the point where the oneof
starts. Most parsers never say that a oneof is empty, wherever they stand in a
source. A file or a message says so only where it reads a oneof, or a message that
does; so the fault is followed into the members, down to where nothing nests.
-/

import ProtoSchema.Proofs.Layout.Files
import ProtoSchema.Proofs.Nesting.Oneofs
import ProtoSchema.Proofs.Validation.Kinds

namespace ProtoSchema

open ProtoSchema.Parser

variable {Value Result State : Type}

/-! ### Parsers that say of no oneof that it is empty -/

/-- What is left is the end of the input, and all faults are accounted for. -/
def Outcome.Accounts (input : List Lexeme) (accounted : SemanticFault → Prop) :
    Outcome Value → Prop
  | .done _ faults left => left <:+ input ∧ ∀ fault ∈ faults, accounted fault
  | .stopped faults _ => ∀ fault ∈ faults, accounted fault

namespace Outcome.Accounts

variable {accounted weaker : SemanticFault → Prop} {setting : Setting} {input left : List Lexeme}
variable {parser : Parser Value} {onward : Value → Parser Result}

/-- Faults may be accounted for by less. -/
theorem mono {outcome : Outcome Value} (accounts : outcome.Accounts input accounted)
    (implies : ∀ fault, accounted fault → weaker fault) : outcome.Accounts input weaker := by
  cases outcome with
  | done value faults left =>
    exact ⟨accounts.1, fun fault member => implies fault (accounts.2 fault member)⟩
  | stopped faults fault => exact fun fault member => implies fault (accounts fault member)

/-- All faults that come with an outcome are accounted for, whether it is done or not. -/
theorem broken {outcome : Outcome Value} (accounts : outcome.Accounts input accounted) :
    ∀ fault ∈ outcome.broken, accounted fault := by
  cases outcome with
  | done value faults left => exact accounts.2
  | stopped faults fault => exact accounts

/-- In sequence the second parser accounts for its faults from what the first one left. -/
theorem bind (first : (parser setting input).Accounts input accounted)
    (second : ∀ value faults left, parser setting input = .done value faults left →
      left <:+ input → (onward value setting left).Accounts left accounted) :
    ((parser >>= onward) setting input).Accounts input accounted := by
  rw [bind_eq]
  cases found : parser setting input with
  | stopped faults fault =>
    rw [found] at first
    exact first
  | done value faults left =>
    rw [found] at first
    obtain ⟨behind, earlier⟩ := first
    have later := second value faults left found behind
    dsimp only
    cases again : onward value setting left with
    | stopped others fault =>
      rw [again] at later
      exact List.forall_mem_append.mpr ⟨earlier, later⟩
    | done result others rest =>
      rw [again] at later
      exact ⟨later.1.trans behind, List.forall_mem_append.mpr ⟨earlier, later.2⟩⟩

end Outcome.Accounts

/-- A fault that is not about an empty oneof. -/
def SemanticFault.Other (fault : SemanticFault) : Prop := fault.cause ≠ .emptyOneof

/-- Wherever it stands in a source, the parser says of no oneof that it is empty. -/
def Parser.Mute (source : List Char) (stream : List Lexeme) (parser : Parser Value) : Prop :=
  ∀ setting input, Scene source stream input setting →
    (parser setting input).Accounts input SemanticFault.Other

namespace Parser

variable {source : List Char} {stream : List Lexeme} {parser : Parser Value}

namespace Mute

variable {onward : Value → Parser Result}

/-- Two parsers in sequence say nothing of empty oneofs if neither does. -/
theorem bind (first : Mute source stream parser)
    (second : ∀ value, Mute source stream (onward value)) :
    Mute source stream (parser >>= onward) :=
  fun setting input scene => (first setting input scene).bind fun value _ left _ behind =>
    second value setting left (scene.onward behind)

/-- A parser that finds no fault says nothing of oneofs either. -/
theorem of_places {goal : List Lexeme → Value → Nat → Prop}
    (places : ∀ input, Places source stream input parser (goal input)) :
    Mute source stream parser := by
  intro setting input scene
  have placed := places input setting scene
  cases found : parser setting input with
  | stopped faults fault =>
    rw [found] at placed
    obtain rfl : faults = [] := placed
    exact List.forall_mem_nil _
  | done value faults left =>
    rw [found] at placed
    obtain ⟨rfl, behind, -⟩ := placed
    exact ⟨behind, List.forall_mem_nil _⟩

/-- What finds no fault says nothing of empty oneofs, here and in what follows. -/
theorem pure (value : Value) : Mute source stream (pure value) :=
  fun _ _ _ => ⟨List.suffix_refl _, List.forall_mem_nil _⟩

theorem look : Mute source stream look :=
  fun _ _ _ => ⟨List.suffix_refl _, List.forall_mem_nil _⟩

theorem ahead (count : Nat) : Mute source stream (ahead count) :=
  fun _ _ _ => ⟨List.suffix_refl _, List.forall_mem_nil _⟩

theorem edition : Mute source stream edition :=
  fun _ _ _ => ⟨List.suffix_refl _, List.forall_mem_nil _⟩

theorem here : Mute source stream here := fun _ input _ => by
  cases input <;> exact ⟨List.suffix_refl _, List.forall_mem_nil _⟩

theorem leadingComments : Mute source stream leadingComments := fun _ input _ => by
  cases input <;> exact ⟨List.suffix_refl _, List.forall_mem_nil _⟩

theorem advance : Mute source stream advance :=
  of_places fun _ => Places.advance_any

theorem expect {token : Token} : Mute source stream (expect token) :=
  of_places fun _ => Places.expect_last

theorem stop {cause : GrammarCause} {span : Span} : Mute source stream (stop cause span : Parser Value) :=
  fun _ _ _ => List.forall_mem_nil _

theorem unexpected {expected : String} : Mute source stream (unexpected expected : Parser Value) :=
  fun _ input _ => by cases input <;> exact List.forall_mem_nil _

/-- Faults of another kind may be reported. -/
theorem report {faults : List SemanticFault} (others : ∀ fault ∈ faults, fault.Other) :
    Mute source stream (report faults) :=
  fun _ _ _ => ⟨List.suffix_refl _, others⟩

/-- A loop says nothing of empty oneofs if no step does. -/
theorem repeating {step : State → Parser (State ⊕ Result)}
    (each : ∀ state, Mute source stream (step state)) (state : State) :
    Mute source stream (repeating step state) := by
  suffices loop : ∀ (budget : List Lexeme) state, Mute source stream (repeatFor step budget state)
    from fun setting input => loop input state setting input
  intro budget
  induction budget with
  | nil =>
    refine fun state => (each state).bind fun found => ?_
    cases found with
    | inl following => exact here.bind fun _ => stop
    | inr result => exact pure result
  | cons lexeme budget inductionHypothesis =>
    refine fun state => (each state).bind fun found => ?_
    cases found with
    | inl following => exact inductionHypothesis following
    | inr result => exact pure result

/-- A member says nothing of empty oneofs if no parser that may read it does. -/
theorem member {onward : Member State} {expected : String} {state : State} {next : Token}
    (each : ∀ parser, onward state next = some parser → Mute source stream parser) :
    Mute source stream (Parser.member onward expected state next) := by
  unfold Parser.member
  split
  · exact (of_places fun _ => places_emptyStatement).bind fun _ => pure _
  · split
    · next parser found => exact each parser found
    · exact unexpected

/-- An option statement among members says nothing of oneofs. -/
theorem option {add : OptionStatement → Value} :
    Mute source stream (do return add (← optionStatement)) :=
  (of_places fun _ => places_optionStatement).bind fun _ => pure _

end Mute

/-! ### Fields -/

theorem mute_fieldLabel (context : FieldContext) : Mute source stream (fieldLabel context) := by
  refine Mute.look.bind fun next => ?_
  split
  · exact Mute.advance.bind fun _ => Mute.pure _
  · exact Mute.advance.bind fun _ => Mute.pure _
  · refine Mute.advance.bind fun span => Mute.edition.bind fun declared =>
      (Mute.report ?_).bind fun _ => Mute.pure _
    unfold requiredFaults
    split_ifs <;> simp [SemanticFault.Other]
  · exact Mute.pure _

/-- A map with the wrong keys is told by another fault. -/
theorem mute_mapType : Mute source stream mapType := by
  refine Mute.expect.bind fun start => Mute.expect.bind fun _ => ?_
  refine (Mute.of_places fun _ => places_typeName).bind fun key => Mute.expect.bind fun _ => ?_
  refine (Mute.of_places fun _ => places_valueType).bind fun value => Mute.expect.bind fun stop => ?_
  split
  · exact Mute.pure _
  · exact (Mute.report (by simp [SemanticFault.Other])).bind fun _ => Mute.pure _

theorem mute_fieldType : Mute source stream fieldType := by
  refine (Mute.ahead 2).bind fun tokens => ?_
  split
  · exact mute_mapType
  · exact (Mute.of_places fun _ => places_valueType).bind fun _ => Mute.pure _

theorem mute_fieldNumber : Mute source stream fieldNumber := by
  refine (Mute.of_places fun _ => places_signedInt).bind fun literal => (Mute.report ?_).bind fun _ =>
    Mute.pure _
  unfold fieldNumberFaults
  split
  · simp [SemanticFault.Other]
  · split_ifs <;> simp [SemanticFault.Other]

/-- A field that is dropped is not yet a oneof that is empty. -/
theorem mute_field (context : FieldContext) : Mute source stream (field context) := by
  refine Mute.leadingComments.bind fun comments => Mute.here.bind fun start => ?_
  refine (mute_fieldLabel context).bind fun label => (Mute.ahead 5).bind fun tokens => ?_
  split
  · exact Mute.here.bind fun _ => Mute.stop
  · refine mute_fieldType.bind fun type => (Mute.of_places fun _ => places_name).bind fun name => ?_
    refine Mute.expect.bind fun _ => mute_fieldNumber.bind fun number => ?_
    refine (Mute.of_places fun _ => places_optionalSettings).bind fun options => ?_
    refine Mute.edition.bind fun declared => (Mute.report ?_).bind fun _ => ?_
    · unfold defaultFaults
      split_ifs
      · exact List.forall_mem_map.mpr fun _ _ => SemanticCause.noConfusion
      · exact List.forall_mem_nil _
    · exact (Mute.of_places fun _ => places_terminator).bind fun _ => Mute.pure _

/-! ### Other declarations -/

theorem mute_reservedName : Mute source stream reservedName := by
  refine (Mute.of_places fun _ => places_text).bind fun name => (Mute.report ?_).bind fun _ =>
    Mute.pure _
  split_ifs <;> simp [SemanticFault.Other]

theorem mute_reserved {kind : RangeKind} : Mute source stream (reserved kind) := by
  refine Mute.leadingComments.bind fun comments => Mute.expect.bind fun start => ?_
  have items : Mute source stream (reservedItems kind) := by
    refine Mute.look.bind fun next => ?_
    split
    · exact (Mute.of_places fun _ => places_ranges).bind fun _ => Mute.pure _
    · exact (Mute.of_places fun _ => places_ranges).bind fun _ => Mute.pure _
    · refine Mute.bind ?_ fun _ => Mute.pure _
      refine mute_reservedName.bind fun first => Mute.repeating (fun names => ?_) [first]
      refine Mute.look.bind fun next => ?_
      split
      · exact Mute.advance.bind fun _ => mute_reservedName.bind fun _ => Mute.pure _
      · split
        · exact Mute.pure _
        · exact Mute.unexpected
      · exact Mute.unexpected
    · exact Mute.unexpected
  exact items.bind fun _ => (Mute.of_places fun _ => places_terminator).bind fun _ => Mute.pure _

theorem mute_enumValue : Mute source stream enumValue := by
  refine Mute.leadingComments.bind fun comments => ?_
  refine (Mute.of_places fun _ => places_name).bind fun name => Mute.expect.bind fun _ => ?_
  refine (Mute.of_places fun _ => places_signedInt).bind fun number => (Mute.report ?_).bind fun _ => ?_
  · unfold enumNumberFaults
    split_ifs <;> simp [SemanticFault.Other]
  · refine (Mute.of_places fun _ => places_optionalSettings).bind fun options => ?_
    exact (Mute.of_places fun _ => places_terminator).bind fun _ => Mute.pure _

theorem mute_method : Mute source stream method := by
  refine Mute.leadingComments.bind fun comments => Mute.expect.bind fun start => ?_
  refine (Mute.of_places fun _ => places_name).bind fun name => ?_
  refine (Mute.of_places fun _ => places_methodType).bind fun input => Mute.expect.bind fun _ => ?_
  refine (Mute.of_places fun _ => places_methodType).bind fun output => ?_
  refine Mute.bind ?_ fun _ => Mute.pure _
  refine Mute.look.bind fun next => ?_
  split
  · exact (Mute.of_places fun _ => places_terminator).bind fun _ => Mute.pure _
  · refine (Mute.of_places fun _ => places_openBrace).bind fun trailing => ?_
    refine Mute.bind (Mute.repeating (fun options => ?_) []) fun _ => Mute.pure _
    refine Mute.look.bind fun next => ?_
    split
    · exact Mute.advance.bind fun _ => Mute.pure _
    · refine Mute.bind (Mute.member fun parser found => ?_) fun _ => Mute.pure _
      split_ifs at found
      obtain rfl := Option.some.inj found
      exact Mute.option
    · exact Mute.unexpected
  · exact Mute.unexpected

theorem mute_declaredEdition : Mute source stream declaredEdition := by
  refine Mute.look.bind fun next => ?_
  split
  · refine Mute.bind ?_ fun _ => Mute.pure _
    refine Mute.expect.bind fun _ => Mute.expect.bind fun _ => ?_
    refine (Mute.of_places fun _ => places_text).bind fun name => (Mute.report ?_).bind fun _ => ?_
    · split_ifs <;> simp [SemanticFault.Other]
    · exact (Mute.of_places fun _ => places_terminator).bind fun _ => Mute.pure _
  · exact Mute.pure _

/-- A second package is told by another fault. -/
theorem mute_package (file : File) :
    Mute source stream (package >>= fun package => addPackage file package) := by
  refine (Mute.of_places fun _ => places_package).bind fun package => ?_
  unfold addPackage
  split
  · exact (Mute.report (by simp [SemanticFault.Other])).bind fun _ => Mute.pure _
  · exact Mute.pure _

end Parser

/-! ### Checks -/

/-- Where the fault of an empty oneof is not among the kinds, all faults are others. -/
theorem OfKinds.other {kinds : List SemanticCause} {faults : List SemanticFault}
    (ofKinds : OfKinds kinds faults) (absent : .emptyOneof ∉ kinds) :
    ∀ fault ∈ faults, fault.Other := by
  intro fault member empty
  have kind := ofKinds fault member
  rw [empty] at kind
  exact absent kind

theorem other_reservationFaults {reserved : List Reserved} {kind : RangeKind}
    {number : IntLiteral} {name : Name} :
    ∀ fault ∈ reservationFaults reserved kind number name, fault.Other :=
  (ofKinds_reservationFaults _ _ _ _).other (by decide)

/-- Oneofs were checked when their bodies were closed, not with their message. -/
theorem Message.other_faults (message : Message) : ∀ fault ∈ message.faults, fault.Other := by
  obtain ⟨others, eq, ofKinds⟩ := message.exists_faults_eq
  rw [eq]
  exact List.forall_mem_append.mpr ⟨ofKinds.other (by decide),
    List.forall_mem_flatMap.mpr fun _ _ => other_reservationFaults⟩

theorem Enumeration.other_faults (enumeration : Enumeration) :
    ∀ fault ∈ enumeration.faults, fault.Other := by
  obtain ⟨others, eq, ofKinds⟩ := enumeration.exists_faults_eq
  rw [eq]
  exact List.forall_mem_append.mpr ⟨ofKinds.other (by decide),
    List.forall_mem_flatMap.mpr fun _ _ => other_reservationFaults⟩

/-! ### Members and blocks -/

section Members

variable {source : List Char} {stream : List Lexeme}

/-- A field among members says nothing of oneofs. -/
theorem Parser.Mute.field {context : FieldContext} {add : Option Field → State} :
    Mute source stream (do return add (← Parser.field context)) :=
  (mute_field context).bind fun _ => Mute.pure _

namespace Body

/-- A member of a file that opens no block says nothing of empty oneofs. -/
theorem mute_fileMember {state : File} {next : Token} {parser : Parser File}
    (opens : opened? .file state next = none) (found : member .file state next = some parser) :
    Mute source stream parser := by
  cases next with
  | word text =>
    dsimp only [opened?] at opens
    dsimp only [member, fileMember] at found
    split_ifs at opens found
    all_goals obtain rfl := Option.some.inj found
    · exact (Mute.of_places fun _ => places_import).bind fun _ => Mute.pure _
    · exact mute_package state
    · exact Mute.option
  | int | float | string | symbol => cases found

/-- A member of a message that opens no block says nothing of empty oneofs. -/
theorem mute_messageMember {depth : Nat} {path : MessagePath} {state : Message} {next : Token}
    {parser : Parser Message} (opens : opened? (.block (.message depth path)) state next = none)
    (found : member (.block (.message depth path)) state next = some parser) :
    Mute source stream parser := by
  dsimp only [member, Block.form, BlockForm.message] at found
  unfold messageMember at found
  split at found
  · next text =>
    dsimp only [opened?] at opens
    split_ifs at opens found with isMessage
    all_goals obtain rfl := Option.some.inj found
    · cases depth with
      | zero => exact (Mute.expect.bind fun _ => Mute.stop).bind fun _ => Mute.pure _
      | succ depth => cases opens
    · exact mute_reserved.bind fun _ => Mute.pure _
    · exact (Mute.of_places fun _ => places_extensionRanges).bind fun _ => Mute.pure _
    · exact Mute.option
    · exact Mute.field
  · obtain rfl := Option.some.inj found
    exact Mute.field
  · cases found

theorem mute_serviceMember {state : Service} {next : Token} {parser : Parser Service}
    (opens : opened? (.block .service) state next = none)
    (found : member (.block .service) state next = some parser) : Mute source stream parser := by
  dsimp only [member, Block.form, BlockForm.service] at found
  unfold serviceMember at found
  split_ifs at found with isMethod
  all_goals obtain rfl := Option.some.inj found
  · subst isMethod
    cases opens
  · exact Mute.option

/-- Only a block that is read among the members can be said to hold an empty oneof. -/
theorem mute_of_opened?_eq_none {body : Body} {state : body.State} {next : Token}
    (opens : body.opened? state next = none) :
    Mute source stream (Parser.member body.member body.expected state next) := by
  refine Mute.member fun parser found => ?_
  cases body with
  | file => exact mute_fileMember opens found
  | block kind =>
    cases kind with
    | message depth path => exact mute_messageMember opens found
    | service => exact mute_serviceMember opens found
    | enumeration =>
      dsimp only [member, Block.form, BlockForm.enumeration] at found
      unfold enumMember at found
      split at found
      · split_ifs at found
        all_goals obtain rfl := Option.some.inj found
        · exact Mute.option
        · exact mute_reserved.bind fun _ => Mute.pure _
        · exact mute_enumValue.bind fun _ => Mute.pure _
      · cases found
    | oneof | extension =>
      dsimp only [member, Block.form, BlockForm.oneof, BlockForm.extension, oneofMember,
        extensionMember] at found
      split_ifs at found
      all_goals obtain rfl := Option.some.inj found
      · exact Mute.option
      · exact Mute.field
    | method =>
      dsimp only [member, Block.form, BlockForm.method] at found
      split_ifs at found
      obtain rfl := Option.some.inj found
      exact Mute.option

end Body

/-- The header of a block says nothing of empty oneofs. -/
theorem Block.mute_header (kind : Block) : Mute source stream kind.form.header := by
  cases kind with
  | extension parent =>
    refine Mute.leadingComments.bind fun comments => Mute.expect.bind fun start => ?_
    refine (Mute.of_places fun _ => places_typeName).bind fun extendee => ?_
    exact (Mute.of_places fun _ => places_openBrace).bind fun trailing => Mute.pure _
  | method =>
    refine Mute.leadingComments.bind fun comments => Mute.expect.bind fun start => ?_
    refine (Mute.of_places fun _ => places_name).bind fun name => ?_
    refine (Mute.of_places fun _ => places_methodType).bind fun input => Mute.expect.bind fun _ => ?_
    refine (Mute.of_places fun _ => places_methodType).bind fun output => ?_
    exact (Mute.of_places fun _ => places_openBrace).bind fun trailing => Mute.pure _
  | message | enumeration | oneof | service =>
    refine Mute.leadingComments.bind fun comments => Mute.expect.bind fun start => ?_
    refine (Mute.of_places fun _ => places_name).bind fun name => ?_
    exact (Mute.of_places fun _ => places_openBrace).bind fun trailing => Mute.pure _

/-- Of the blocks, only a oneof is said to be empty. -/
theorem Block.other_faults {kind : Block} (noOneof : ∀ index, kind ≠ .oneof index)
    (edition : Option Edition) (value : kind.Value) :
    ∀ fault ∈ kind.form.faults edition value, fault.Other := by
  cases kind with
  | message => exact value.other_faults
  | enumeration => exact value.other_faults
  | oneof index => exact absurd rfl (noOneof index)
  | extension => exact (value.ofKinds_faults edition).other (by decide)
  | service => exact value.ofKinds_faults.other (by decide)
  | method => exact List.forall_mem_nil _

end Members

/-! ### From the file to a oneof -/

/-- A fault that calls a oneof empty only if it is left empty. -/
def SemanticFault.Justified (setting : Setting) (start : Point) (fault : SemanticFault) : Prop :=
  fault.cause = .emptyOneof → LeavesEmpty setting start fault.span

section Justified

variable {setting : Setting} {start following : Point} {fault : SemanticFault}

/-- Faults of other kinds need no justification here. -/
theorem SemanticFault.Other.justified (other : fault.Other) : fault.Justified setting start :=
  fun empty => absurd empty other

/-- What is read behind a point is read behind those before it. -/
theorem LeavesEmpty.before {span : Span} (leaves : LeavesEmpty setting following span)
    (leads : Point.Leads setting start following) : LeavesEmpty setting start span := by
  obtain ⟨index, begun, members, oneof, read, found⟩ := leaves
  obtain ⟨body, state, lexeme, rest, faults, reaches, opened⟩ := read.header
  exact ⟨index, begun, members, oneof,
    ⟨⟨body, state, lexeme, rest, faults, .head leads reaches, opened⟩, read.body⟩, found⟩

/-- What is justified by a point is justified by every point that leads to it. -/
theorem SemanticFault.Justified.before (justified : fault.Justified setting following)
    (leads : Point.Leads setting start following) : fault.Justified setting start :=
  fun empty => (justified empty).before leads

end Justified

section Blame

variable {source : List Char} {stream input : List Lexeme} {setting : Setting}

/-- A oneof among the members of a body is said to be empty only if one is left empty. -/
def Body.Blames (source : List Char) (stream : List Lexeme) (setting : Setting) (body : Body) : Prop :=
  ∀ budget state input, Scene source stream input setting →
    (repeatFor body.step budget state setting input).Accounts input
      (SemanticFault.Justified setting (.member body state input))

/-- A block that is read as a member is said to hold an empty oneof only if one is left empty. -/
theorem Body.accounts_block {body : Body} {state : body.State} {lexeme : Lexeme}
    {rest : List Lexeme} {kind : Block} (scene : Scene source stream (lexeme :: rest) setting)
    (opens : body.opened? state lexeme.token = some kind) (noMethod : kind ≠ .method)
    (inside : (Body.block kind).Blames source stream setting) :
    (kind.parser setting (lexeme :: rest)).Accounts (lexeme :: rest)
      (SemanticFault.Justified setting (.member body state (lexeme :: rest))) := by
  rw [kind.parser_eq noMethod]
  refine Outcome.Accounts.bind ((kind.mute_header setting _ scene).mono
    fun _ other => other.justified) ?_
  intro begun faults members header behind
  refine Outcome.Accounts.bind ((inside _ _ _ (scene.onward behind)).mono fun _ justified =>
    justified.before (.enter opens header)) ?_
  rintro ⟨read, stop⟩ _ left closed behindBody
  refine Outcome.Accounts.bind ⟨List.suffix_refl _, List.forall_mem_nil _⟩ ?_
  rintro _ _ _ asked -
  obtain ⟨rfl, -, rfl⟩ := Outcome.done.inj asked
  refine Outcome.Accounts.bind ⟨List.suffix_refl _, fun fault found => ?_⟩ fun _ _ _ _ _ =>
    ⟨List.suffix_refl _, List.forall_mem_nil _⟩
  by_cases isOneof : ∃ index, kind = .oneof index
  · obtain ⟨index, rfl⟩ := isOneof
    intro empty
    refine leavesEmpty_iff.mpr ⟨index, begun, members, read,
      ⟨⟨body, state, lexeme, rest, _, .refl, opens, header⟩, ⟨stop, _, _, closed⟩⟩, ?_⟩
    have same : fault = ⟨.emptyOneof, fault.span⟩ := by rw [← empty]
    exact same ▸ found
  · exact (Block.other_faults (fun index same => isOneof ⟨index, same⟩) _ _ fault found).justified

/-- What is said of a step through the members is what is said of the member, if there is one. -/
theorem Body.accounts_step {body : Body} {state : body.State} {accounted : SemanticFault → Prop}
    (member : ∀ lexeme rest, input = lexeme :: rest →
      (Parser.member body.member body.expected state lexeme.token setting input).Accounts input
        accounted) :
    (body.step state setting input).Accounts input accounted := by
  cases input with
  | nil =>
    cases body with
    | file => exact ⟨List.suffix_refl _, List.forall_mem_nil _⟩
    | block kind => exact List.forall_mem_nil _
  | cons lexeme rest =>
    by_cases isBrace : lexeme.token = .symbol .rightBrace
    · cases body with
      | file =>
        rw [step, topLevelStep, look_bind, List.head?_cons, Option.map_some, isBrace]
        exact List.forall_mem_nil _
      | block kind =>
        rw [step_brace isBrace]
        exact ⟨List.suffix_cons lexeme rest, List.forall_mem_nil _⟩
    · rw [step_eq isBrace, map_eq_pure_bind]
      exact (member lexeme rest rfl).bind fun _ _ _ _ _ =>
        ⟨List.suffix_refl _, List.forall_mem_nil _⟩

/-- Oneofs are said to be empty only where they are left empty. The induction is on how deep the
members nest, and at each depth on the members that are left. -/
theorem Body.blames (body : Body) (noMethod : body ≠ .block .method) :
    body.Blames source stream setting := by
  induction nesting : body.height using Nat.strong_induction_on generalizing body with
  | _ height inductionHypothesis =>
    subst nesting
    have each : ∀ state input, Scene source stream input setting →
        (body.step state setting input).Accounts input
          (SemanticFault.Justified setting (.member body state input)) := by
      rintro state input scene
      refine accounts_step fun lexeme rest split => ?_
      subst split
      cases opens : body.opened? state lexeme.token with
      | none =>
        exact (mute_of_opened?_eq_none opens setting _ scene).mono fun _ other => other.justified
      | some kind =>
        rw [readMember_of_opened opens]
        refine Outcome.Accounts.bind ?_ fun _ _ _ _ _ =>
          ⟨List.suffix_refl _, List.forall_mem_nil _⟩
        by_cases isMethod : kind = .method
        · subst isMethod
          exact (mute_method setting _ scene).mono fun _ other => other.justified
        · exact accounts_block scene opens isMethod (inductionHypothesis _
            (height_lt_of_opened opens isMethod) (.block kind)
            (fun same => isMethod (Body.block.inj same)) rfl)
    intro budget
    induction budget with
    | nil =>
      intro state input scene
      refine (each state input scene).bind fun found faults left _ _ => ?_
      cases found with
      | inl following => cases left <;> exact List.forall_mem_nil _
      | inr result => exact ⟨List.suffix_refl _, List.forall_mem_nil _⟩
    | cons other budget goOn =>
      intro state input scene
      refine (each state input scene).bind fun found faults left done behind => ?_
      cases found with
      | inl following =>
        obtain ⟨lexeme, rest, rfl, goesOn, read⟩ := exists_of_step done
        exact (goOn following left (scene.onward behind)).mono fun _ justified =>
          justified.before (.member goesOn read)
      | inr result => exact ⟨List.suffix_refl _, List.forall_mem_nil _⟩

/-- Of a source, it is told which oneofs are left empty. -/
theorem Parser.emptyOneof_mem_file {span : Span} (scene : Scene source stream input setting)
    (moves : ∀ fault ∈ (file setting input).last?, fault.cause ≠ .stalled) :
    ⟨.emptyOneof, span⟩ ∈ (file setting input).broken ↔
      ∃ declared faults members, declaredEdition setting input = .done declared faults members ∧
        LeavesEmpty { setting with edition := declared }
          (.member .file { File.empty with declaredEdition := declared } members) span := by
  constructor
  · intro found
    have accounts : (file setting input).Accounts input fun fault => fault.cause = .emptyOneof →
        ∃ declared faults members, declaredEdition setting input = .done declared faults members ∧
          LeavesEmpty { setting with edition := declared }
            (.member .file { File.empty with declaredEdition := declared } members) fault.span := by
      refine Outcome.Accounts.bind ((mute_declaredEdition setting input scene).mono
        fun _ other empty => absurd empty other) fun declared faults members edition behind => ?_
      have inside : (declarations declared { setting with edition := declared } members).Accounts
          members (SemanticFault.Justified { setting with edition := declared }
            (.member .file { File.empty with declaredEdition := declared } members)) := by
        refine Outcome.Accounts.bind (Body.blames .file Body.noConfusion members _ members
          { scene.onward behind with length := scene.length }) fun file _ _ _ _ => ?_
        exact Outcome.Accounts.bind ⟨List.suffix_refl _, fun fault member =>
          (file.ofKinds_faults.other (by decide) fault member).justified⟩ fun _ _ _ _ _ =>
            ⟨List.suffix_refl _, List.forall_mem_nil _⟩
      exact inside.mono fun fault justified empty =>
        ⟨declared, faults, members, edition, justified empty⟩
    exact accounts.broken _ found rfl
  · rintro ⟨declared, faults, members, edition, leaves⟩
    have part : Point.PartOf { setting with edition := declared } (file setting input)
        (.member .file { File.empty with declaredEdition := declared } members) := fun _ =>
      ⟨members, (Outcome.Contains.second edition).trans (.first _ _ _ _)⟩
    exact part.emptyOneof_mem moves leaves

end Blame

end ProtoSchema
