/-
This file follows the brackets through phrases and options. Phrases take no brackets
that are counted. A message in text format opens an option value at its bracket and
closes it at its end, and those nested in it are within it, wherever they stand among
its entries and lists; what others may nest to is what is left up to the limit.
-/

import ProtoSchema.Grammar.Options
import ProtoSchema.Proofs.Nesting.Rules

namespace ProtoSchema

namespace Parser

variable {Value State : Type} {known : List (Option Nesting) → Prop}
variable {nest : Nest} {input : List Lexeme}

/-! ### Phrases -/

/-- Names, numbers and strings have no brackets, whatever is open. -/
theorem keeps_name : Keeps known name := by
  refine fun head => KeepsAt.look ?_
  split
  · exact KeepsAt.advance (fun _ _ => rfl) fun _ _ => KeepsAt.pure
  · exact KeepsAt.unexpected

theorem keeps_dottedName : Keeps known dottedName := by
  refine fun head => (keeps_name head).bind fun first _ => KeepsAt.repeating fun parts _ => ?_
  refine KeepsAt.accept (fun _ _ => rfl) fun taken _ => ?_
  split
  · exact (keeps_name _).bind fun _ _ => KeepsAt.pure
  · exact KeepsAt.pure

theorem keeps_typeName : Keeps known typeName := by
  refine fun head => KeepsAt.look ?_
  split
  · refine KeepsAt.advance (fun _ _ => rfl) fun _ _ => ?_
    exact (keeps_dottedName _).bind fun _ _ => KeepsAt.pure
  · exact (keeps_dottedName _).bind fun _ _ => KeepsAt.pure
  · exact KeepsAt.unexpected

theorem keeps_positiveInt : Keeps known positiveInt := by
  refine fun head => KeepsAt.look ?_
  split
  · exact KeepsAt.advance (fun _ _ => rfl) fun _ _ => KeepsAt.pure
  · exact KeepsAt.unexpected

theorem keeps_signedInt {expected : String} : Keeps known (signedInt expected) := by
  refine fun head => KeepsAt.here fun start => KeepsAt.accept (fun _ _ => rfl) fun _ _ => ?_
  refine KeepsAt.look ?_
  split
  · exact KeepsAt.advance (fun _ _ => rfl) fun _ _ => KeepsAt.pure
  · exact KeepsAt.unexpected

theorem keeps_bytes : Keeps known bytes := by
  refine fun head => KeepsAt.look ?_
  split
  · refine KeepsAt.advance (fun _ _ => rfl) fun _ _ => KeepsAt.repeating fun ⟨value, span⟩ _ => ?_
    refine KeepsAt.look ?_
    split
    · exact KeepsAt.advance (fun _ _ => rfl) fun _ _ => KeepsAt.pure
    · exact KeepsAt.pure
  · exact KeepsAt.unexpected

/-- A string that is no text is a fault in what was read. -/
theorem keeps_text : Keeps known text := by
  refine fun head => (keeps_bytes head).bind fun ⟨value, span⟩ _ => ?_
  dsimp only
  split
  · exact KeepsAt.pure
  · exact fun nest input _ _ bounded _ =>
      ⟨nest, input, .none bounded, .inl rfl, fun _ same => GrammarCause.noConfusion same⟩

/-- A list keeps what is open if its items do. -/
theorem keeps_commaList {item : Parser Value} {ends : Token → Bool} {expected : String}
    (each : Keeps known item) : Keeps known (commaList item ends expected) := by
  refine fun head => (each head).bind fun first _ => KeepsAt.repeating fun items _ => ?_
  refine KeepsAt.look ?_
  split
  · refine KeepsAt.advance (fun _ _ => rfl) fun _ _ => ?_
    exact (each _).bind fun _ _ => KeepsAt.pure
  · split
    · exact KeepsAt.pure
    · exact KeepsAt.unexpected
  · exact KeepsAt.unexpected

theorem keeps_terminator : Keeps known terminator := fun _ =>
  KeepsAt.expect (fun _ _ => rfl) fun _ _ => KeepsAt.trailingComment.bind fun _ _ => KeepsAt.pure

/-- A semicolon without a statement opens nothing. -/
theorem keeps_emptyStatement : Keeps known emptyStatement := by
  refine fun head => KeepsAt.followsBrace fun follows => ?_
  split
  · exact KeepsAt.expect (fun _ _ => rfl) fun _ _ => KeepsAt.pure
  · exact KeepsAt.stop_here fun _ => GrammarCause.noConfusion

/-- The brace that opens a body opens what a brace opens there. -/
theorem nests_openBrace
    (room : ∀ construct, nest.brace = some construct → nest.count construct < construct.limit) :
    Nests nest input openBrace fun _ final _ => final.opened = nest.brace :: nest.opened := by
  have opened : (nest.step (.symbol .leftBrace)).opened = nest.brace :: nest.opened := rfl
  refine (Nests.expect fun bounded => bounded.of_cons opened room).bind ?_
  rintro _ _ _ rfl
  exact Nests.trailingComment fun _ => opened

/-! ### Bodies -/

/-- Every member leaves as open what was open. -/
def KeepsMember (known : List (Option Nesting) → Prop) (parse : Member State) : Prop :=
  ∀ state next parser, parse state next = some parser → KeepsAt known (some next) parser

theorem keeps_member {parse : Member State} {expected : String} {state : State} {next : Token}
    (members : KeepsMember known parse) :
    KeepsAt known (some next) (member parse expected state next) := by
  rw [member]
  split
  · exact (keeps_emptyStatement _).bind fun _ _ => KeepsAt.pure
  · split
    · next parser found => exact members state next parser found
    · exact KeepsAt.unexpected

/-- The closing brace of a body closes what is open innermost. -/
theorem nests_body {parse : Member State} {expected : String} {state : State}
    (members : KeepsMember known parse) (holds : known nest.opened) :
    Nests nest input (body parse expected state) fun _ final _ =>
      final.opened = nest.opened.tail := by
  refine Nests.repeating (fun final => final.opened = nest.opened) rfl
    fun state middle rest kept => Nests.look ?_
  split
  · next head =>
    have closed : (middle.step (.symbol .rightBrace)).opened = middle.opened.tail := rfl
    refine (Nests.advance head fun bounded => bounded.of_tail closed).bind ?_
    rintro _ _ _ rfl
    exact Nests.pure (closed.trans (by rw [kept]))
  · next head =>
    refine (keeps_member members middle rest head (kept ▸ holds)).bind fun _ _ _ keptOn => ?_
    exact Nests.pure (keptOn.trans kept)
  · exact Nests.unexpected

/-- The members of a file are read to its end. -/
theorem nests_topLevel {parse : Member State} {expected : String} {state : State}
    (members : KeepsMember known parse) (holds : known nest.opened) :
    Nests nest input (topLevel parse expected state) fun _ final rest =>
      final.opened = nest.opened ∧ rest = [] := by
  refine Nests.repeating (fun final => final.opened = nest.opened) rfl
    fun state middle rest kept => Nests.look ?_
  split
  · next head =>
    refine (keeps_member members middle rest head (kept ▸ holds)).bind fun _ _ _ keptOn => ?_
    exact Nests.pure (keptOn.trans kept)
  · next head =>
    refine Nests.pure ⟨kept, ?_⟩
    simpa using head

/-! ### Scalars -/

theorem keeps_number : Keeps known number := by
  refine fun head => KeepsAt.here fun start => KeepsAt.accept (fun _ _ => rfl) fun negative _ => ?_
  split
  refine KeepsAt.accept (fun _ _ => rfl) fun _ _ => ?_
  -- A minus sign, a plus sign or none: what may follow is the same.
  all_goals
    refine KeepsAt.look ?_
    split
    · exact KeepsAt.advance (fun _ _ => rfl) fun _ _ => KeepsAt.pure
    · exact KeepsAt.advance (fun _ _ => rfl) fun _ _ => KeepsAt.pure
    · exact KeepsAt.advance (fun _ _ => rfl) fun _ _ => KeepsAt.pure
    · exact KeepsAt.advance (fun _ _ => rfl) fun _ _ => KeepsAt.pure
    · exact KeepsAt.unexpected

/-- A scalar opens nothing, so it may stand in a message and outside. -/
theorem keeps_scalarValue {expected : String} : Keeps known (scalarValue expected) := by
  refine fun head => KeepsAt.look ?_
  split
  · split
    · exact KeepsAt.advance (fun _ _ => rfl) fun _ _ => KeepsAt.pure
    · split
      · exact KeepsAt.advance (fun _ _ => rfl) fun _ _ => KeepsAt.pure
      · split
        · exact keeps_number _
        · exact (keeps_name _).bind fun _ _ => KeepsAt.pure
  · exact keeps_number _
  · exact keeps_number _
  · exact keeps_number _
  · exact keeps_number _
  · exact (keeps_bytes _).bind fun _ _ => KeepsAt.pure
  · exact KeepsAt.unexpected

/-! ### Messages in text format -/

/-- Inside an option value, others may nest to a depth. -/
def InValue (depth : Nat) (opened : List (Option Nesting)) : Prop :=
  opened.head? = some (some .optionValue) ∧
    opened.count (some .optionValue) + depth = Nesting.optionValue.limit

section

variable {message : Parser OptionValue} {closing : Symbol}

theorem keeps_entryValue (nested : Keeps known message) : Keeps known (entryValue message) := by
  refine fun head => KeepsAt.look ?_
  split
  · exact nested _
  · exact nested _
  · exact keeps_scalarValue _

/-- The brackets of a list count for nothing; what is in it may be a message. -/
theorem keeps_array (nested : Keeps known message) : Keeps known (array message) := by
  refine fun head => KeepsAt.expect (fun _ _ => rfl) fun start _ => KeepsAt.look ?_
  split
  · next found =>
    rw [found]
    exact KeepsAt.advance (fun _ _ => rfl) fun _ _ => KeepsAt.pure
  · refine (keeps_commaList (keeps_entryValue nested) _).bind fun _ _ => ?_
    exact KeepsAt.expect (fun _ _ => rfl) fun _ _ => KeepsAt.pure

/-- A key between brackets that are not counted. -/
theorem keeps_bracketedKey {opening : Token} {closing : Symbol} (opens : Flat known opening)
    (closes : Flat known (.symbol closing)) :
    KeepsAt known (some opening) (bracketedKey closing) := by
  refine KeepsAt.advance opens fun start _ => (keeps_typeName _).bind fun name _ => ?_
  exact KeepsAt.expect closes fun _ _ => KeepsAt.pure

/-- The brackets around the name of an extension count for nothing. -/
theorem keeps_entryKey : Keeps known (entryKey closing) := by
  refine fun head => KeepsAt.look ?_
  split
  · exact (keeps_name _).bind fun _ _ => KeepsAt.pure
  · exact keeps_bracketedKey (fun _ _ => rfl) fun _ _ => rfl
  · exact KeepsAt.unexpected

/-- With a colon or without, what follows a key may be a message. -/
theorem keeps_entryRest (nested : Keeps known message) : Keeps known (entryRest message) := by
  refine fun head => KeepsAt.look ?_
  split
  · refine KeepsAt.advance (fun _ _ => rfl) fun _ _ => KeepsAt.look ?_
    split
    · exact keeps_array nested _
    · exact keeps_entryValue nested _
  · exact nested _
  · exact nested _
  · exact keeps_array nested _
  · exact KeepsAt.unexpected

theorem keeps_separator : Keeps known separator := by
  refine fun head => KeepsAt.look ?_
  split
  · exact KeepsAt.advance (fun _ _ => rfl) fun _ _ => KeepsAt.pure
  · exact KeepsAt.advance (fun _ _ => rfl) fun _ _ => KeepsAt.pure
  · exact KeepsAt.pure

/-- An entry keeps what is open if messages in it do. -/
theorem keeps_entry (nested : Keeps known message) : Keeps known (entry message closing) :=
  fun head => (keeps_entryKey head).bind fun _ _ => (keeps_entryRest nested _).bind fun _ _ =>
    (keeps_separator _).bind fun _ _ => KeepsAt.pure

/-- The bracket that closes a message closes the option value that is open innermost. -/
theorem nests_entries {depth : Nat} (nested : Keeps (InValue depth) message)
    (holds : InValue depth nest.opened) (closes : closing = .rightBrace ∨ closing = .rightAngle) :
    Nests nest input (entries message closing) fun _ final _ =>
      final.opened = nest.opened.tail := by
  refine Nests.repeating (fun final => final.opened = nest.opened) rfl
    fun found middle rest kept => Nests.look ?_
  split
  · next head =>
    have inside : middle.inValue = true := by
      rw [Nest.inValue, kept, decide_eq_true_eq]
      exact holds.1
    have closed : (middle.step (.symbol closing)).opened = middle.opened.tail := by
      obtain rfl | rfl := closes
      · rfl
      · exact if_pos inside
    refine (Nests.advance head fun bounded => bounded.of_tail closed).bind ?_
    rintro _ _ _ rfl
    exact Nests.pure (closed.trans (by rw [kept]))
  · refine ((keeps_entry nested).nests (kept ▸ holds)).bind fun _ _ _ keptOn => ?_
    exact Nests.pure (keptOn.trans kept)

end

/-- The bracket that opens a message is looked at, not taken. -/
theorem Nests.closingBracket {Result : Type} {next : Symbol → Parser Result}
    {target : Result → Nest → List Lexeme → Prop}
    (nests : ∀ closing opening, input.head?.map (·.token) = some opening →
      opening = .symbol .leftBrace ∧ closing = .rightBrace ∨
        opening = .symbol .leftAngle ∧ closing = .rightAngle →
      Nests nest input (next closing) target) :
    Nests nest input (closingBracket >>= next) target := by
  rw [Parser.closingBracket, bind_assoc]
  refine look ?_
  split
  · next head =>
    rw [pure_bind]
    exact nests _ _ head (.inl ⟨rfl, rfl⟩)
  · next head =>
    rw [pure_bind]
    exact nests _ _ head (.inr ⟨rfl, rfl⟩)
  · exact unexpected_bind

/-- In an option value a message may start at either bracket, if it may where its bracket opens an
option value and the depth is left. -/
theorem keeps_inValue {depth : Nat} {message : Parser OptionValue}
    (nests : ∀ {nest : Nest} {input : List Lexeme},
      (∀ token, input.head?.map (·.token) = some token →
        token = .symbol .leftBrace ∨ token = .symbol .leftAngle →
          nest.openedBy token = some .optionValue :: nest.opened) →
      nest.count .optionValue + depth = Nesting.optionValue.limit →
      Nests nest input message fun _ final _ => final.opened = nest.opened) :
    Keeps (InValue depth) message := fun _ _ _ _ holds =>
  nests (fun _ _ opening => Nest.openedBy_of_inValue (decide_eq_true holds.1) opening) holds.2

/-- An option value that was opened where one more might be. -/
theorem inValue_of_opened {depth : Nat} {opened : List (Option Nesting)}
    (enough : opened.count (some .optionValue) + (depth + 1) = Nesting.optionValue.limit) :
    InValue depth (some .optionValue :: opened) := by
  refine ⟨rfl, ?_⟩
  rw [List.count_cons_self, Nat.add_right_comm, Nat.add_assoc]
  exact enough

/-- The bracket of a message may be taken where one more option value may be open. -/
theorem bounded_of_opened {depth : Nat} {token : Token}
    (opened : (nest.step token).opened = some .optionValue :: nest.opened)
    (enough : nest.count .optionValue + (depth + 1) = Nesting.optionValue.limit)
    (bounded : nest.Bounded) : (nest.step token).Bounded := by
  refine bounded.of_cons opened fun construct same => ?_
  obtain rfl := Option.some.inj same
  omega

/-- A message in text format may start where its bracket opens an option value and as many are open
as leave the depth up to the limit. -/
theorem nests_aggregate (depth : Nat) : ∀ {nest : Nest} {input : List Lexeme},
    (∀ token, input.head?.map (·.token) = some token →
      token = .symbol .leftBrace ∨ token = .symbol .leftAngle →
        nest.openedBy token = some .optionValue :: nest.opened) →
    nest.count .optionValue + depth = Nesting.optionValue.limit →
    Nests nest input (aggregate depth) fun _ final _ => final.opened = nest.opened := by
  induction depth with
  | zero =>
    intro nest input opens full
    refine Nests.closingBracket fun closing opening head brackets => ?_
    have opened := opens opening head (brackets.imp And.left And.left)
    intro bounded setting
    have stops : nest.StopsAt setting.length input ⟨.nestedTooDeeply .optionValue,
        (input.head?.map (·.span)).getD (.point setting.length)⟩ := by
      refine ⟨.inr rfl, fun construct same => ?_⟩
      obtain rfl := GrammarCause.nestedTooDeeply.inj same
      exact ⟨⟨opening, head, opened⟩, full⟩
    cases input with
    | nil => exact ⟨nest, [], .none bounded, stops⟩
    | cons lexeme rest => exact ⟨nest, lexeme :: rest, .none bounded, stops⟩
  | succ depth inductionHypothesis =>
    intro nest input opens enough
    refine Nests.closingBracket fun closing opening head brackets => ?_
    have opened : (nest.step opening).opened = some .optionValue :: nest.opened :=
      opens opening head (brackets.imp And.left And.left)
    refine (Nests.advance head (bounded_of_opened opened enough)).bind ?_
    rintro start _ rest rfl
    have inside : InValue depth (nest.step opening).opened := by
      rw [opened]
      exact inValue_of_opened enough
    refine (nests_entries (keeps_inValue inductionHypothesis) inside
      (brackets.imp And.right And.right)).bind fun found final left closed => Nests.pure ?_
    rw [closed, opened, List.tail_cons]

/-- A message closes all that it opens, as far as others may nest in it. -/
theorem keeps_aggregate (depth : Nat) : Keeps (InValue depth) (aggregate depth) :=
  keeps_inValue (nests_aggregate depth)

/-! ### Settings -/

/-- No option value is open. -/
def OutsideValues (opened : List (Option Nesting)) : Prop :=
  opened.count (some .optionValue) = 0

theorem keeps_optionKey : Keeps known optionKey := by
  refine fun head => KeepsAt.look ?_
  split
  · exact keeps_bracketedKey (fun _ _ => rfl) fun _ _ => rfl
  · exact (keeps_name _).bind fun _ _ => KeepsAt.pure
  · exact KeepsAt.unexpected

/-- The name of an option ends with the equals sign. -/
theorem nests_optionName : Nests nest input optionName fun _ final _ =>
    final.opened = nest.opened ∧ final.last = some (.symbol .equals) := by
  have key (nest : Nest) (input : List Lexeme) :
      Nests nest input optionKey fun _ final _ => final.opened = nest.opened :=
    keeps_optionKey.leaves
  refine (key nest input).bind fun first middle rest kept => ?_
  refine Nests.repeating (fun final => final.opened = nest.opened) kept
    fun keys middle rest kept => Nests.look ?_
  split
  · next head =>
    have same : (middle.step (.symbol .dot)).opened = middle.opened := rfl
    refine (Nests.advance head fun bounded => bounded.of_opened same).bind ?_
    rintro _ _ rest rfl
    refine (key _ rest).bind fun _ _ _ keptOn => Nests.pure ?_
    exact keptOn.trans (same.trans kept)
  · next head =>
    have same : (middle.step (.symbol .equals)).opened = middle.opened := rfl
    refine (Nests.advance head fun bounded => bounded.of_opened same).bind ?_
    rintro _ _ _ rfl
    exact Nests.pure ⟨same.trans kept, rfl⟩
  · exact Nests.unexpected

/-- Behind the equals sign a brace opens an option value. -/
theorem keeps_setting : Keeps OutsideValues setting := by
  intro head nest input _ outside
  refine nests_optionName.bind fun name middle rest ⟨kept, equals⟩ => Nests.look ?_
  split
  · next next =>
    refine (nests_aggregate _ ?_ ?_).bind fun _ _ _ keptOn => Nests.pure (keptOn.trans kept)
    · intro token found opening
      obtain rfl := Option.some.inj (found.symm.trans next)
      have brace : middle.brace = some .optionValue := if_pos (.inr equals)
      exact congrArg (· :: _) brace
    · rw [Nest.count, kept, outside, Nat.zero_add]
  · exact keeps_scalarValue.leaves.bind fun _ _ _ keptOn => Nests.pure (keptOn.trans kept)

/-- A setting in brackets may be a message, so the brackets are no part of a value. -/
theorem keeps_settingList : Keeps OutsideValues settingList := fun _ =>
  KeepsAt.expect (fun _ _ => rfl) fun _ _ => (keeps_commaList keeps_setting _).bind fun _ _ =>
    KeepsAt.expect (fun _ _ => rfl) fun _ _ => KeepsAt.pure

theorem keeps_optionalSettings : Keeps OutsideValues optionalSettings := by
  refine fun head => KeepsAt.look ?_
  split
  · exact keeps_settingList _
  · exact KeepsAt.pure
  · exact KeepsAt.unexpected

/-- A statement closes the message that its option may be set to. -/
theorem keeps_optionStatement : Keeps OutsideValues optionStatement := by
  refine fun head => KeepsAt.leadingComments fun comments => ?_
  refine KeepsAt.expect (fun _ _ => rfl) fun start _ => (keeps_setting _).bind fun _ _ => ?_
  exact (keeps_terminator _).bind fun _ _ => KeepsAt.pure

end Parser

end ProtoSchema
