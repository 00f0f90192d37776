/-
This file shows that the parsers of phrases read canonical tokens back: names,
literals and lists with commas. What is answered has the spans of the new source,
so it is compared with what was printed after both are erased.
-/

import ProtoSchema.Proofs.Canonical.Tokens
import ProtoSchema.Proofs.Grammar.Reading
import ProtoSchema.Proofs.Grammar.WellFormed
import ProtoSchema.Proofs.Scanning.Literal

namespace ProtoSchema

theorem separated_cons {Item : Type} (mark : Symbol) (tokens : Item → List Token) (first : Item)
    (rest : List Item) :
    separated mark ((first :: rest).map tokens) =
      tokens first ++ rest.flatMap fun item => .symbol mark :: tokens item := by
  rw [List.map_cons, separated, List.flatMap_map]

/-- A dotted name starts with a word. -/
theorem DottedName.tokens_eq_cons {name : DottedName} (wellFormed : name.WellFormed) :
    ∃ first others, name.tokens = .word first :: others := by
  obtain ⟨parts⟩ := name
  obtain ⟨first, others, rfl⟩ := List.exists_cons_of_ne_nil wellFormed.some
  exact ⟨first.text, _, separated_cons _ _ _ _⟩

/-- A type name starts with a word or with the dot in front of it. -/
theorem TypeName.tokens_eq_cons {name : TypeName} (wellFormed : name.WellFormed) :
    ∃ first others, name.tokens = first :: others ∧
      (first = .symbol .dot ∨ ∃ word, first = .word word) := by
  obtain ⟨dot, path⟩ := name
  cases dot with
  | some dot => exact ⟨_, _, rfl, .inl rfl⟩
  | none =>
    obtain ⟨first, others, eq⟩ := DottedName.tokens_eq_cons wellFormed
    exact ⟨_, _, eq, .inr ⟨first, rfl⟩⟩

namespace Parser

variable {declared : Option Edition} {rest : List Token}

/-! ### Names -/

theorem reads_name (name : Name) :
    Reads declared (.word name.text :: rest) Parser.name
      fun found left => found.erased = name.erased ∧ left = rest :=
  Reads.look (Reads.advance fun _ => Reads.pure ⟨rfl, rfl⟩)

theorem reads_dottedName (name : DottedName) (wellFormed : name.WellFormed)
    (ends : rest.head? ≠ some (.symbol .dot)) :
    Reads declared (name.tokens ++ rest) dottedName
      fun found left => found.erased = name.erased ∧ left = rest := by
  obtain ⟨parts⟩ := name
  obtain ⟨first, others, rfl⟩ := List.exists_cons_of_ne_nil wellFormed.some
  rw [DottedName.tokens, separated_cons, List.append_assoc]
  refine (reads_name first).bind ?_
  rintro found _ ⟨same, rfl⟩
  refine Reads.repeating (ReadsLoop.each _
    (fun read parts => parts.map Name.erased = (first :: read).map Name.erased) others ?_ ?_ ?_)
  · intro before part after parts _ known
    refine ⟨List.cons_ne_nil _ _, Reads.accept ?_⟩
    rw [if_pos rfl]
    refine (reads_name part).bind ?_
    rintro next _ ⟨nextSame, rfl⟩
    refine Reads.pure ⟨_, rfl, ?_, rfl⟩
    rw [List.map_append, known, ← List.cons_append, List.map_append, List.map_singleton, nextSame,
      List.map_singleton]
  · rw [List.map_singleton, List.map_singleton, same]
  · intro parts known
    refine ReadsLoop.last (Reads.accept_other ends ?_)
    rw [if_neg Bool.false_ne_true]
    exact Reads.pure ⟨_, rfl, congrArg DottedName.mk known, rfl⟩

theorem reads_typeName (name : TypeName) (wellFormed : name.WellFormed)
    (ends : rest.head? ≠ some (.symbol .dot)) :
    Reads declared (name.tokens ++ rest) typeName
      fun found left => found.erased = name.erased ∧ left = rest := by
  obtain ⟨dot, path⟩ := name
  cases dot with
  | none =>
    obtain ⟨first, others, eq⟩ := DottedName.tokens_eq_cons wellFormed
    refine Reads.look ?_
    simp only [TypeName.tokens, Option.isSome_none, Bool.false_eq_true, if_false, List.nil_append,
      eq, List.cons_append, List.head?_cons]
    rw [← List.cons_append, ← eq]
    refine (reads_dottedName path wellFormed ends).bind ?_
    rintro found _ ⟨same, rfl⟩
    exact Reads.pure ⟨congrArg (TypeName.mk none) same, rfl⟩
  | some dot =>
    refine Reads.look (Reads.advance fun _ => ?_)
    refine (reads_dottedName path wellFormed ends).bind ?_
    rintro found _ ⟨same, rfl⟩
    exact Reads.pure ⟨congrArg (TypeName.mk (some .erased)) same, rfl⟩

/-! ### Literals -/

theorem reads_positiveInt (literal : IntLiteral) (positive : literal.negative = false) :
    Reads declared (literal.tokens ++ rest) positiveInt
      fun found left => found.erased = literal.erased ∧ left = rest := by
  obtain ⟨negative, magnitude, span⟩ := literal
  subst positive
  exact Reads.look (Reads.advance fun _ => Reads.pure ⟨rfl, rfl⟩)

theorem reads_signedInt (expected : String) (literal : IntLiteral) :
    Reads declared (literal.tokens ++ rest) (signedInt expected)
      fun found left => found.erased = literal.erased ∧ left = rest := by
  obtain ⟨negative, magnitude, span⟩ := literal
  refine Reads.here fun start => ?_
  cases negative with
  | false =>
    refine Reads.accept_other (by simp [IntLiteral.tokens, minusTokens]) ?_
    exact Reads.look (Reads.advance fun _ => Reads.pure ⟨rfl, rfl⟩)
  | true =>
    refine Reads.accept ?_
    exact Reads.look (Reads.advance fun _ => Reads.pure ⟨rfl, rfl⟩)

/-- The next token is no string literal, which would go on with the one before it. -/
def EndsString (rest : List Token) : Prop := ∀ bytes, rest.head? ≠ some (.string bytes)

theorem endsString_symbol (mark : Symbol) : EndsString (.symbol mark :: rest) := by
  rintro bytes ⟨⟩

theorem reads_bytes (value : Bytes) (ends : EndsString rest) :
    Reads declared (.string value :: rest) bytes
      fun found left => found.1 = value ∧ left = rest := by
  refine Reads.look (Reads.advance fun start => Reads.repeating (ReadsLoop.last ?_))
  refine Reads.look ?_
  split
  · next more eq => exact absurd eq (ends more)
  · exact Reads.pure ⟨_, rfl, rfl, rfl⟩

theorem reads_text (value : String) (ends : EndsString rest) :
    Reads declared (textToken value :: rest) text
      fun found left => found.text = value ∧ left = rest := by
  refine (reads_bytes _ ends).bind ?_
  rintro ⟨found, span⟩ _ ⟨rfl, rfl⟩
  simp only [fromUTF8?_toUTF8]
  exact Reads.pure ⟨rfl, rfl⟩

/-! ### Lists -/

/-- Items with commas between them are read back if each is when a comma or the end of the list
follows. -/
theorem reads_commaList {Value : Type} {item : Parser Value} {ends : Token → Bool}
    {expected : String} (tokens : Value → List Token) (erased : Value → Value)
    (values : List Value) (some : values ≠ []) (stop : Token) (stops : ends stop = true)
    (noComma : stop ≠ .symbol .comma)
    (each : ∀ value ∈ values, ∀ token left, token = .symbol .comma ∨ token = stop →
      Reads declared (tokens value ++ token :: left) item
        fun found remaining => erased found = erased value ∧ remaining = token :: left) :
    Reads declared (separated .comma (values.map tokens) ++ stop :: rest)
      (commaList item ends expected)
      fun found left => found.map erased = values.map erased ∧ left = stop :: rest := by
  obtain ⟨first, others, rfl⟩ := List.exists_cons_of_ne_nil some
  have next (items : List Value) : ∃ token left, (token = .symbol .comma ∨ token = stop) ∧
      (items.flatMap fun value => .symbol .comma :: tokens value) ++ stop :: rest =
        token :: left := by
    cases items with
    | nil => exact ⟨stop, rest, .inr rfl, rfl⟩
    | cons item items => exact ⟨_, _, .inl rfl, rfl⟩
  have one (value : Value) (member : value ∈ first :: others) (after : List Value) :
      Reads declared
        (tokens value ++ ((after.flatMap fun value => .symbol .comma :: tokens value) ++ stop :: rest))
        item fun found left => erased found = erased value ∧
          left = (after.flatMap fun value => .symbol .comma :: tokens value) ++ stop :: rest := by
    obtain ⟨token, left, may, eq⟩ := next after
    rw [eq]
    exact each value member token left may
  rw [separated_cons, List.append_assoc]
  refine (one first List.mem_cons_self others).bind ?_
  rintro found _ ⟨same, rfl⟩
  refine Reads.repeating (ReadsLoop.each _
    (fun read values => values.map erased = (first :: read).map erased) others ?_ ?_ ?_)
  · intro before value after values split known
    refine ⟨List.cons_ne_nil _ _, Reads.look (Reads.advance fun _ => ?_)⟩
    refine (one value (by simp [split]) after).bind ?_
    rintro following _ ⟨followingSame, rfl⟩
    refine Reads.pure ⟨_, rfl, ?_, rfl⟩
    rw [List.map_append, known, ← List.cons_append, List.map_append, List.map_singleton,
      followingSame, List.map_singleton]
  · rw [List.map_singleton, List.map_singleton, same]
  · intro values known
    refine ReadsLoop.last (Reads.look ?_)
    rw [List.head?_cons]
    split
    · next eq => exact absurd (Option.some.inj eq) noComma
    · next token _ eq =>
      rw [← Option.some.inj eq, if_pos stops]
      exact Reads.pure ⟨_, rfl, known, rfl⟩
    · next eq => exact absurd eq (Option.some_ne_none _)

/-! ### Ends of declarations -/

theorem reads_leadingComments {Result : Type} {next : Comments → Parser Result}
    {goal : Result → List Token → Prop} (reads : ∀ comments, Reads declared rest (next comments) goal) :
    Reads declared rest (leadingComments >>= next) goal := by
  have first : Reads declared rest leadingComments fun _ left => left = rest :=
    Reads.surroundings fun _ => Reads.pure rfl
  refine first.bind ?_
  rintro comments _ rfl
  exact reads comments

theorem reads_trailingComment :
    Reads declared rest trailingComment fun _ left => left = rest :=
  Reads.surroundings fun _ => Reads.pure rfl

theorem reads_terminator :
    Reads declared (.symbol .semicolon :: rest) terminator fun _ left => left = rest :=
  Reads.expect fun _ => reads_trailingComment.bind fun _ _ eq => Reads.pure eq

theorem reads_openBrace :
    Reads declared (.symbol .leftBrace :: rest) openBrace fun _ left => left = rest :=
  Reads.expect fun _ => reads_trailingComment

/-! ### Bodies -/

section Bodies

variable {State : Type} {parse : Member State} {expected : String} {state : State}

/-- A step through a body. -/
def bodyStep (parse : Member State) (expected : String) (state : State) :
    Parser (State ⊕ (State × Span)) := do
  match ← look with
  | some (.symbol .rightBrace) => return .inr (state, ← advance)
  | some next => return .inl (← member parse expected state next)
  | none => unexpected expected

theorem body_eq : body parse expected state = repeating (bodyStep parse expected) state := rfl

/-- A step through the top level of a file. -/
def topLevelStep (parse : Member State) (expected : String) (state : State) :
    Parser (State ⊕ State) := do
  match ← look with
  | some next => return .inl (← member parse expected state next)
  | none => return .inr state

theorem topLevel_eq :
    topLevel parse expected state = repeating (topLevelStep parse expected) state := rfl

/-- The tokens are read as a member, after which the state is as stated. -/
def ReadsMember (declared : Option Edition) (parse : Member State) (state : State)
    (tokens : List Token) (known : State → Prop) : Prop :=
  ∃ token others parser, tokens = token :: others ∧ token ≠ .symbol .rightBrace ∧
    token ≠ .symbol .semicolon ∧ parse state token = some parser ∧
      ∀ rest, Reads declared (tokens ++ rest) parser fun next left => known next ∧ left = rest

theorem ReadsMember.ne_nil {tokens : List Token} {known : State → Prop}
    (reads : ReadsMember declared parse state tokens known) : tokens ≠ [] := by
  obtain ⟨token, others, _, rfl, _⟩ := reads
  exact List.cons_ne_nil _ _

theorem ReadsMember.bodyStep {tokens : List Token} {known : State → Prop}
    (reads : ReadsMember declared parse state tokens known) :
    Reads declared (tokens ++ rest) (bodyStep parse expected state) fun found left =>
      ∃ following, found = .inl following ∧ known following ∧ left = rest := by
  obtain ⟨token, others, parser, rfl, noBrace, noSemicolon, found, reads⟩ := reads
  refine Reads.look ?_
  rw [List.cons_append, List.head?_cons]
  split
  · next eq => exact absurd (Option.some.inj eq) noBrace
  · next next _ eq =>
    obtain rfl := Option.some.inj eq
    rw [member, if_neg noSemicolon]
    simp only [found]
    refine (reads rest).bind ?_
    rintro following _ ⟨knows, rfl⟩
    exact Reads.pure ⟨following, rfl, knows, rfl⟩
  · next eq => exact absurd eq (Option.some_ne_none _)

theorem ReadsMember.topLevelStep {tokens : List Token} {known : State → Prop}
    (reads : ReadsMember declared parse state tokens known) :
    Reads declared (tokens ++ rest) (topLevelStep parse expected state) fun found left =>
      ∃ following, found = .inl following ∧ known following ∧ left = rest := by
  obtain ⟨token, others, parser, rfl, noBrace, noSemicolon, found, reads⟩ := reads
  refine Reads.look ?_
  simp only [List.cons_append, List.head?_cons, member, if_neg noSemicolon, found]
  refine (reads rest).bind ?_
  rintro following _ ⟨knows, rfl⟩
  exact Reads.pure ⟨following, rfl, knows, rfl⟩

/-- The members of a list are read one after the other. -/
theorem ReadsLoop.members {Item : Type} {goal : State × Span → List Token → Prop}
    (tokens : Item → List Token) (known : List Item → State → Prop) (items : List Item)
    (one : ∀ before item after state, items = before ++ item :: after → known before state →
      ReadsMember declared parse state (tokens item) (known (before ++ [item])))
    (start : known [] state)
    (go : ∀ state, known items state →
      ReadsLoop declared rest (Parser.bodyStep parse expected) state goal) :
    ReadsLoop declared (items.flatMap tokens ++ rest) (Parser.bodyStep parse expected) state
      goal := by
  refine ReadsLoop.each tokens known items (fun before item after state split knows => ?_) start go
  have reads := one before item after state split knows
  exact ⟨reads.ne_nil, reads.bodyStep⟩

theorem ReadsLoop.topMembers {Item : Type} {goal : State → List Token → Prop}
    (tokens : Item → List Token) (known : List Item → State → Prop) (items : List Item)
    (one : ∀ before item after state, items = before ++ item :: after → known before state →
      ReadsMember declared parse state (tokens item) (known (before ++ [item])))
    (start : known [] state)
    (go : ∀ state, known items state →
      ReadsLoop declared rest (Parser.topLevelStep parse expected) state goal) :
    ReadsLoop declared (items.flatMap tokens ++ rest) (Parser.topLevelStep parse expected) state
      goal := by
  refine ReadsLoop.each tokens known items (fun before item after state split knows => ?_) start go
  have reads := one before item after state split knows
  exact ⟨reads.ne_nil, reads.topLevelStep⟩

/-- A closing brace ends a body. -/
theorem ReadsLoop.bodyEnd {goal : State × Span → List Token → Prop}
    (meets : ∀ span, goal (state, span) rest) :
    ReadsLoop declared (.symbol .rightBrace :: rest) (Parser.bodyStep parse expected) state goal :=
  ReadsLoop.last (Reads.look (Reads.advance fun span => Reads.pure ⟨_, rfl, meets span⟩))

/-- The end of the input ends a file. -/
theorem ReadsLoop.topLevelEnd {goal : State → List Token → Prop} (meets : goal state []) :
    ReadsLoop declared [] (Parser.topLevelStep parse expected) state goal :=
  ReadsLoop.last (Reads.look (Reads.pure ⟨_, rfl, meets⟩))

end Bodies

end Parser

end ProtoSchema
