/-
This file shows what the parsers of phrases answer: names are identifiers and
were spelled as their canonical tokens, lists are not empty, and what every
member of a body keeps true is true of the whole body. The word `required` is
not printed, so it is counted: the canonical tokens of what was read have it no
more often than the tokens that were taken.
-/

import ProtoSchema.Grammar.Phrases
import ProtoSchema.Proofs.Grammar.Reading
import ProtoSchema.Proofs.Grammar.WellFormed

namespace ProtoSchema

/-- A list with marks goes on with a mark. -/
theorem separated_append (mark : Symbol) {lists : List (List Token)} (some : lists ≠ [])
    (last : List Token) :
    separated mark (lists ++ [last]) = separated mark lists ++ .symbol mark :: last := by
  obtain ⟨first, others, rfl⟩ := List.exists_cons_of_ne_nil some
  simp [separated, List.flatMap_append]

/-! ### Lists that grow at their end -/

/-- One more entry is checked on its own. -/
theorem forall_mem_concat {Value : Type} {good : Value → Prop} {values : List Value} {last : Value}
    (each : ∀ value ∈ values, good value) (one : good last) :
    ∀ value ∈ values ++ [last], good value :=
  List.forall_mem_append.mpr ⟨each, List.forall_mem_singleton.mpr one⟩

/-- One more entry is checked at the end, where its index is the length. -/
theorem forall_getElem?_concat {Value : Type} {good : Nat → Value → Prop} {values : List Value}
    {last : Value} (each : ∀ (index : Nat) (value : Value), values[index]? = some value →
      good index value) (one : good values.length last) :
    ∀ (index : Nat) (value : Value), (values ++ [last])[index]? = some value → good index value := by
  intro index value found
  rw [List.getElem?_append] at found
  split at found
  · exact each index value found
  · next outside =>
    obtain ⟨here, rfl⟩ := List.getElem?_eq_some_iff.mp found
    simp only [List.length_cons, List.length_nil] at here
    obtain rfl : index = values.length := by omega
    simpa using one

/-! ### The word that is not printed -/

/-- How often the word `required` stands among tokens. -/
def requiredWords (tokens : List Token) : Nat := tokens.count (.word "required")

section RequiredWords

variable {tokens : List Token}

/-- How often the word is there is counted part by part, here and in what follows. -/
@[simp] theorem requiredWords_nil : requiredWords [] = 0 := rfl

@[simp] theorem requiredWords_word {text : String} :
    requiredWords (.word text :: tokens) =
      requiredWords tokens + if text = "required" then 1 else 0 := by
  simp [requiredWords, List.count_cons]

@[simp] theorem requiredWords_symbol {mark : Symbol} :
    requiredWords (.symbol mark :: tokens) = requiredWords tokens := by
  simp [requiredWords]

@[simp] theorem requiredWords_int {value : UInt64} :
    requiredWords (.int value :: tokens) = requiredWords tokens := by
  simp [requiredWords]

@[simp] theorem requiredWords_float {value : Magnitude} :
    requiredWords (.float value :: tokens) = requiredWords tokens := by
  simp [requiredWords]

@[simp] theorem requiredWords_string {value : Bytes} :
    requiredWords (.string value :: tokens) = requiredWords tokens := by
  simp [requiredWords]

@[simp] theorem requiredWords_append {others : List Token} :
    requiredWords (tokens ++ others) = requiredWords tokens + requiredWords others :=
  List.count_append

@[simp] theorem requiredWords_flatMap_mark {mark : Symbol} {lists : List (List Token)} :
    requiredWords (lists.flatMap (.symbol mark :: ·)) = requiredWords lists.flatten := by
  induction lists with
  | nil => rfl
  | cons first others inductionHypothesis => simp [inductionHypothesis]

@[simp] theorem requiredWords_separated {mark : Symbol} {lists : List (List Token)} :
    requiredWords (separated mark lists) = requiredWords lists.flatten := by
  cases lists <;> simp [separated]

@[simp] theorem requiredWords_braced :
    requiredWords (braced tokens) = requiredWords tokens := by
  simp [braced]

end RequiredWords

namespace Parser

variable {declared : Option Edition} {input : List Token}

/-! ### Names -/

/-- A name is a word, which is taken. -/
theorem ensures_name :
    Ensures declared input Parser.name fun found rest =>
      input = .word found.text :: rest ∧ found.WellFormed := by
  refine Ensures.of_lexical fun lexical => Ensures.look ?_
  split
  · next text head =>
    obtain ⟨rest, rfl⟩ := List.head?_eq_some_iff.mp head
    exact Ensures.advance fun _ => Ensures.pure ⟨rfl, lexical _ List.mem_cons_self⟩
  · exact Ensures.unexpected

/-- A path is taken up to where no dot follows. -/
theorem ensures_dottedName :
    Ensures declared input dottedName fun found rest =>
      found.WellFormed ∧ input = found.tokens ++ rest ∧ rest.head? ≠ some (.symbol .dot) := by
  refine ensures_name.bind ?_
  rintro first rest ⟨rfl, wellFormed⟩
  refine Ensures.repeating
    (fun parts left => (∀ part ∈ parts, part.WellFormed) ∧ parts ≠ [] ∧
      .word first.text :: rest = (⟨parts⟩ : DottedName).tokens ++ left)
    ⟨by simpa using wellFormed, by simp, rfl⟩ ?_
  rintro parts left ⟨each, some, eq⟩
  refine Ensures.accept ?_ ?_
  · rintro left rfl
    rw [if_pos rfl]
    refine ensures_name.bind ?_
    rintro part remaining ⟨rfl, wellFormed⟩
    refine Ensures.pure ⟨?_, by simp, ?_⟩
    · exact forall_mem_concat each wellFormed
    · rw [eq, DottedName.tokens, DottedName.tokens, List.map_append, List.map_singleton,
        separated_append _ (by simpa using some), List.append_assoc]
      rfl
  · intro ends
    rw [if_neg Bool.false_ne_true]
    exact Ensures.pure ⟨⟨some, each⟩, eq, ends⟩

theorem ensures_typeName :
    Ensures declared input typeName fun found rest =>
      found.WellFormed ∧ input = found.tokens ++ rest ∧ rest.head? ≠ some (.symbol .dot) := by
  refine Ensures.look ?_
  split
  · next head =>
    obtain ⟨rest, rfl⟩ := List.head?_eq_some_iff.mp head
    refine Ensures.advance fun dot => ensures_dottedName.bind ?_
    rintro found left ⟨wellFormed, rfl, ends⟩
    exact Ensures.pure ⟨wellFormed, rfl, ends⟩
  · refine ensures_dottedName.bind ?_
    rintro found left ⟨wellFormed, rfl, ends⟩
    exact Ensures.pure ⟨wellFormed, rfl, ends⟩
  · exact Ensures.unexpected

/-! ### Literals -/

/-- A number without a sign has none. -/
theorem ensures_positiveInt :
    Ensures declared input positiveInt fun found rest =>
      found.negative = false ∧ input = found.tokens ++ rest := by
  refine Ensures.look ?_
  split
  · next value head =>
    obtain ⟨rest, rfl⟩ := List.head?_eq_some_iff.mp head
    exact Ensures.advance fun _ => Ensures.pure ⟨rfl, rfl⟩
  · exact Ensures.unexpected

theorem ensures_signedInt {expected : String} :
    Ensures declared input (signedInt expected) fun found rest =>
      input = found.tokens ++ rest := by
  refine Ensures.here fun start => Ensures.accept (fun rest minus => ?_) fun _ => ?_
  · refine Ensures.look ?_
    split
    · next value head =>
      obtain ⟨rest, rfl⟩ := List.head?_eq_some_iff.mp head
      exact Ensures.advance fun _ => Ensures.pure minus
    · exact Ensures.unexpected
  · refine Ensures.look ?_
    split
    · next value head =>
      obtain ⟨rest, rfl⟩ := List.head?_eq_some_iff.mp head
      exact Ensures.advance fun _ => Ensures.pure rfl
    · exact Ensures.unexpected

/-- Literals that are put together have no words among them. -/
theorem ensures_bytes :
    Ensures declared input bytes fun _ rest => requiredWords rest = requiredWords input := by
  refine Ensures.look ?_
  split
  · next first head =>
    obtain ⟨rest, rfl⟩ := List.head?_eq_some_iff.mp head
    refine Ensures.advance fun start => ?_
    refine Ensures.repeating (fun _ left => requiredWords left = requiredWords rest) rfl ?_
    rintro ⟨value, span⟩ left same
    refine Ensures.look ?_
    split
    · next more head =>
      obtain ⟨left, rfl⟩ := List.head?_eq_some_iff.mp head
      exact Ensures.advance fun _ => Ensures.pure (by simpa using same)
    · exact Ensures.pure (by simpa using same)
  · exact Ensures.unexpected

theorem ensures_text :
    Ensures declared input text fun _ rest => requiredWords rest = requiredWords input := by
  refine ensures_bytes.bind ?_
  rintro ⟨value, span⟩ rest same
  dsimp only
  split
  · exact Ensures.pure same
  · exact Ensures.stop

/-! ### Lists and ends -/

/-- A list is not empty, and its items are taken with the commas between them. -/
theorem ensures_commaList {Value : Type} {item : Parser Value} {ends : Token → Bool}
    {expected : String} {good : Value → Prop} {tokens : Value → List Token}
    (each : ∀ input, Ensures declared input item fun value rest =>
      good value ∧ requiredWords (tokens value ++ rest) ≤ requiredWords input) :
    Ensures declared input (commaList item ends expected) fun values rest =>
      (values ≠ [] ∧ ∀ value ∈ values, good value) ∧
        requiredWords (separated .comma (values.map tokens) ++ rest) ≤ requiredWords input := by
  refine (each input).bind ?_
  rintro first rest ⟨firstGood, firstWords⟩
  refine Ensures.repeating
    (fun values left => (values ≠ [] ∧ ∀ value ∈ values, good value) ∧
      requiredWords (separated .comma (values.map tokens) ++ left) ≤ requiredWords input)
    ⟨⟨by simp, by simpa using firstGood⟩, by simpa using firstWords⟩ ?_
  rintro values left ⟨⟨some, allGood⟩, words⟩
  refine Ensures.look ?_
  split
  · next head =>
    obtain ⟨rest, rfl⟩ := List.head?_eq_some_iff.mp head
    refine Ensures.advance fun _ => (each _).bind ?_
    rintro value rest ⟨valueGood, valueWords⟩
    refine Ensures.pure ⟨⟨by simp, ?_⟩, ?_⟩
    · exact forall_mem_concat allGood valueGood
    · simp at words valueWords ⊢
      omega
  · split
    · exact Ensures.pure ⟨⟨some, allGood⟩, words⟩
    · exact Ensures.unexpected
  · exact Ensures.unexpected

theorem ensures_leadingComments :
    Ensures declared input leadingComments fun _ rest => rest = input :=
  Ensures.surroundings fun _ => Ensures.pure rfl

theorem ensures_trailingComment :
    Ensures declared input trailingComment fun _ rest => rest = input :=
  Ensures.surroundings fun _ => Ensures.pure rfl

theorem ensures_terminator :
    Ensures declared input terminator fun _ rest => input = .symbol .semicolon :: rest := by
  refine Ensures.expect ?_
  rintro span rest rfl
  refine ensures_trailingComment.bind ?_
  rintro trailing _ rfl
  exact Ensures.pure rfl

theorem ensures_openBrace :
    Ensures declared input openBrace fun _ rest => input = .symbol .leftBrace :: rest := by
  refine Ensures.expect ?_
  rintro span rest rfl
  exact ensures_trailingComment.mono fun _ _ eq => by rw [eq]

/-- A named block has its word, its name and a brace before what is inside. -/
theorem ensures_header {Value : Type} {text : String} {goal : Value → List Token → Prop}
    {next : Comments → Span → Name → Option String → Parser Value}
    (inside : ∀ comments start (name : Name) trailing rest,
      input = .word text :: .word name.text :: .symbol .leftBrace :: rest → name.WellFormed →
        Ensures declared rest (next comments start name trailing) goal) :
    Ensures declared input (do
      let comments ← leadingComments
      let start ← word text
      let name ← Parser.name
      let trailing ← openBrace
      next comments start name trailing) goal := by
  refine ensures_leadingComments.bind ?_
  rintro comments _ rfl
  refine Ensures.expect ?_
  rintro start rest rfl
  refine ensures_name.bind ?_
  rintro name rest ⟨rfl, wellFormed⟩
  refine ensures_openBrace.bind ?_
  rintro trailing rest rfl
  exact inside comments start name trailing rest rfl wellFormed

/-! ### Bodies -/

section Bodies

variable {State : Type} {parse : Member State} {expected : String} {state : State}
variable {good : State → Prop} {cost : State → Nat}

/-- Members keep what is good, and they cost no more than the words that they take. -/
def EnsuresMember (declared : Option Edition) (parse : Member State) (good : State → Prop)
    (cost : State → Nat) : Prop :=
  ∀ state next rest parser, good state → parse state next = some parser →
    Ensures declared (next :: rest) parser fun following left => good following ∧
      cost following + requiredWords left ≤ cost state + requiredWords (next :: rest)

/-- What is good before a member is good after it, with no more words spent than were there. -/
theorem ensures_member (each : EnsuresMember declared parse good cost) (start : good state)
    {next : Token} {rest : List Token} :
    Ensures declared (next :: rest) (member parse expected state next)
      fun following left => good following ∧
        cost following + requiredWords left ≤ cost state + requiredWords (next :: rest) := by
  rw [member]
  split
  · next semicolon =>
    subst semicolon
    have empty : Ensures declared (.symbol .semicolon :: rest) emptyStatement
        fun _ left => left = rest := by
      refine Ensures.followsBrace fun follows => ?_
      split
      · refine Ensures.expect ?_
        rintro span left eq
        exact Ensures.pure (List.cons.inj eq).2.symm
      · exact Ensures.here fun _ => Ensures.stop
    refine empty.bind ?_
    rintro _ _ rfl
    exact Ensures.pure ⟨start, by simp⟩
  · split
    · next parser found => exact each state next rest parser start found
    · exact Ensures.unexpected

/-- What every member of a body keeps true is true of the body. -/
theorem ensures_body (each : EnsuresMember declared parse good cost) (start : good state) :
    Ensures declared input (body parse expected state) fun found left => good found.1 ∧
      cost found.1 + requiredWords left ≤ cost state + requiredWords input := by
  refine Ensures.repeating (fun following left => good following ∧
    cost following + requiredWords left ≤ cost state + requiredWords input)
    ⟨start, Nat.le_refl _⟩ ?_
  rintro following left ⟨kept, words⟩
  refine Ensures.look ?_
  split
  · next head =>
    obtain ⟨rest, rfl⟩ := List.head?_eq_some_iff.mp head
    exact Ensures.advance fun _ => Ensures.pure ⟨kept, by simpa using words⟩
  · next next _ head =>
    obtain ⟨rest, rfl⟩ := List.head?_eq_some_iff.mp head
    refine (ensures_member each kept).bind ?_
    rintro after left ⟨afterKept, afterWords⟩
    exact Ensures.pure ⟨afterKept, Nat.le_trans afterWords words⟩
  · exact Ensures.unexpected

/-- What is good at the start of a file is good at its end. -/
theorem ensures_topLevel (each : EnsuresMember declared parse good cost) (start : good state) :
    Ensures declared input (topLevel parse expected state) fun found left => good found ∧
      cost found + requiredWords left ≤ cost state + requiredWords input := by
  refine Ensures.repeating (fun following left => good following ∧
    cost following + requiredWords left ≤ cost state + requiredWords input)
    ⟨start, Nat.le_refl _⟩ ?_
  rintro following left ⟨kept, words⟩
  refine Ensures.look ?_
  split
  · next next head =>
    obtain ⟨rest, rfl⟩ := List.head?_eq_some_iff.mp head
    refine (ensures_member each kept).bind ?_
    rintro after left ⟨afterKept, afterWords⟩
    exact Ensures.pure ⟨afterKept, Nat.le_trans afterWords words⟩
  · exact Ensures.pure ⟨kept, words⟩

end Bodies

end Parser

end ProtoSchema
