/-
This file follows the comments that parsers take from the tokens around them.
Whenever a parser goes through without a fault, what it answers and the tokens
that it leaves, which are left of its input, meet a goal. Most of what is read
has no comments; of it, only that it takes tokens is needed.
-/

import ProtoSchema.Proofs.Comment.Rows
import ProtoSchema.Proofs.Insertion.Endings

namespace ProtoSchema

namespace Parser

variable {Value Result State : Type} {atEnd : Surroundings} {lexemes : List Lexeme}
variable {parser : Parser Value} {onward : Value → Parser Result}

theorem Ends.takes {last : Token} (ends : Ends last parser) : Takes parser := by
  intro setting lexemes left value done
  obtain ⟨taken, lexeme, rfl, -⟩ := ends _ _ _ _ done
  exact ⟨taken ++ [lexeme], List.append_cons _ _ _⟩

theorem takes_advance : Takes advance := by
  intro setting lexemes left value done
  cases lexemes with
  | nil =>
    obtain ⟨-, -, rfl⟩ := Outcome.done.inj done
    exact ⟨[], rfl⟩
  | cons lexeme rest =>
    obtain ⟨-, -, rfl⟩ := Outcome.done.inj done
    exact ⟨[lexeme], rfl⟩

/-- Whenever the parser goes through the tokens without a fault, what it answers and what is left
meet the goal; the comments behind the last token are the given ones. -/
def Notes (atEnd : Surroundings) (lexemes : List Lexeme) (parser : Parser Value)
    (goal : Value → List Lexeme → Prop) : Prop :=
  ∀ (setting : Setting) (value : Value) (rest : List Lexeme), setting.atEnd = atEnd →
    parser setting lexemes = .done value [] rest → rest <:+ lexemes ∧ goal value rest

namespace Notes

variable {goal weaker : Value → List Lexeme → Prop} {target : Result → List Lexeme → Prop}

theorem mono (notes : Notes atEnd lexemes parser goal)
    (implies : ∀ value rest, goal value rest → weaker value rest) :
    Notes atEnd lexemes parser weaker := by
  intro setting value rest sameEnd done
  obtain ⟨left, meets⟩ := notes setting value rest sameEnd done
  exact ⟨left, implies value rest meets⟩

theorem bind (first : Notes atEnd lexemes parser goal)
    (second : ∀ value rest, rest <:+ lexemes → goal value rest →
      Notes atEnd rest (onward value) target) :
    Notes atEnd lexemes (parser >>= onward) target := by
  intro setting result rest sameEnd done
  obtain ⟨value, middle, firstDone, secondDone⟩ := bind_eq_done done
  obtain ⟨left, met⟩ := first setting value middle sameEnd firstDone
  obtain ⟨leftRest, meets⟩ := second value middle left met setting result rest sameEnd secondDone
  exact ⟨leftRest.trans left, meets⟩

theorem pure {value : Value} (meets : goal value lexemes) :
    Notes atEnd lexemes (pure value) goal := by
  rintro setting found rest - done
  obtain ⟨rfl, -, rfl⟩ := Outcome.done.inj done
  exact ⟨List.suffix_refl _, meets⟩

/-- What is read without comments is passed over. -/
theorem takes (takes : Takes parser)
    (notes : ∀ value rest, rest <:+ lexemes → Notes atEnd rest (onward value) target) :
    Notes atEnd lexemes (parser >>= onward) target := by
  have first : Notes atEnd lexemes parser fun _ _ => True := by
    rintro setting value rest - done
    obtain ⟨taken, rfl⟩ := takes _ _ _ _ done
    exact ⟨List.suffix_append _ _, trivial⟩
  exact first.bind fun value rest left _ => notes value rest left

/-- What is looked at is left. -/
theorem stays (stays : Stays parser) (notes : ∀ value, Notes atEnd lexemes (onward value) target) :
    Notes atEnd lexemes (parser >>= onward) target := by
  have first : Notes atEnd lexemes parser fun _ rest => rest = lexemes := by
    rintro setting value rest - done
    obtain rfl := stays _ _ _ _ done
    exact ⟨List.suffix_refl _, rfl⟩
  refine first.bind ?_
  rintro value _ - rfl
  exact notes value

theorem look {next : Option Token → Parser Result}
    (notes : Notes atEnd lexemes (next (lexemes.head?.map (·.token))) target) :
    Notes atEnd lexemes (look >>= next) target := by
  intro setting result rest sameEnd done
  rw [look_bind] at done
  exact notes setting result rest sameEnd done

theorem unexpected {expected : String} : Notes atEnd lexemes (unexpected expected) goal := by
  rintro setting value rest - done
  cases lexemes <;> cases done

theorem stop {cause : GrammarCause} {span : Span} : Notes atEnd lexemes (stop cause span) goal :=
  fun _ _ _ _ done => nomatch done

/-- A parser that finds a fault does not go through without one. -/
theorem faulty {fault : SemanticFault} {faults : List SemanticFault}
    {next : Unit → Parser Result} :
    Notes atEnd lexemes (report (fault :: faults) >>= next) target := by
  rintro setting value rest - done
  obtain ⟨_, middle, reported, -⟩ := bind_eq_done done
  exact nomatch (Outcome.done.inj reported).2.1

theorem expect {token : Token} {next : Span → Parser Result}
    (notes : ∀ lexeme rest, lexemes = lexeme :: rest →
      Notes atEnd rest (next lexeme.span) target) :
    Notes atEnd lexemes (expect token >>= next) target := by
  have first : Notes atEnd lexemes (Parser.expect token) fun span rest =>
      ∃ lexeme, lexemes = lexeme :: rest ∧ span = lexeme.span := by
    rintro setting span rest - done
    obtain ⟨lexeme, rfl, -, same⟩ := expect_eq_done done
    exact ⟨List.suffix_cons _ _, lexeme, rfl, same⟩
  refine first.bind ?_
  rintro _ rest - ⟨lexeme, split, rfl⟩
  exact notes lexeme rest split

/-- The place of the next token is asked for. -/
theorem here {next : Span → Parser Result}
    (notes : ∀ span, (∀ lexeme rest, lexemes = lexeme :: rest → span = lexeme.span) →
      Notes atEnd lexemes (next span) target) :
    Notes atEnd lexemes (here >>= next) target := by
  have first : Notes atEnd lexemes Parser.here fun span rest => rest = lexemes ∧
      ∀ lexeme rest, lexemes = lexeme :: rest → span = lexeme.span := by
    rintro setting span rest - done
    cases lexemes with
    | nil =>
      obtain ⟨-, -, rfl⟩ := Outcome.done.inj done
      exact ⟨List.suffix_refl _, rfl, fun _ _ split => nomatch split⟩
    | cons lexeme tail =>
      obtain ⟨rfl, -, rfl⟩ := Outcome.done.inj done
      refine ⟨List.suffix_refl _, rfl, fun other rest split => ?_⟩
      rw [(List.cons.inj split).1]
  refine first.bind ?_
  rintro span _ - ⟨rfl, same⟩
  exact notes span same

/-- A name stands where its token does. -/
theorem name {next : Name → Parser Result}
    (notes : ∀ name lexeme rest, lexemes = lexeme :: rest → name.span = lexeme.span →
      Notes atEnd rest (next name) target) :
    Notes atEnd lexemes (name >>= next) target := by
  have first : Notes atEnd lexemes Parser.name fun name rest =>
      ∃ lexeme, lexemes = lexeme :: rest ∧ name.span = lexeme.span := by
    refine look ?_
    split
    · next text head =>
      rintro setting name rest - done
      cases lexemes with
      | nil => cases head
      | cons lexeme tail =>
        obtain ⟨rfl, -, rfl⟩ := Outcome.done.inj done
        exact ⟨List.suffix_cons _ _, lexeme, rfl, rfl⟩
    · exact unexpected
  refine first.bind ?_
  rintro name rest - ⟨lexeme, split, named⟩
  exact notes name lexeme rest split named

/-! ### Comments -/

/-- The comments above a declaration are those sorted before its first token. -/
theorem leadingComments {next : Comments → Parser Result}
    (notes : Notes atEnd lexemes
      (next ⟨(around atEnd lexemes).detached, (around atEnd lexemes).leading, none⟩) target) :
    Notes atEnd lexemes (leadingComments >>= next) target := by
  have first : Notes atEnd lexemes Parser.leadingComments fun comments rest => rest = lexemes ∧
      comments = ⟨(around atEnd lexemes).detached, (around atEnd lexemes).leading, none⟩ := by
    rintro setting comments rest rfl done
    cases lexemes <;>
    · obtain ⟨rfl, -, rfl⟩ := Outcome.done.inj done
      exact ⟨List.suffix_refl _, rfl, rfl⟩
  refine first.bind ?_
  rintro _ _ - ⟨rfl, rfl⟩
  exact notes

/-- The comment that trails is the one sorted behind the token before. -/
theorem trailing {goal : Option String → List Lexeme → Prop}
    (meets : goal (around atEnd lexemes).trailing lexemes) :
    Notes atEnd lexemes trailingComment goal := by
  rintro setting comment rest rfl done
  cases lexemes <;>
  · obtain ⟨rfl, -, rfl⟩ := Outcome.done.inj done
    exact ⟨List.suffix_refl _, meets⟩

/-- The comment behind the brace that opens a body is the one sorted there. -/
theorem openBrace {next : Option String → Parser Result}
    (notes : ∀ brace rest, lexemes = brace :: rest →
      Notes atEnd rest (next (around atEnd rest).trailing) target) :
    Notes atEnd lexemes (openBrace >>= next) target := by
  have first : Notes atEnd lexemes Parser.openBrace fun comment rest =>
      comment = (around atEnd rest).trailing ∧ ∃ brace, lexemes = brace :: rest :=
    expect fun brace rest split => trailing ⟨rfl, brace, split⟩
  refine first.bind ?_
  rintro _ rest - ⟨rfl, brace, split⟩
  exact notes brace rest split

/-- The comment behind the semicolon that ends a declaration is the one sorted there. -/
theorem terminator {next : Span × Option String → Parser Result}
    (notes : ∀ semicolon rest, lexemes = semicolon :: rest →
      Notes atEnd rest (next (semicolon.span, (around atEnd rest).trailing)) target) :
    Notes atEnd lexemes (terminator >>= next) target := by
  have first : Notes atEnd lexemes Parser.terminator fun found rest => ∃ semicolon,
      lexemes = semicolon :: rest ∧ found = (semicolon.span, (around atEnd rest).trailing) := by
    refine expect fun semicolon rest split => ?_
    have behind : Notes atEnd rest trailingComment fun comment left => left = rest ∧
        comment = (around atEnd rest).trailing := trailing ⟨rfl, rfl⟩
    refine behind.bind ?_
    rintro _ _ - ⟨rfl, rfl⟩
    exact .pure ⟨semicolon, split, rfl⟩
  refine first.bind ?_
  rintro _ rest - ⟨semicolon, split, rfl⟩
  exact notes semicolon rest split

/-! ### Loops -/

/-- Loops keep an invariant. -/
theorem repeating {step : State → Parser (State ⊕ Result)} {state : State}
    (invariant : State → List Lexeme → Prop) (start : invariant state lexemes)
    (each : ∀ state lexemes, invariant state lexemes → Notes atEnd lexemes (step state)
      fun found rest => found.elim (invariant · rest) (target · rest)) :
    Notes atEnd lexemes (repeating step state) target := by
  suffices loop : ∀ (budget : List Lexeme) state lexemes, invariant state lexemes →
      Notes atEnd lexemes (repeatFor step budget state) target from
    fun setting => loop lexemes state lexemes start setting
  intro budget
  induction budget with
  | nil =>
    intro state lexemes holds
    refine (each state lexemes holds).bind fun found rest _ kept => ?_
    cases found with
    | inl following => exact here fun _ _ => stop
    | inr result => exact pure kept
  | cons lexeme budget inductionHypothesis =>
    intro state lexemes holds
    refine (each state lexemes holds).bind fun found rest _ kept => ?_
    cases found with
    | inl following => exact inductionHypothesis following rest kept
    | inr result => exact pure kept

end Notes

/-! ### Bodies -/

/-- What is known of the state stays known later, and after every member. -/
structure Noting (atEnd : Surroundings) (parse : Member State)
    (invariant : State → List Lexeme → Prop) : Prop where
  later : ∀ {state lexemes rest}, rest <:+ lexemes → invariant state lexemes → invariant state rest
  member : ∀ {state next parser lexemes}, parse state next = some parser →
    invariant state lexemes → Notes atEnd lexemes parser invariant

variable {parse : Member State} {invariant : State → List Lexeme → Prop} {expected : String}
variable {state : State}

theorem notes_member {next : Token} (noting : Noting atEnd parse invariant)
    (holds : invariant state lexemes) :
    Notes atEnd lexemes (member parse expected state next) invariant := by
  rw [member]
  split
  · exact .takes ends_emptyStatement.takes fun _ rest left =>
      .pure (noting.later left holds)
  · split
    · next parser found => exact noting.member found holds
    · exact .unexpected

theorem notes_body (noting : Noting atEnd parse invariant) (holds : invariant state lexemes) :
    Notes atEnd lexemes (body parse expected state) fun read rest => invariant read.1 rest := by
  refine .repeating invariant holds fun state lexemes holds => .look ?_
  split
  · exact .takes takes_advance fun _ rest left => .pure (noting.later left holds)
  · exact (notes_member noting holds).bind fun _ _ _ kept => .pure kept
  · exact .unexpected

theorem notes_topLevel (noting : Noting atEnd parse invariant) (holds : invariant state lexemes) :
    Notes atEnd lexemes (topLevel parse expected state) invariant := by
  refine .repeating invariant holds fun state lexemes holds => .look ?_
  split
  · exact (notes_member noting holds).bind fun _ _ _ kept => .pure kept
  · exact .pure holds

end Parser

end ProtoSchema
