/-
This file looks at the last token that a parser takes. Every statement ends in a
semicolon and every header of a block in the brace that opens it. A semicolon that
is taken as an empty statement therefore stands behind the brace that closes a
block: no token before it that was read in another way lets it.
-/

import ProtoSchema.Proofs.Insertion.Spots

namespace ProtoSchema

open ProtoSchema.Parser

namespace Parser

variable {Value Result : Type} {last : Token}

/-! ### What is taken -/

/-- Nothing is taken. -/
def Stays (parser : Parser Value) : Prop :=
  ∀ (setting : Setting) (lexemes left : List Lexeme) (value : Value),
    parser setting lexemes = .done value [] left → lexemes = left

/-- What is left is left of the input. -/
def Takes (parser : Parser Value) : Prop :=
  ∀ (setting : Setting) (lexemes left : List Lexeme) (value : Value),
    parser setting lexemes = .done value [] left → ∃ taken, lexemes = taken ++ left

/-- The last token that is taken is the given one. -/
def Ends (last : Token) (parser : Parser Value) : Prop :=
  ∀ (setting : Setting) (lexemes left : List Lexeme) (value : Value),
    parser setting lexemes = .done value [] left →
      ∃ taken lexeme, lexemes = taken ++ lexeme :: left ∧ lexeme.token = last

/-- What takes nothing leaves the end of the input, which is all of it. -/
theorem Stays.takes {parser : Parser Value} (stays : Stays parser) : Takes parser :=
  fun _ _ _ _ done => ⟨[], stays _ _ _ _ done⟩

/-- A parser that is carried along takes tokens from the front. -/
theorem Takes.of_carries {parser second : Parser Value} {image : Value → Value}
    {goal : Value → Prop} (carries : Carries Move.stay parser second image goal) :
    Takes parser := by
  intro setting lexemes left value done
  obtain ⟨-, taken, split, -⟩ := carries.run rfl done
  exact ⟨taken, split⟩

/-- In sequence the second parser takes from what the first one left. -/
theorem Takes.bind {first : Parser Value} {onward : Value → Parser Result} (takes : Takes first)
    (follow : ∀ value, Takes (onward value)) : Takes (first >>= onward) := by
  intro setting lexemes left value done
  obtain ⟨found, middle, firstDone, onwardDone⟩ := bind_eq_done done
  obtain ⟨taken, rfl⟩ := takes _ _ _ _ firstDone
  obtain ⟨more, rfl⟩ := follow found _ _ _ _ onwardDone
  exact ⟨taken ++ more, (List.append_assoc _ _ _).symm⟩

theorem takes_expect {token : Token} : Takes (expect token) := by
  intro setting lexemes left value done
  obtain ⟨lexeme, rfl, -⟩ := expect_eq_done done
  exact ⟨[lexeme], rfl⟩

/-! Looking takes nothing. -/

/-- In sequence nothing is taken if neither parser takes anything. -/
theorem Stays.bind {first : Parser Value} {onward : Value → Parser Result} (stays : Stays first)
    (follow : ∀ value, Stays (onward value)) : Stays (first >>= onward) := by
  intro setting lexemes left value done
  obtain ⟨found, middle, firstDone, onwardDone⟩ := bind_eq_done done
  exact (stays _ _ _ _ firstDone).trans (follow found _ _ _ _ onwardDone)

theorem stays_pure (value : Value) : Stays (pure value) :=
  fun _ _ _ _ done => (Outcome.done.inj done).2.2

theorem stays_ahead {count : Nat} : Stays (ahead count) :=
  fun _ _ _ _ done => (Outcome.done.inj done).2.2

theorem stays_followsBrace : Stays followsBrace := fun _ _ _ _ done => (Outcome.done.inj done).2.2

theorem stays_edition : Stays edition := fun _ _ _ _ done => (Outcome.done.inj done).2.2

theorem stays_report {faults : List SemanticFault} : Stays (report faults) :=
  fun _ _ _ _ done => (Outcome.done.inj done).2.2

theorem stays_here : Stays here := by
  intro setting lexemes left value done
  cases lexemes <;> exact (Outcome.done.inj done).2.2

theorem stays_surroundings : Stays surroundings := by
  intro setting lexemes left value done
  cases lexemes <;> exact (Outcome.done.inj done).2.2

theorem stays_leadingComments : Stays leadingComments :=
  stays_surroundings.bind fun _ => stays_pure _

theorem stays_trailingComment : Stays trailingComment :=
  stays_surroundings.bind fun _ => stays_pure _

/-! ### The last token -/

namespace Ends

variable {first : Parser Value} {onward : Value → Parser Result}

/-- The last token is that of the second parser. -/
theorem after (takes : Takes first) (ends : ∀ value, Ends last (onward value)) :
    Ends last (first >>= onward) := by
  intro setting lexemes left value done
  obtain ⟨found, middle, firstDone, onwardDone⟩ := bind_eq_done done
  obtain ⟨taken, rfl⟩ := takes _ _ _ _ firstDone
  obtain ⟨more, lexeme, rfl, isLast⟩ := ends found _ _ _ _ onwardDone
  exact ⟨taken ++ more, lexeme, (List.append_assoc _ _ _).symm, isLast⟩

/-- The last token is that of the first parser, if the second one takes nothing. -/
theorem before (ends : Ends last first) (stays : ∀ value, Stays (onward value)) :
    Ends last (first >>= onward) := by
  intro setting lexemes left value done
  obtain ⟨found, middle, firstDone, onwardDone⟩ := bind_eq_done done
  obtain rfl := stays found _ _ _ _ onwardDone
  exact ends _ _ _ _ firstDone

theorem expect : Ends last (expect last) := by
  intro setting lexemes left value done
  obtain ⟨lexeme, rfl, isLast, -⟩ := expect_eq_done done
  exact ⟨[], lexeme, rfl, isLast⟩

theorem stop {cause : GrammarCause} {span : Span} :
    Ends last (stop cause span : Parser Value) := fun _ _ _ _ done => nomatch done

theorem unexpected {expected : String} : Ends last (unexpected expected : Parser Value) := by
  intro setting lexemes left value done
  cases lexemes <;> cases done

end Ends

/-- Statements end here, so those that follow end in a semicolon. -/
theorem ends_terminator : Ends (.symbol .semicolon) terminator :=
  Ends.expect.before fun _ => stays_trailingComment.bind fun _ => stays_pure _

/-- Headers of blocks end here. -/
theorem ends_openBrace : Ends (.symbol .leftBrace) openBrace :=
  Ends.expect.before fun _ => stays_trailingComment

theorem ends_emptyStatement : Ends (.symbol .semicolon) emptyStatement := by
  refine .after stays_followsBrace.takes fun follows => ?_
  split_ifs
  · exact Ends.expect.before fun _ => stays_pure _
  · exact .after stays_here.takes fun _ => .stop

/-- An empty statement that is read follows a closing brace. -/
theorem followsBrace_of_empty {setting : Setting} {semicolon : Lexeme} {rest left : List Lexeme}
    (done : emptyStatement setting (semicolon :: rest) = .done () [] left) :
    semicolon.followsBrace = true := by
  obtain ⟨follows, middle, looked, taken⟩ := bind_eq_done done
  obtain ⟨isFollows, -, rfl⟩ := Outcome.done.inj looked
  have same : semicolon.followsBrace = follows := isFollows
  cases follows with
  | true => exact same
  | false => cases taken

/-! ### Statements -/

theorem ends_optionStatement : Ends (.symbol .semicolon) optionStatement :=
  .after stays_leadingComments.takes fun _ => .after takes_expect fun _ =>
    .after (.of_carries carries_setting) fun _ => ends_terminator.before fun _ => stays_pure _

theorem ends_reserved {kind : RangeKind} : Ends (.symbol .semicolon) (reserved kind) :=
  .after stays_leadingComments.takes fun _ => .after takes_expect fun _ =>
    .after (.of_carries carries_reservedItems) fun _ => ends_terminator.before fun _ => stays_pure _

theorem ends_extensionRanges : Ends (.symbol .semicolon) extensionRanges :=
  .after stays_leadingComments.takes fun _ => .after takes_expect fun _ =>
    .after (.of_carries carries_ranges) fun _ => .after (.of_carries carries_optionalSettings)
      fun _ => ends_terminator.before fun _ => stays_pure _

theorem ends_enumValue : Ends (.symbol .semicolon) enumValue :=
  .after stays_leadingComments.takes fun _ => .after (.of_carries carries_name) fun _ =>
    .after takes_expect fun _ => .after (.of_carries carries_signedInt) fun _ =>
      .after stays_report.takes fun _ => .after (.of_carries carries_optionalSettings) fun _ =>
        ends_terminator.before fun _ => stays_pure _

/-- A field ends in its semicolon, whatever label and type it has. -/
theorem ends_field {context : FieldContext} : Ends (.symbol .semicolon) (field context) := by
  refine .after stays_leadingComments.takes fun _ => .after stays_here.takes fun _ => ?_
  refine .after (.of_carries carries_fieldLabel) fun _ => .after stays_ahead.takes fun _ => ?_
  dsimp only
  split
  · exact .after stays_here.takes fun _ => .stop
  · refine .after (.of_carries carries_fieldType) fun _ => ?_
    refine .after (.of_carries carries_name) fun _ => .after takes_expect fun _ => ?_
    refine .after (.of_carries carries_fieldNumber) fun _ => ?_
    refine .after (.of_carries carries_optionalSettings) fun _ => ?_
    refine .after stays_edition.takes fun _ => .after stays_report.takes fun _ => ?_
    exact ends_terminator.before fun _ => stays_pure _

theorem ends_package : Ends (.symbol .semicolon) package :=
  .after stays_leadingComments.takes fun _ => .after takes_expect fun _ =>
    .after (.of_carries carries_dottedName) fun _ => ends_terminator.before fun _ => stays_pure _

theorem ends_import : Ends (.symbol .semicolon) «import» :=
  .after stays_leadingComments.takes fun _ => .after takes_expect fun _ =>
    .after (.of_carries carries_importKind) fun _ => .after (.of_carries carries_text) fun _ =>
      ends_terminator.before fun _ => stays_pure _

/-- The edition is declared by a statement, or not at all. -/
theorem declaredEdition_cases {setting : Setting} {lexemes left : List Lexeme}
    {declared : Option Edition} (done : declaredEdition setting lexemes = .done declared [] left) :
    lexemes = left ∨
      ∃ taken lexeme, lexemes = taken ++ lexeme :: left ∧ lexeme.token = .symbol .semicolon := by
  rw [declaredEdition, look_bind] at done
  split at done
  · have ends : Ends (.symbol .semicolon) editionStatement :=
      .after takes_expect fun _ => .after takes_expect fun _ => .after (.of_carries carries_text)
        fun _ => .after stays_report.takes fun _ => ends_terminator.before fun _ => stays_pure _
    exact .inr (ends.before (fun _ => stays_pure _) _ _ _ _ done)
  · exact .inl (stays_pure _ _ _ _ _ done)

/-! ### Headers -/

/-- The header of every block ends in its opening brace. -/
theorem ends_header (kind : Block) : Ends (.symbol .leftBrace) kind.form.header := by
  have named {Value : Type} (word : String)
      (result : Comments → Span → Name → Option String → Value) :
      Ends (.symbol .leftBrace) (do
        let comments ← leadingComments
        let start ← Parser.word word
        let name ← name
        let trailing ← openBrace
        return result comments start name trailing) :=
    .after stays_leadingComments.takes fun _ => .after takes_expect fun _ =>
      .after (.of_carries carries_name) fun _ => ends_openBrace.before fun _ => stays_pure _
  cases kind with
  | message depth path => exact named _ _
  | enumeration => exact named _ _
  | oneof index => exact named _ _
  | service => exact named _ _
  | extension parent =>
    exact .after stays_leadingComments.takes fun _ => .after takes_expect fun _ =>
      .after (.of_carries carries_typeName) fun _ => ends_openBrace.before fun _ => stays_pure _
  | method =>
    exact .after stays_leadingComments.takes fun _ => .after takes_expect fun _ =>
      .after (.of_carries carries_name) fun _ => .after (.of_carries carries_methodType) fun _ =>
        .after takes_expect fun _ => .after (.of_carries carries_methodType) fun _ =>
          ends_openBrace.before fun _ => stays_pure _

/-! ### Members -/

theorem takes_methodStart : Takes methodStart :=
  stays_leadingComments.takes.bind fun _ => takes_expect.bind fun _ =>
    (Takes.of_carries carries_name).bind fun _ => (Takes.of_carries carries_methodType).bind
      fun _ => takes_expect.bind fun _ => (Takes.of_carries carries_methodType).bind
        fun _ => (stays_pure _).takes

theorem stays_addPackage {file : File} {package : Package} : Stays (addPackage file package) := by
  unfold addPackage
  split
  · exact stays_report.bind fun _ => stays_pure _
  · exact stays_pure _

/-- What is no block is a statement. -/
theorem ends_member {body : Body} {state : body.State} {next : Token} {parser : Parser body.State}
    (found : body.member state next = some parser) (noBlock : body.opened? state next = none) :
    Ends (.symbol .semicolon) parser := by
  rw [Body.opened?.eq_def] at noBlock
  cases body with
  | file =>
    rw [Body.member, fileMember.eq_def] at found
    split at found
    · next text =>
      dsimp only at noBlock
      split_ifs at found noBlock
      all_goals obtain rfl := Option.some.inj found
      · exact ends_import.before fun _ => stays_pure _
      · exact ends_package.before fun _ => stays_addPackage
      · exact ends_optionStatement.before fun _ => stays_pure _
    · cases found
  | block kind =>
    unfold Body.member at found
    cases kind with
    | message depth path =>
      unfold Block.form BlockForm.message messageMember at found
      dsimp only at found
      split at found
      · next text =>
        dsimp only at noBlock
        split_ifs at found noBlock
        all_goals obtain rfl := Option.some.inj found
        · cases depth with
          | zero =>
            have tooDeep : Ends (.symbol .semicolon)
                (message 0 (path ++ [state.messages.length])) :=
              .after takes_expect fun _ => .stop
            exact tooDeep.before fun _ => stays_pure _
          | succ depth => cases noBlock
        · exact ends_reserved.before fun _ => stays_pure _
        · exact ends_extensionRanges.before fun _ => stays_pure _
        · exact ends_optionStatement.before fun _ => stays_pure _
        · exact ends_field.before fun _ => stays_pure _
      · obtain rfl := Option.some.inj found
        exact ends_field.before fun _ => stays_pure _
      · cases found
    | enumeration =>
      unfold Block.form BlockForm.enumeration enumMember at found
      dsimp only at found
      split at found
      · split_ifs at found
        all_goals obtain rfl := Option.some.inj found
        · exact ends_optionStatement.before fun _ => stays_pure _
        · exact ends_reserved.before fun _ => stays_pure _
        · exact ends_enumValue.before fun _ => stays_pure _
      · cases found
    | oneof index =>
      unfold Block.form BlockForm.oneof oneofMember at found
      dsimp only at found
      split_ifs at found
      all_goals obtain rfl := Option.some.inj found
      · exact ends_optionStatement.before fun _ => stays_pure _
      · exact ends_field.before fun _ => stays_pure _
    | extension parent =>
      unfold Block.form BlockForm.extension extensionMember at found
      dsimp only at found
      split_ifs at found
      all_goals obtain rfl := Option.some.inj found
      · exact ends_optionStatement.before fun _ => stays_pure _
      · exact ends_field.before fun _ => stays_pure _
    | service =>
      unfold Block.form BlockForm.service serviceMember at found
      dsimp only at found
      split_ifs at found with isMethod isOption
      · subst isMethod
        cases noBlock
      · obtain rfl := Option.some.inj found
        exact ends_optionStatement.before fun _ => stays_pure _
    | method =>
      unfold Block.form BlockForm.method at found
      dsimp only at found
      split_ifs at found
      obtain rfl := Option.some.inj found
      exact ends_optionStatement.before fun _ => stays_pure _

/-- A block that is read has a header, or it is a method without a body. -/
theorem header_of_done {kind : Block} {setting : Setting} {lexemes left : List Lexeme}
    {value : kind.Value} (done : kind.parser setting lexemes = .done value [] left) :
    (∃ begun middle, kind.form.header setting lexemes = .done begun [] middle) ∨
      ∃ taken lexeme, lexemes = taken ++ lexeme :: left ∧ lexeme.token = .symbol .semicolon := by
  by_cases isMethod : kind = .method
  · subst isMethod
    rw [Block.parser, method_eq] at done
    obtain ⟨begun, middle, started, ended⟩ := bind_eq_done done
    obtain ⟨found, between, endDone, answered⟩ := bind_eq_done ended
    obtain ⟨-, -, rfl⟩ := Outcome.done.inj answered
    rw [methodEnd, look_bind] at endDone
    generalize middle.head?.map (·.token) = next at endDone
    split at endDone
    · obtain ⟨taken, rfl⟩ := takes_methodStart _ _ _ _ started
      obtain ⟨more, lexeme, rfl, isLast⟩ :=
        ends_terminator.before (fun _ => stays_pure _) _ _ _ _ endDone
      exact .inr ⟨taken ++ more, lexeme, (List.append_assoc _ _ _).symm, isLast⟩
    · obtain ⟨trailing, behind, opened, -⟩ := bind_eq_done endDone
      refine .inl ⟨{ begun with comments := { begun.comments with trailing } }, behind, ?_⟩
      rw [Block.form, methodHeader_eq, bind_of_done started, bind_of_done opened]
      rfl
    · cases middle <;> cases endDone
  · rw [Block.parser_eq isMethod] at done
    obtain ⟨begun, middle, header, -⟩ := bind_eq_done done
    exact .inl ⟨begun, middle, header⟩

end Parser

/-! ### Before a spot -/

namespace Spot

variable {setting : Setting} {spot first second : Spot}

/-- The input of a spot is left of the input before it, and what is known has what it is known to
have. -/
theorem Leads.input (leads : Leads setting first second) (holds : first.body.Kept first.state) :
    second.body.Kept second.state ∧ ∃ taken, first.input = taken ++ second.input := by
  cases leads with
  | @member body state following lexeme rest left goesOn read =>
    have members : CarriesMember Move.stay body.member _ _ := body.carriesMember
    obtain ⟨kept, taken, split, -⟩ := (carries_member members holds).run rfl read
    exact ⟨kept, taken, split⟩
  | @enter body state lexeme rest middle kind begun opens read =>
    have carries : CarriesBlock Move.stay kind.form _ _ _ _ _ := kind.carries
    obtain ⟨started, taken, split, -⟩ := carries.header.run rfl read
    exact ⟨carries.start begun started, taken, split⟩

/-- What is left at a later point is left of what was there before. -/
theorem input_of_reaches (reaches : Relation.ReflTransGen (Leads setting) first second)
    (holds : first.body.Kept first.state) :
    second.body.Kept second.state ∧ ∃ taken, first.input = taken ++ second.input := by
  induction reaches with
  | refl => exact ⟨holds, [], rfl⟩
  | tail _ leads inductionHypothesis =>
    obtain ⟨kept, taken, split⟩ := inductionHypothesis
    obtain ⟨keptNext, more, splitNext⟩ := leads.input kept
    exact ⟨keptNext, taken ++ more, by rw [split, splitNext, List.append_assoc]⟩

/-- The token before a spot is no closing brace, or it closes a block. -/
theorem Leads.behind (leads : Leads setting first second) :
    (∃ taken last, first.input = taken ++ last :: second.input ∧
        last.token ≠ .symbol .rightBrace) ∨
      ∃ (kind : Block) (state : kind.State) (brace : Lexeme), brace.token = .symbol .rightBrace ∧
        Relation.ReflTransGen (Leads setting) first
          ⟨.block kind, state, brace :: second.input⟩ := by
  cases leads with
  | @member body state following lexeme rest left goesOn read =>
    -- A semicolon behind the member is no closing brace.
    have ended {taken : List Lexeme} {last : Lexeme}
        (split : lexeme :: rest = taken ++ last :: left)
        (isLast : last.token = .symbol .semicolon) :
        ∃ taken last, lexeme :: rest = taken ++ last :: left ∧ last.token ≠ .symbol .rightBrace :=
      ⟨taken, last, split, by simp [isLast]⟩
    cases opens : body.opened? state lexeme.token with
    | none =>
      have ends : Ends (.symbol .semicolon)
          (Parser.member body.member body.expected state lexeme.token) := by
        unfold Parser.member
        split_ifs with isSemicolon
        · exact ends_emptyStatement.before fun _ => stays_pure _
        · split
          · next parser found => exact ends_member found opens
          · exact .unexpected
      obtain ⟨taken, last, split, isLast⟩ := ends _ _ _ _ read
      exact .inl (ended split isLast)
    | some kind =>
      rw [Body.readMember_of_opened opens] at read
      obtain ⟨value, middle, parsed, answered⟩ := bind_eq_done read
      obtain ⟨-, -, rfl⟩ := Outcome.done.inj answered
      obtain ⟨begun, behind, header⟩ | ⟨taken, last, split, isLast⟩ := header_of_done parsed
      · rw [kind.parser_of_header header] at parsed
        obtain ⟨known, stop, bodyDone, -⟩ := rest_eq_done_iff.mp parsed
        obtain ⟨brace, closes, reaches⟩ := Spot.reaches_close bodyDone
        exact .inr ⟨kind, known, brace, closes, .head (.enter opens header) reaches⟩
      · exact .inl (ended split isLast)
  | @enter body state lexeme rest left kind begun opens read =>
    obtain ⟨taken, last, split, isLast⟩ := ends_header kind _ _ _ _ read
    exact .inl ⟨taken, last, split, by simp [isLast]⟩

/-- What stands before a spot that the parser comes to: nothing, a token that is no closing brace,
or the brace that closes a block. -/
theorem Visited.behind {lexemes : List Lexeme} (visited : Visited setting lexemes spot) :
    lexemes = spot.input ∨
      (∃ taken last, lexemes = taken ++ last :: spot.input ∧ last.token ≠ .symbol .rightBrace) ∨
        ∃ (kind : Block) (state : kind.State) (brace : Lexeme), brace.token = .symbol .rightBrace ∧
          Visited setting lexemes ⟨.block kind, state, brace :: spot.input⟩ := by
  obtain ⟨declared, input, isEdition, reaches⟩ := visited
  obtain ⟨front, split⟩ := Takes.of_carries carries_declaredEdition _ _ _ _ isEdition
  obtain reached | ⟨previous, before, leads⟩ := Relation.ReflTransGen.cases_tail reaches
  · subst reached
    obtain same | ⟨taken, last, split, isLast⟩ := declaredEdition_cases isEdition
    · exact .inl same
    · exact .inr (.inl ⟨taken, last, split, by simp [isLast]⟩)
  · obtain ⟨-, taken, inputSplit⟩ := input_of_reaches before trivial
    obtain ⟨more, last, lastSplit, isLast⟩ | ⟨kind, state, brace, closes, inside⟩ := leads.behind
    · refine .inr (.inl ⟨front ++ (taken ++ more), last, ?_, isLast⟩)
      have whole : input = taken ++ previous.input := inputSplit
      rw [split, whole, lastSplit, List.append_assoc, List.append_assoc]
    · exact .inr (.inr
        ⟨kind, state, brace, closes, declared, input, isEdition, before.trans inside⟩)

/-- A semicolon that is read as a member is an empty statement, which follows a closing brace. -/
theorem Visited.followsBrace {lexemes rest left : List Lexeme} {parsed : File} {body : Body}
    {state : body.State} {semicolon : Lexeme}
    (done : Parser.file setting lexemes = .done parsed [] left)
    (isSemicolon : semicolon.token = .symbol .semicolon)
    (visited : Visited setting lexemes ⟨body, state, semicolon :: rest⟩) :
    semicolon.followsBrace = true := by
  obtain ⟨declared, input, isEdition, loop, -⟩ := file_eq_done_iff.mp done
  obtain ⟨_, _, sameEdition, reaches⟩ := visited
  obtain ⟨rfl, -, rfl⟩ := Outcome.done.inj (isEdition.symm.trans sameEdition)
  obtain ⟨budget, result, behind, goesOn⟩ :=
    completes_of_reaches reaches ⟨input, parsed, left, loop⟩
  obtain ⟨following, middle, read⟩ := Body.exists_of_repeatFor goesOn (by simp [isSemicolon])
  rw [Parser.member, if_pos isSemicolon] at read
  obtain ⟨_, between, empty, -⟩ := bind_eq_done read
  exact followsBrace_of_empty empty

end Spot

end ProtoSchema
