/-
This file shows that the enum which the parser answers, with faults or without, is
spelled by the tokens that it takes. The enum has the members that stand between the
braces, those of each kind in the order of the source, and it may have aliases just
in case the last of the settings about them says so. The tokens spell no other enum.
-/

import Mathlib.Data.List.Induction
import ProtoSchema.Grammar.Enums
import ProtoSchema.Proofs.Derivation.Members

namespace ProtoSchema

/-! ### Aliases -/

namespace OptionSetting

theorem isTrue_iff (setting : OptionSetting) :
    setting.isTrue = true ↔ ∃ span, setting.value = .bool true span := by
  unfold isTrue
  split
  · next span same => simp [same]
  · next other =>
    refine ⟨fun absurdity => (nomatch absurdity), fun ⟨span, same⟩ => (other span same).elim⟩

end OptionSetting

namespace Enumeration

/-- The last setting about aliases says that they are allowed. -/
def LastAllowsAliases (settings : List OptionSetting) : Prop :=
  ∃ before setting after, settings = before ++ setting :: after ∧
    setting.isNamed "allow_alias" = true ∧ (∃ span, setting.value = .bool true span) ∧
    ∀ later ∈ after, later.isNamed "allow_alias" = false

theorem aliasesAfter_append (options : List OptionStatement) (option : OptionStatement) :
    aliasesAfter (options ++ [option]) =
      if option.setting.isNamed "allow_alias" then option.setting.isTrue
      else aliasesAfter options := by
  rw [aliasesAfter, List.foldl_append]
  rfl

/-- The last of the settings about aliases is the first one from behind. -/
theorem aliasesAfter_eq (options : List OptionStatement) :
    aliasesAfter options =
      ((options.map OptionStatement.setting).reverse.find? (·.isNamed "allow_alias")).any
        OptionSetting.isTrue := by
  induction options using List.reverseRecOn with
  | nil => rfl
  | append_singleton options last inductionHypothesis =>
    rw [aliasesAfter_append, List.map_append, List.map_singleton, List.reverse_append,
      List.reverse_singleton, List.singleton_append, List.find?_cons, inductionHypothesis]
    cases last.setting.isNamed "allow_alias" <;> rfl

theorem aliasesAfter_iff (options : List OptionStatement) :
    aliasesAfter options = true ↔ LastAllowsAliases (options.map OptionStatement.setting) := by
  rw [aliasesAfter_eq, Option.any_eq_true, LastAllowsAliases]
  generalize options.map OptionStatement.setting = settings
  simp only [List.find?_eq_some_iff_append, OptionSetting.isTrue_iff, Bool.not_eq_true']
  constructor
  · rintro ⟨setting, ⟨named, after, before, eq, silent⟩, allows⟩
    refine ⟨before.reverse, setting, after.reverse, ?_, named, allows, fun later member =>
      silent later (List.mem_reverse.mp member)⟩
    rw [← List.reverse_reverse settings, eq, List.reverse_append, List.reverse_cons,
      List.append_assoc, List.singleton_append]
  · rintro ⟨before, setting, after, rfl, named, allows, silent⟩
    refine ⟨setting, ⟨named, after.reverse, before.reverse, ?_, fun later member =>
      silent later (List.mem_reverse.mp member)⟩, allows⟩
    rw [List.reverse_append, List.reverse_cons, List.append_assoc, List.singleton_append]

/-! ### What an enum has -/

/-- The enum has the members, those of each kind in order. -/
structure HasMembers (enumeration : Enumeration) (members : List EnumMember) : Prop where
  options : enumeration.options.map OptionStatement.setting = members.filterMap EnumMember.option?
  reserved : enumeration.reserved.map Reserved.items = members.filterMap EnumMember.reserved?
  values : enumeration.values.map (fun value => (value.name, value.number, value.options)) =
    members.filterMap EnumMember.value?

/-- The tokens are those of an enum of this name and of no other, and the enum has the members that
they are for; it may have aliases if the last of the settings about them there says so. -/
def SpelledBy (enumeration : Enumeration) (tokens : List Lexeme) : Prop :=
  ∃ members, EnumPhrase tokens (enumeration.name, members) ∧
    (∀ other, EnumPhrase tokens other → other = (enumeration.name, members)) ∧
    enumeration.HasMembers members ∧
    (enumeration.allowsAliases = true ↔
      LastAllowsAliases (members.filterMap EnumMember.option?))

/-- What is known of an enum whose body was read up to some place. -/
structure Known (name : Name) (members : List EnumMember) (enumeration : Enumeration) : Prop where
  name : enumeration.name = name
  members : enumeration.HasMembers members
  aliases : enumeration.allowsAliases = aliasesAfter enumeration.options

namespace Known

variable {name : Name} {members : List EnumMember} {enumeration : Enumeration}

theorem option (known : enumeration.Known name members) (statement : OptionStatement) :
    (enumeration.addOption statement).Known name (members ++ [.option statement.setting]) := by
  refine ⟨known.name, ⟨?_, ?_, ?_⟩, ?_⟩
  · simp [addOption, known.members.options, EnumMember.option?]
  · simp [addOption, known.members.reserved, EnumMember.reserved?]
  · simp [addOption, known.members.values, EnumMember.value?]
  · rw [addOption, aliasesAfter_append, known.aliases]

theorem reserved (known : enumeration.Known name members) (statement : Reserved) :
    ({ enumeration with reserved := enumeration.reserved ++ [statement] } : Enumeration).Known name
      (members ++ [.reserved statement.items]) := by
  refine ⟨known.name, ⟨?_, ?_, ?_⟩, known.aliases⟩
  · simp [known.members.options, EnumMember.option?]
  · simp [known.members.reserved, EnumMember.reserved?]
  · simp [known.members.values, EnumMember.value?]

theorem value (known : enumeration.Known name members) (value : EnumValue) :
    ({ enumeration with values := enumeration.values ++ [value] } : Enumeration).Known name
      (members ++ [.value value.name value.number value.options]) := by
  refine ⟨known.name, ⟨?_, ?_, ?_⟩, known.aliases⟩
  · simp [known.members.options, EnumMember.option?]
  · simp [known.members.reserved, EnumMember.reserved?]
  · simp [known.members.values, EnumMember.value?]

end Known

end Enumeration

/-! ### What the parser takes -/

theorem MembersPhrase.append {first second : List Lexeme} {members others : List EnumMember}
    (isFirst : MembersPhrase first members) (isSecond : MembersPhrase second others) :
    MembersPhrase (first ++ second) (members ++ others) := by
  induction isFirst with
  | nil => exact isSecond
  | empty isEmpty _ inductionHypothesis => exact .empty isEmpty inductionHypothesis
  | member one _ inductionHypothesis =>
    rw [List.append_assoc]
    exact .member one inductionHypothesis

namespace Parser

variable {input : List Lexeme}

/-! The comments around declarations are no tokens. -/

theorem derives_leadingComments : Derives input leadingComments fun _ rest => rest = input :=
  Derives.surroundings fun _ => Derives.pure rfl

theorem derives_trailingComment : Derives input trailingComment fun _ rest => rest = input :=
  Derives.surroundings fun _ => Derives.pure rfl

theorem derives_terminator :
    Derives input terminator fun _ rest =>
      ∃ last, input = last :: rest ∧ last.token = .symbol .semicolon := by
  refine Derives.expect ?_
  rintro last rest rfl isEnd
  refine derives_trailingComment.bind ?_
  rintro comment _ rfl
  exact Derives.pure ⟨last, rfl, isEnd⟩

theorem derives_openBrace :
    Derives input openBrace fun _ rest =>
      ∃ opening, input = opening :: rest ∧ opening.token = .symbol .leftBrace := by
  refine Derives.expect ?_
  rintro opening rest rfl isOpening
  refine derives_trailingComment.mono ?_
  rintro comment _ rfl
  exact ⟨opening, rfl, isOpening⟩

theorem derives_emptyStatement :
    Derives input emptyStatement fun _ rest =>
      ∃ semicolon, input = semicolon :: rest ∧ semicolon.token = .symbol .semicolon := by
  refine Derives.followsBrace fun follows => ?_
  split
  · refine Derives.expect ?_
    rintro semicolon rest rfl isEmpty
    exact Derives.pure ⟨semicolon, rfl, isEmpty⟩
  · exact Derives.here fun _ _ => Derives.stop

/-! ### Statements that reserve -/

theorem derives_positiveInt : Derives input positiveInt (AtFront IntegerPhrase input) := by
  refine Derives.look ?_
  split
  · next value looked =>
    obtain ⟨lexeme, rest, rfl, isInt⟩ := exists_lexeme_of_look looked
    exact Derives.advance (Derives.pure ⟨[lexeme], rfl, .unsigned isInt⟩)
  · exact Derives.unexpected

theorem derives_signedInt {expected : String} :
    Derives input (signedInt expected) (AtFront IntegerPhrase input) := by
  refine Derives.here fun start isStart => Derives.accept ?minus ?unsigned
  case minus =>
    rintro sign rest rfl isSign
    obtain rfl := isStart sign rfl
    refine Derives.look ?_
    split
    · next value looked =>
      obtain ⟨lexeme, rest, rfl, isInt⟩ := exists_lexeme_of_look looked
      exact Derives.advance (Derives.pure ⟨[sign, lexeme], rfl, .minus isSign isInt⟩)
    · exact Derives.unexpected
  case unsigned =>
    refine Derives.look ?_
    split
    · next value looked =>
      obtain ⟨lexeme, rest, rfl, isInt⟩ := exists_lexeme_of_look looked
      obtain rfl := isStart lexeme rfl
      exact Derives.advance (Derives.pure ⟨[lexeme], rfl, .unsigned isInt⟩)
    · exact Derives.unexpected

theorem derives_rangeBound {kind : RangeKind} :
    Derives input (rangeBound kind) (AtFront IntegerPhrase input) := by
  cases kind with
  | field => exact derives_positiveInt
  | enumValue => exact derives_signedInt

theorem derives_rangeEnd {kind : RangeKind} :
    Derives input (rangeEnd kind) (AtFront RangeEndPhrase input) := by
  have bound : Derives input (RangeEnd.int <$> rangeBound kind) (AtFront RangeEndPhrase input) := by
    refine derives_rangeBound.bind ?_
    rintro literal rest ⟨taken, same, isInt⟩
    exact Derives.pure ⟨taken, same, .int isInt⟩
  refine Derives.look ?_
  split
  · next looked =>
    obtain ⟨lexeme, rest, rfl, isWord⟩ := exists_lexeme_of_look looked
    exact Derives.advance (Derives.pure ⟨[lexeme], rfl, .max isWord⟩)
  · exact bound
  · exact bound
  · exact Derives.unexpected

/-- Without the word for a range there is but the first number. -/
theorem derives_range {kind : RangeKind} :
    Derives input (range kind) (AtFront RangePhrase input) := by
  refine derives_rangeBound.bind ?_
  rintro first rest ⟨taken, rfl, isFirst⟩
  refine Derives.look ?_
  split
  · next looked =>
    obtain ⟨between, rest, rfl, isWord⟩ := exists_lexeme_of_look looked
    refine Derives.advance (derives_rangeEnd.bind ?_)
    rintro bound left ⟨last, rfl, isLast⟩
    refine Derives.pure ⟨taken ++ between :: last, ?_, .range isFirst isWord isLast⟩
    rw [List.append_assoc, List.cons_append]
  · split
    · exact Derives.pure ⟨taken, rfl, .single isFirst⟩
    · exact Derives.unexpected
  · exact Derives.unexpected

theorem derives_text : Derives input text (AtFront TextPhrase input) := by
  refine derives_bytes.bind ?_
  rintro ⟨bytes, span⟩ rest ⟨⟨taken, same, isString⟩, -⟩
  dsimp only
  split
  · next isText => exact Derives.pure ⟨taken, same, .text isString isText⟩
  · exact Derives.stop

/-- A name that is no identifier is a fault, and is taken all the same. -/
theorem derives_reservedName : Derives input reservedName (AtFront TextPhrase input) := by
  refine derives_text.bind ?_
  rintro name rest isText
  exact Derives.report (Derives.pure isText)

theorem derives_reservedItems {kind : RangeKind} :
    Derives input (reservedItems kind) (AtFront ReservedPhrase input) := by
  have ranges : Derives input (ReservedItems.ranges <$> Parser.ranges kind)
      (AtFront ReservedPhrase input) := by
    refine (derives_commaList fun input => derives_range).bind ?_
    rintro items rest ⟨taken, same, isList⟩
    exact Derives.pure ⟨taken, same, .ranges isList⟩
  refine Derives.look ?_
  split
  · exact ranges
  · exact ranges
  · refine (derives_commaList fun input => derives_reservedName).bind ?_
    rintro items rest ⟨taken, same, isList⟩
    exact Derives.pure ⟨taken, same, .names isList⟩
  · exact Derives.unexpected

/-! ### Members -/

theorem derives_optionalSettings :
    Derives input optionalSettings (AtFront SettingsPhrase input) := by
  refine Derives.look ?_
  split
  · refine Derives.expect ?_
    rintro first rest rfl isOpening
    refine (derives_commaList fun input => derives_setting.mono fun _ _ found => found.1).bind ?_
    rintro settings left ⟨taken, rfl, items⟩
    refine Derives.expect ?_
    rintro last left rfl isClosing
    exact Derives.pure ⟨first :: taken ++ [last], (bracketed_append ..).symm,
      .list isOpening items isClosing⟩
  · exact Derives.pure ⟨[], rfl, .absent⟩
  · exact Derives.unexpected

theorem derives_optionStatement :
    Derives input optionStatement fun statement rest =>
      AtFront MemberPhrase input (.option statement.setting) rest := by
  refine derives_leadingComments.bind ?_
  rintro comments _ rfl
  refine Derives.expect ?_
  rintro first rest rfl isWord
  refine derives_setting.bind ?_
  rintro setting rest ⟨⟨taken, rfl, isSetting⟩, -⟩
  refine derives_terminator.bind ?_
  rintro ⟨stop, trailing⟩ rest ⟨last, rfl, isEnd⟩
  exact Derives.pure ⟨first :: taken ++ [last], (bracketed_append ..).symm,
    .member (.option isWord isSetting) isEnd⟩

theorem derives_reserved {kind : RangeKind} :
    Derives input (reserved kind) fun statement rest =>
      AtFront MemberPhrase input (.reserved statement.items) rest := by
  refine derives_leadingComments.bind ?_
  rintro comments _ rfl
  refine Derives.expect ?_
  rintro first rest rfl isWord
  refine derives_reservedItems.bind ?_
  rintro items rest ⟨taken, rfl, isItems⟩
  refine derives_terminator.bind ?_
  rintro ⟨stop, trailing⟩ rest ⟨last, rfl, isEnd⟩
  exact Derives.pure ⟨first :: taken ++ [last], (bracketed_append ..).symm,
    .member (.reserved isWord isItems) isEnd⟩

/-- A value is taken whatever its number is. -/
theorem derives_enumValue {text : String} (looked : input.head?.map (·.token) = some (.word text))
    (isOther : text ∉ ["option", "reserved"]) :
    Derives input enumValue fun value rest =>
      AtFront MemberPhrase input (.value value.name value.number value.options) rest := by
  refine derives_leadingComments.bind ?_
  rintro comments _ rfl
  refine derives_name.bind ?_
  rintro name rest ⟨_, rfl, @⟨first, _, isWord⟩⟩
  obtain rfl := Token.word.inj (isWord.symm.trans (Option.some.inj looked))
  refine Derives.expect ?_
  rintro equals rest rfl isEquals
  refine derives_signedInt.bind ?_
  rintro number rest ⟨taken, rfl, isNumber⟩
  refine Derives.report (derives_optionalSettings.bind ?_)
  rintro options rest ⟨others, rfl, isSettings⟩
  refine derives_terminator.bind ?_
  rintro ⟨stop, trailing⟩ rest ⟨last, rfl, isEnd⟩
  refine Derives.pure ⟨first :: (equals :: (taken ++ others)) ++ [last], ?_,
    .member (.value isWord isOther isEquals isNumber isSettings) isEnd⟩
  simp only [List.cons_append, List.nil_append, List.append_assoc]

/-! ### Enums -/

section Bodies

variable {name : Name} {members : List EnumMember} {state : Enumeration} {expected : String}

/-- A member is read to the enum with one more. -/
theorem derives_enumMember {next : Token} {parser : Parser Enumeration}
    (known : state.Known name members) (looked : input.head?.map (·.token) = some next)
    (found : enumMember state next = some parser) :
    Derives input parser fun following rest => ∃ member,
      AtFront MemberPhrase input member rest ∧ following.Known name (members ++ [member]) := by
  unfold enumMember at found
  split at found
  · next text =>
    split_ifs at found with isOption isReserved
    all_goals obtain rfl := Option.some.inj found
    · refine derives_optionStatement.bind ?_
      rintro statement rest isMember
      exact Derives.pure ⟨_, isMember, known.option statement⟩
    · refine derives_reserved.bind ?_
      rintro statement rest isMember
      exact Derives.pure ⟨_, isMember, known.reserved statement⟩
    · refine (derives_enumValue looked (by simp [isOption, isReserved])).bind ?_
      rintro value rest isMember
      exact Derives.pure ⟨_, isMember, known.value value⟩
  · cases found

/-- A member is read to the enum with one more, and an empty statement to the same. -/
theorem derives_member {next : Token} (known : state.Known name members)
    (looked : input.head?.map (·.token) = some next) :
    Derives input (member enumMember expected state next) fun following rest => ∃ taken added,
      input = taken ++ rest ∧ MembersPhrase taken added ∧
        following.Known name (members ++ added) := by
  rw [member]
  split
  · refine derives_emptyStatement.bind ?_
    rintro _ rest ⟨semicolon, rfl, isEmpty⟩
    refine Derives.pure ⟨[semicolon], [], rfl, .empty isEmpty .nil, ?_⟩
    rwa [List.append_nil]
  · split
    · next parser found =>
      refine (derives_enumMember known looked found).mono ?_
      rintro following rest ⟨member, ⟨taken, same, isMember⟩, knows⟩
      refine ⟨taken, [member], same, ?_, knows⟩
      have alone := MembersPhrase.member isMember .nil
      rwa [List.append_nil] at alone
    · exact Derives.unexpected

/-- The members are read up to the brace that closes the enum. -/
theorem derives_enumBody (begun : state.Known name []) :
    Derives input (body enumMember expected state) fun found rest => ∃ taken closing members,
      input = taken ++ closing :: rest ∧ MembersPhrase taken members ∧
        closing.token = .symbol .rightBrace ∧ found.1.Known name members := by
  refine Derives.repeating (fun following left => ∃ taken members, input = taken ++ left ∧
    MembersPhrase taken members ∧ following.Known name members) ⟨[], [], rfl, .nil, begun⟩ ?_
  rintro following left ⟨taken, members, rfl, isMembers, known⟩
  refine Derives.look ?_
  split
  · next looked =>
    obtain ⟨closing, rest, rfl, isClosing⟩ := exists_lexeme_of_look looked
    exact Derives.advance (Derives.pure ⟨taken, closing, members, rfl, isMembers, isClosing, known⟩)
  · next next _ looked =>
    refine (derives_member known looked).bind ?_
    rintro after rest ⟨more, added, rfl, isMore, knows⟩
    refine Derives.pure ⟨taken ++ more, members ++ added, ?_, isMembers.append isMore, knows⟩
    rw [List.append_assoc]
  · exact Derives.unexpected

end Bodies

/-- Whatever enum the parser answers is the one that the tokens spell. -/
theorem derives_enumeration :
    Derives input enumeration fun enumeration rest => ∃ taken,
      input = taken ++ rest ∧ enumeration.SpelledBy taken := by
  refine derives_leadingComments.bind ?_
  rintro comments _ rfl
  refine Derives.expect ?_
  rintro first rest rfl isWord
  refine derives_name.bind ?_
  rintro name rest ⟨_, rfl, @⟨second, text, isName⟩⟩
  refine derives_openBrace.bind ?_
  rintro trailing rest ⟨opening, rfl, isOpening⟩
  refine (derives_enumBody ⟨rfl, ⟨rfl, rfl, rfl⟩, rfl⟩).bind ?_
  rintro ⟨read, stop⟩ rest ⟨taken, closing, members, rfl, isMembers, isClosing, known⟩
  refine Derives.report (Derives.pure ?_)
  have spells : EnumPhrase (first :: (second :: (opening :: taken)) ++ [closing])
      (read.name, members) := by
    rw [known.name]
    exact .enum isWord (.word isName) isOpening isMembers isClosing
  refine ⟨_, ?_, members, spells, fun other isOther => ?_, ?_, ?_⟩
  · rw [bracketed_append]
    rfl
  · exact Unambiguous.unique unambiguous_enum isOther spells
  · exact ⟨known.members.options, known.members.reserved, known.members.values⟩
  · rw [← known.members.options, ← Enumeration.aliasesAfter_iff, ← known.aliases]

end Parser

end ProtoSchema
