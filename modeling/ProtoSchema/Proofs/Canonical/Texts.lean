/-
This file shows that the printed phrases spell their canonical tokens: names,
literals, options and types. A phrase may end in a word or a number, so what is
printed after it must not go on with it; texts of blanks and punctuation
characters never do.
-/

import ProtoSchema.Proofs.Grammar.WellFormed
import ProtoSchema.Proofs.Scanning.Literal
import ProtoSchema.Proofs.Scanning.Numeral
import ProtoSchema.Tree.Printer

namespace ProtoSchema

/-- The text spells the tokens. -/
def Writes (text : String) (tokens : List Token) (follow : Option Char → Prop) : Prop :=
  Spells text.toList tokens follow

namespace Writes

variable {first second : String} {firstTokens secondTokens : List Token}
  {follow firstFollow : Option Char → Prop}

theorem empty : Writes "" [] follow := Spells.nil

theorem weaken (writes : Writes first firstTokens firstFollow)
    (weaker : ∀ next, follow next → firstFollow next) : Writes first firstTokens follow :=
  Spells.weaken writes weaker

/-- Two texts spell their tokens together if the first one may be followed by the second. -/
theorem append (left : Writes first firstTokens firstFollow)
    (right : Writes second secondTokens follow)
    (fits : ∀ rest : List Char, follow rest.head? → firstFollow (second.toList ++ rest).head?) :
    Writes (first ++ second) (firstTokens ++ secondTokens) follow := by
  rw [Writes, String.toList_append]
  exact Spells.append left right fits

/-- A text that may be followed by anything goes in front of every other. -/
theorem then_ (left : Writes first firstTokens Anything)
    (right : Writes second secondTokens follow) :
    Writes (first ++ second) (firstTokens ++ secondTokens) follow :=
  left.append right fun _ _ => trivial

/-- A text goes with one whose first character may follow it. -/
theorem before (left : Writes first firstTokens firstFollow)
    (right : Writes second secondTokens follow) {character : Char} {others : List Char}
    (starts : second.toList = character :: others) (fits : firstFollow (some character)) :
    Writes (first ++ second) (firstTokens ++ secondTokens) follow :=
  left.append right fun _ _ => by rwa [starts]

end Writes

/-! ### Punctuation -/

theorem Symbol.character_of_ofCharacter? {character : Char} {mark : Symbol}
    (found : ofCharacter? character = some mark) : mark.character = character := by
  unfold ofCharacter? at found
  split at found <;> cases found <;> rfl

/-- The tokens of a text of spaces and of punctuation characters that start nothing longer. -/
def marks? : List Char → Option (List Token)
  | [] => some []
  | first :: rest =>
    if first = ' ' then marks? rest
    else
      match Symbol.ofCharacter? first with
      | none | some .dot | some .slash => none
      | some mark => (marks? rest).map (.symbol mark :: ·)

/-- A run of marks and blanks spells its marks. -/
theorem spells_marks {text : List Char} {tokens : List Token} (marks : marks? text = some tokens) :
    Spells text tokens Anything := by
  induction text generalizing tokens with
  | nil =>
    obtain rfl := Option.some.inj marks
    exact Spells.nil
  | cons first rest inductionHypothesis =>
    rw [marks?] at marks
    split at marks
    · next isSpace =>
      subst isSpace
      exact Spells.space.then_ (inductionHypothesis marks)
    · split at marks
      · cases marks
      · cases marks
      · cases marks
      · next mark noPoint noSlash found =>
        obtain ⟨others, othersMarks, rfl⟩ := Option.map_eq_some_iff.mp marks
        rw [← Symbol.character_of_ofCharacter? found]
        exact (spells_symbol mark noPoint noSlash).then_ (inductionHypothesis othersMarks)

/-- A text of blanks and punctuation characters may stand before anything. -/
theorem writes_marks {text : String} {tokens : List Token}
    (marks : marks? text.toList = some tokens) : Writes text tokens Anything :=
  spells_marks marks

/-! ### Words and numbers -/

/-- An identifier spells itself, in front of what does not go on with it. -/
theorem writes_word {word : String} (identifier : isIdentifier word = true) :
    Writes word [.word word] EndsWord :=
  spells_word word identifier

/-- A word with a space after it may stand before anything. -/
theorem writes_keyword (word : String) (identifier : isIdentifier word = true) :
    Writes (word ++ " ") [.word word] Anything := by
  have space : Writes " " [] Anything := writes_marks rfl
  exact (writes_word identifier).before space rfl (endsWord_some rfl)

/-- A number is written in decimal, in front of what does not go on with it. -/
theorem writes_nat (value : UInt64) :
    Writes (toString value.toNat) [.int value] EndsNumber := by
  have digits : (toString value.toNat).toList = Nat.toDigits 10 value.toNat := Nat.toList_repr
  rw [Writes, digits]
  exact spells_int value

theorem writes_minus (negative : Bool) :
    Writes (if negative then "-" else "") (minusTokens negative) Anything := by
  cases negative <;> exact writes_marks rfl

theorem IntLiteral.writes (literal : IntLiteral) :
    Writes literal.text literal.tokens EndsNumber :=
  (writes_minus literal.negative).then_ (writes_nat literal.magnitude)

/-- A floating-point number is written so that it is read back to the same. -/
theorem Double.writes {value : Double} (wellFormed : value.WellFormed) :
    Writes value.text value.tokens EndsNumber := by
  cases value with
  | nan => exact (writes_word rfl).weaken fun _ => EndsNumber.endsWord
  | number negative magnitude =>
    refine (writes_minus negative).then_ ?_
    cases infinite : magnitude.isInfinite with
    | true =>
      rw [Decimal.text, infinite, if_pos rfl, if_pos rfl]
      exact (writes_word rfl).weaken fun _ => EndsNumber.endsWord
    | false => exact spells_float printedFloatStyle magnitude infinite

/-! ### Lists -/

/-- A list with a mark between its texts starts with the first of them. -/
theorem toList_intercalate_cons (mark first : String) (others : List String) :
    ∃ after, (mark.intercalate (first :: others)).toList = first.toList ++ after := by
  cases others with
  | nil => exact ⟨[], by rw [String.intercalate_singleton, List.append_nil]⟩
  | cons second others =>
    refine ⟨mark.toList ++ (mark.intercalate (second :: others)).toList, ?_⟩
    rw [String.intercalate_cons_cons, String.toList_append, String.toList_append,
      List.append_assoc]

section Lists

variable {Item : Type} {text : Item → String} {tokens : Item → List Token} {items : List Item}
  {follow markFollow : Option Char → Prop}

/-- Texts with a mark between them spell their tokens with the mark between them. -/
theorem writes_intercalate {mark : String} {symbol : Symbol} {first : Char} {others : List Char}
    (writesMark : Writes mark [.symbol symbol] markFollow)
    (starts : mark.toList = first :: others) (fits : follow (some first))
    (each : ∀ item ∈ items, Writes (text item) (tokens item) follow)
    (itemFits : ∀ item ∈ items, ∀ rest : List Char, markFollow ((text item).toList ++ rest).head?) :
    Writes (mark.intercalate (items.map text)) (separated symbol (items.map tokens)) follow := by
  induction items with
  | nil => exact Writes.empty
  | cons item items inductionHypothesis =>
    rw [List.forall_mem_cons] at each itemFits
    cases items with
    | nil =>
      have last : separated symbol ([item].map tokens) = tokens item := List.append_nil _
      rw [last]
      exact each.1
    | cons next items =>
      have more : separated symbol ((item :: next :: items).map tokens) =
          tokens item ++ ([.symbol symbol] ++ separated symbol ((next :: items).map tokens)) := by
        simp [separated]
      rw [more, List.map_cons, List.map_cons, String.intercalate_cons_cons, String.append_assoc]
      have following := writesMark.append (inductionHypothesis each.2 itemFits.2) fun rest _ => by
        obtain ⟨after, eq⟩ := toList_intercalate_cons mark (text next) (items.map text)
        rw [List.map_cons, eq, List.append_assoc]
        exact itemFits.2 next List.mem_cons_self _
      exact each.1.before following (by rw [String.toList_append, starts]; rfl) fits

/-- Items with commas between them. -/
theorem writes_commaSeparated
    (each : ∀ item ∈ items, Writes (text item) (tokens item) EndsNumber) :
    Writes (commaSeparated (items.map text)) (separated .comma (items.map tokens)) EndsNumber :=
  writes_intercalate (writes_marks rfl) rfl (endsNumber_some rfl) each fun _ _ _ => trivial

end Lists

/-! ### Names -/

/-- A word has a first character, which does not make a number of a point. -/
theorem endsPoint_of_isIdentifier {word : String} (identifier : isIdentifier word = true)
    (rest : List Char) : EndsPoint (word.toList ++ rest).head? := by
  obtain ⟨first, others, eq, start, -⟩ := isIdentifier_cons identifier
  rw [eq]
  refine endsPoint_some (Bool.eq_false_iff.mpr fun digit => ?_)
  rw [isIdentifierStart_of_isDigit digit] at start
  cases start

/-- A path starts with a letter, so it may stand behind a number. -/
theorem DottedName.endsPoint {name : DottedName} (wellFormed : name.WellFormed)
    (rest : List Char) : EndsPoint (name.text.toList ++ rest).head? := by
  obtain ⟨parts⟩ := name
  obtain ⟨first, others, rfl⟩ := List.exists_cons_of_ne_nil wellFormed.some
  obtain ⟨after, eq⟩ := toList_intercalate_cons "." first.text (others.map Name.text)
  rw [text, List.map_cons, eq, List.append_assoc]
  exact endsPoint_of_isIdentifier (wellFormed.parts first List.mem_cons_self) _

theorem DottedName.writes {name : DottedName} (wellFormed : name.WellFormed) :
    Writes name.text name.tokens EndsWord :=
  writes_intercalate spells_dot rfl (endsWord_some rfl)
    (fun part member => writes_word (wellFormed.parts part member))
    fun part member => endsPoint_of_isIdentifier (wellFormed.parts part member)

/-- A dot in front does not run into the name. -/
theorem TypeName.writes {name : TypeName} (wellFormed : name.WellFormed) :
    Writes name.text name.tokens EndsWord := by
  obtain ⟨dot, path⟩ := name
  have writesPath : Writes path.text path.tokens EndsWord := DottedName.writes wellFormed
  cases dot with
  | none => exact Writes.empty.then_ writesPath
  | some dot =>
    have writesDot : Writes "." [.symbol .dot] EndsPoint := spells_dot
    exact writesDot.append writesPath fun rest _ => DottedName.endsPoint wellFormed rest

/-! ### Options -/

/-- The brackets around a key keep its name apart from what is beside it. -/
theorem OptionKey.writes {key : OptionKey} (wellFormed : key.WellFormed)
    {opening closing : String} {openingMark closingMark : Symbol} {first : Char}
    {others : List Char} (opens : Writes opening [.symbol openingMark] Anything)
    (closes : Writes closing [.symbol closingMark] Anything)
    (starts : closing.toList = first :: others) (fits : EndsWord (some first)) :
    Writes (key.text opening closing) (key.tokens openingMark closingMark) EndsWord := by
  cases key with
  | plain name => exact writes_word wellFormed
  | extension name span =>
    have inner := (TypeName.writes wellFormed).before closes starts fits
    rw [text, String.append_assoc]
    exact (opens.then_ inner).weaken fun _ _ => trivial

/-- The key of an entry in a message. -/
theorem OptionKey.writes_bracketed {key : OptionKey} (wellFormed : key.WellFormed) :
    Writes (key.text "[" "]") (key.tokens .leftBracket .rightBracket) EndsWord :=
  key.writes wellFormed (writes_marks rfl) (writes_marks rfl) rfl (endsWord_some rfl)

/-- A part of the name of an option. -/
theorem OptionKey.writes_parenthesized {key : OptionKey} (wellFormed : key.WellFormed) :
    Writes (key.text "(" ")") (key.tokens .leftParen .rightParen) EndsWord :=
  key.writes wellFormed (writes_marks rfl) (writes_marks rfl) rfl (endsWord_some rfl)

theorem OptionKey.endsPoint {key : OptionKey} (wellFormed : key.WellFormed) (rest : List Char) :
    EndsPoint ((key.text "(" ")").toList ++ rest).head? := by
  cases key with
  | plain name => exact endsPoint_of_isIdentifier wellFormed rest
  | extension name span =>
    rw [text, String.toList_append, String.toList_append]
    exact endsPoint_some rfl

/-! ### Values -/

/-- The functions on lists are there for the recursion alone. -/
theorem OptionValue.texts_eq (values : List OptionValue) :
    OptionValue.texts values = values.map OptionValue.text := by
  induction values with
  | nil => rfl
  | cons value rest inductionHypothesis => rw [texts, inductionHypothesis, List.map_cons]

/-- An entry of a message, after a space. -/
def OptionEntry.text (entry : OptionEntry) : String :=
  " " ++ entry.key.text "[" "]" ++ ": " ++ entry.value.text

theorem OptionEntry.texts_cons (entry : OptionEntry) (rest : List OptionEntry) :
    OptionEntry.texts (entry :: rest) = entry.text ++ OptionEntry.texts rest := by
  obtain ⟨key, value, span⟩ := entry
  rw [texts, text]

/-- Entries are followed by nothing that goes on with a number, since each is after a space. -/
theorem OptionEntry.endsNumber_texts (entries : List OptionEntry) {rest : List Char}
    (ends : EndsNumber rest.head?) :
    EndsNumber ((OptionEntry.texts entries).toList ++ rest).head? := by
  cases entries with
  | nil => exact ends
  | cons entry entries =>
    simp only [texts_cons, text, String.toList_append, List.append_assoc]
    exact endsNumber_some rfl

/-- A scalar may end in a word or a number. -/
theorem OptionValue.IsScalar.writes {value : OptionValue} (scalar : value.IsScalar) :
    Writes value.text value.tokens EndsNumber := by
  cases value with
  | identifier name => exact (writes_word scalar.1).weaken fun _ => EndsNumber.endsWord
  | int literal => exact literal.writes
  | float value span => exact Double.writes scalar
  | string bytes span =>
    have literal : Writes (Escape.literal bytes) [.string bytes] Anything := spells_literal bytes
    exact literal.weaken fun _ _ => trivial
  | bool value span =>
    rw [text, tokens]
    cases value <;> exact (writes_word rfl).weaken fun _ => EndsNumber.endsWord
  | array values span => exact scalar.elim
  | aggregate entries span => exact scalar.elim

/-- A list is written if each of its values is. -/
theorem OptionValue.writes_array {values : List OptionValue} {span : Span}
    (each : ∀ value ∈ values, Writes value.text value.tokens EndsNumber) :
    Writes (OptionValue.array values span).text (OptionValue.array values span).tokens
      EndsNumber := by
  have opening : Writes "[" [.symbol .leftBracket] Anything := writes_marks rfl
  have closing : Writes "]" [.symbol .rightBracket] Anything := writes_marks rfl
  have inner := (writes_commaSeparated each).before closing rfl (endsNumber_some rfl)
  rw [text, tokens, texts_eq, tokensEach_eq, String.append_assoc]
  exact (opening.then_ inner).weaken fun _ _ => trivial

/-- An entry is written with its colon, and ends as its value does. -/
theorem OptionEntry.writes {entry : OptionEntry} (key : entry.key.WellFormed)
    (value : Writes entry.value.text entry.value.tokens EndsNumber) :
    Writes entry.text entry.tokens EndsNumber := by
  obtain ⟨entryKey, entryValue, span⟩ := entry
  have space : Writes " " [] Anything := writes_marks rfl
  have colon : Writes ": " [.symbol .colon] Anything := writes_marks rfl
  have inner := (OptionKey.writes_bracketed key).before (colon.then_ value)
    (by rw [String.toList_append]; rfl) (endsWord_some rfl)
  rw [text, String.append_assoc, String.append_assoc]
  exact space.then_ inner

theorem OptionEntry.writes_texts {entries : List OptionEntry}
    (each : ∀ entry ∈ entries, Writes entry.text entry.tokens EndsNumber) :
    Writes (OptionEntry.texts entries) (entries.flatMap OptionEntry.tokens) EndsNumber := by
  induction entries with
  | nil => exact Writes.empty
  | cons entry rest inductionHypothesis =>
    rw [List.forall_mem_cons] at each
    rw [texts_cons, List.flatMap_cons]
    exact each.1.append (inductionHypothesis each.2) fun _ ends => endsNumber_texts rest ends

/-- A message is written if each of its entries is. -/
theorem OptionValue.writes_aggregate {entries : List OptionEntry} {span : Span}
    (each : ∀ entry ∈ entries, Writes entry.text entry.tokens EndsNumber) :
    Writes (OptionValue.aggregate entries span).text (OptionValue.aggregate entries span).tokens
      EndsNumber := by
  have opening : Writes "\x7b" [.symbol .leftBrace] Anything := writes_marks rfl
  have closing : Writes ((if entries.isEmpty then "" else " ") ++ "\x7d") [.symbol .rightBrace]
      Anything := by
    cases entries.isEmpty <;> exact writes_marks rfl
  rw [text, tokens, OptionEntry.tokensAll_eq, String.append_assoc, String.append_assoc]
  refine (opening.then_ ((OptionEntry.writes_texts each).append closing fun rest _ => ?_)).weaken
    fun _ _ => trivial
  cases entries.isEmpty <;> exact endsNumber_some rfl

/-- A message is written with its entries, at every depth. -/
theorem OptionValue.IsMessage.writes {depth : Nat} {value : OptionValue}
    (message : value.IsMessage depth) : Writes value.text value.tokens EndsNumber := by
  induction depth generalizing value with
  | zero => exact message.elim
  | succ depth inductionHypothesis =>
    have alone {value : OptionValue} (shape : value.IsScalar ∨ value.IsMessage depth) :
        Writes value.text value.tokens EndsNumber :=
      shape.elim IsScalar.writes inductionHypothesis
    cases value with
    | aggregate entries span =>
      refine writes_aggregate fun entry member => ?_
      obtain ⟨key, shape⟩ := message entry member
      refine OptionEntry.writes key ?_
      rcases OptionValue.InEntry.cases shape with ⟨values, span, eq, each⟩ | shape
      · rw [eq]
        exact writes_array fun inner member => alone (each inner member)
      · exact alone shape
    | _ => exact message.elim

/-! ### Settings -/

/-- A setting ends as its value does. -/
theorem OptionSetting.writes {setting : OptionSetting} (wellFormed : setting.WellFormed) :
    Writes setting.text setting.tokens EndsNumber := by
  have name : Writes (".".intercalate (setting.name.map (·.text "(" ")")))
      (separated .dot (setting.name.map (OptionKey.tokens .leftParen .rightParen))) EndsWord :=
    writes_intercalate spells_dot rfl (endsWord_some rfl)
      (fun key member => OptionKey.writes_parenthesized (wellFormed.keys key member))
      fun key member => OptionKey.endsPoint (wellFormed.keys key member)
  have equals : Writes " = " [.symbol .equals] Anything := writes_marks rfl
  have value : Writes setting.value.text setting.value.tokens EndsNumber :=
    wellFormed.value.elim OptionValue.IsScalar.writes OptionValue.IsMessage.writes
  rw [text, String.append_assoc]
  exact name.before (equals.then_ value) (by rw [String.toList_append]; rfl) (endsWord_some rfl)

/-- Settings start with a space, or there are none. -/
theorem OptionSetting.writes_listText {settings : List OptionSetting}
    (wellFormed : ∀ setting ∈ settings, setting.WellFormed) :
    Writes (listText settings) (listTokens settings) Anything := by
  rw [listText, listTokens]
  split
  · exact Writes.empty
  · have opening : Writes " [" [.symbol .leftBracket] Anything := writes_marks rfl
    have closing : Writes "]" [.symbol .rightBracket] Anything := writes_marks rfl
    have inner := writes_commaSeparated fun setting member =>
      OptionSetting.writes (wellFormed setting member)
    rw [String.append_assoc]
    exact opening.then_ (inner.before closing rfl (endsNumber_some rfl))

end ProtoSchema
