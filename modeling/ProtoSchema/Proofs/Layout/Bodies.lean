/-
This file says what is known of a declaration while its body is read: the members
so far are laid out behind what stands before the body, and the places that are
left to the checks of the declaration are clear of the faults of its members. Each
kind of declaration has a shape, and one step lemma serves all of them.
-/

import ProtoSchema.Proofs.Layout.Checks
import ProtoSchema.Proofs.Layout.Phrases

namespace ProtoSchema

/-- How a declaration is made up: its parts, its members by kind, and the sites at which its own
check finds faults. -/
structure Shape (State : Type) where
  parts : State → List Outline
  members : State → List (List Outline)
  sites : State → List StageSite

namespace Shape

/-- What is said about an enum is said at its name, its values and the ranges it reserves. -/
def enumeration : Shape Enumeration where
  parts enumeration := [enumeration.name.outline]
  members enumeration := [enumeration.values.map EnumValue.outline,
    enumeration.options.map OptionStatement.outline, enumeration.reserved.map Reserved.outline]
  sites enumeration := (.body, enumeration.name.span) ::
    (enumeration.values.map (.body, ·.span) ++ enumeration.reserved.map (.number, ·.span))

/-- The options in the body of a method. -/
def methodOptions : Shape (List OptionStatement) where
  parts _ := []
  members options := [options.map OptionStatement.outline]
  sites _ := []

/-- What is said about a service is said at its name and its methods. -/
def service : Shape Service where
  parts service := [service.name.outline]
  members service := [service.methods.map Method.outline,
    service.options.map OptionStatement.outline]
  sites service := (.body, service.name.span) :: service.methods.map (.body, ·.span)

/-- What is said about a oneof is said at its name and its fields. -/
def oneof : Shape Oneof where
  parts oneof := [oneof.name.outline]
  members oneof := [oneof.fields.map Field.outline, oneof.options.map OptionStatement.outline]
  sites oneof := (.group, oneof.name.span) :: oneof.fields.map (.group, ·.span)

/-- What is said about an extension block is said at the message that it extends and its fields. -/
def extension : Shape Extension where
  parts extension := [extension.extendee.outline]
  members extension := [extension.fields.map Field.outline,
    extension.options.map OptionStatement.outline]
  sites extension := (.group, extension.extendee.span) :: extension.fields.map (.group, ·.span)

/-- The fields of oneofs are checked with the message as well. -/
def message : Shape Message where
  parts message := [message.name.outline]
  members message := message.members
  sites message := (.body, message.name.span) :: (message.allFields.map (.body, ·.span) ++
    message.reserved.map (.number, ·.span) ++ message.extensionRanges.map (.number, ·.span))

/-- What is said about a file is said at its package and its imports. -/
def file : Shape File where
  parts _ := []
  members file := file.outlines
  sites file := file.package.toList.map (.file, ·.span) ++ file.imports.map (.file, ·.span)

end Shape

variable {State : Type} {source : List Char} {stream : List Lexeme} {stages others : List Stage}
variable {start first middle stop : Nat} {parts : List Outline} {shape : Shape State}
variable {state next : State} {found more : List SemanticFault} {outline : Outline}

/-- What is known of a declaration and of the faults found in it, up to a position: its parts are
those read before the body, which starts at the first position. -/
structure Underway (source : List Char) (stages : List Stage) (first : Nat) (parts : List Outline)
    (shape : Shape State) (state : State) (found : List SemanticFault) (stop : Nat) : Prop where
  opened : shape.parts state = parts
  laid : Outline.Laid source first stop (shape.members state)
  before : ∀ site ∈ shape.sites state, site.2.stop ≤ stop
  clear : Clear (shape.sites state) found
  stages : FromStages stages found

namespace Underway

theorem later (body : Underway source stages first parts shape state found middle)
    (later : middle ≤ stop) : Underway source stages first parts shape state found stop :=
  { body with
    laid := body.laid.later later
    before := fun site member => Nat.le_trans (body.before site member) later }

/-- A member is read and dropped. -/
theorem drop (body : Underway source stages first parts shape state found middle)
    (early : Findings stream start middle found) (late : Findings stream middle stop more)
    (own : FromStages others more) (allowed : others ⊆ stages) :
    Underway source stages first parts shape state (found ++ more) stop where
  opened := body.opened
  laid := body.laid.later late.ordered
  before := fun site member => Nat.le_trans (body.before site member) late.ordered
  clear := body.clear.append early late body.before fun _ member => .inl member
  stages := body.stages.append (own.mono allowed)

/-- A member is read and added to those of its kind. There may be new sites in it, for a stage of
which no fault is found in it. -/
theorem add (body : Underway source stages first parts shape state found middle)
    (early : Findings stream start middle found) (late : Findings stream middle stop more)
    (own : FromStages others more) (allowed : others ⊆ stages)
    (placed : Outline.Placed source middle stop outline) (kind : Nat)
    (same : shape.parts next = shape.parts state)
    (added : shape.members next = (shape.members state).modify kind (· ++ [outline]))
    (new : Option Stage) (never : ∀ stage ∈ new, stage ∉ others)
    (sites : ∀ site ∈ shape.sites next, site ∈ shape.sites state ∨
      site.1 ∈ new ∧ outline.span.start ≤ site.2.start ∧ site.2.stop ≤ outline.span.stop) :
    Underway source stages first parts shape next (found ++ more) stop where
  opened := same.trans body.opened
  laid := added ▸ body.laid.add kind placed
  before := by
    intro site member
    rcases sites site member with known | ⟨-, -, inside⟩
    · exact Nat.le_trans (body.before site known) late.ordered
    · exact Nat.le_trans inside placed.between.2.2
  clear := by
    refine body.clear.append early late body.before fun site member => ?_
    rcases sites site member with known | ⟨stage, inside, -⟩
    · exact .inl known
    · refine .inr ⟨Nat.le_trans placed.between.1 inside, fun fault faultMember isStage => ?_⟩
      exact never site.1 stage (isStage ▸ own fault faultMember)
  stages := body.stages.append (own.mono allowed)

/-- The parser of a member reads it and adds it to those of its kind. -/
theorem surveys_add {Value : Type} {lexemes : List Lexeme} {parser : Parser Value}
    {update : Value → State} {outline : Value → Outline}
    (body : Underway source stages first parts shape state found (offset source lexemes))
    (surveys : Parser.Surveys source stream (offset source lexemes) [] lexemes parser
      fun value faults after => FromStages others faults ∧
        Outline.Placed source (offset source lexemes) after (outline value))
    (allowed : others ⊆ stages) (kind : Nat)
    (same : ∀ value, shape.parts (update value) = shape.parts state)
    (added : ∀ value,
      shape.members (update value) = (shape.members state).modify kind (· ++ [outline value]))
    (new : Option Stage) (never : ∀ stage ∈ new, stage ∉ others)
    (sites : ∀ value, (outline value).WellPlaced source → ∀ site ∈ shape.sites (update value),
      site ∈ shape.sites state ∨ site.1 ∈ new ∧
        (outline value).span.start ≤ site.2.start ∧ site.2.stop ≤ (outline value).span.stop) :
    Parser.Surveys source stream start found lexemes
      (parser >>= fun value => pure (update value))
      (Underway source stages first parts shape) := by
  refine Parser.Surveys.known fun early _ => Parser.Surveys.fresh surveys
    fun value more rest _ late known => Parser.Surveys.pure ?_
  obtain ⟨own, placed⟩ := known
  exact body.add early late own allowed placed kind (same value) (added value) new never
    (sites value placed.wellPlaced)

/-- Nothing is read of the body. -/
theorem opening (opened : shape.parts state = parts)
    (empty : ∀ nodes ∈ shape.members state, nodes = [])
    (before : ∀ site ∈ shape.sites state, site.2.stop ≤ first) :
    Underway source stages first parts shape state [] first where
  opened
  laid := .nil (Nat.le_refl _) empty
  before
  clear := .nil
  stages := .nil

/-- The whole declaration, from the word in front of it to its closing brace. -/
theorem enclose {opening closing : Span} {opened closed : Token} {ahead ahead' last : Nat}
    (body : Underway source stages first parts shape state found last)
    (openingTaken : Parser.Places.Taken source opened start ahead opening)
    (laid : Outline.Laid source ahead' middle [parts]) (onward : start ≤ ahead')
    (afterBrace : middle ≤ first)
    (closingTaken : Parser.Places.Taken source closed last stop closing) :
    Outline.Placed source start stop
      (.node (opening.through closing) none (shape.parts state) (shape.members state)) := by
  rw [body.opened]
  exact .enclose openingTaken.reached.1 onward (laid.later afterBrace) body.laid (Nat.le_refl _)
    closingTaken.reached closingTaken.within

/-- The check of a declaration finds faults of its own. -/
theorem conclude {kinds : List SemanticCause} {span : Span} {last : Nat}
    (body : Underway source stages first parts shape state found last)
    (before : Findings stream start stop found)
    (checks : Checks stream span.start span.stop (shape.sites state) kinds more)
    (inside : span.Between start stop) : Findings stream start stop (found ++ more) :=
  before.combine (checks.toFindings.widen inside.1 inside.2.2)
    (body.clear.distinct before checks.sites)

/-- A declaration is checked when it has been read. -/
theorem surveys_report {Value : Type} {value : Value} {outline : Value → Outline}
    {kinds : List SemanticCause} {lexemes : List Lexeme} {last : Nat}
    (body : Underway source stages first parts shape state found last)
    (before : Findings stream start (offset source lexemes) found)
    (placed : Outline.Placed source start (offset source lexemes) (outline value))
    (checks : Checks stream (outline value).span.start (outline value).span.stop
      (shape.sites state) kinds more)
    (allowed : stages ⊆ others) (kindsAllowed : ∀ kind ∈ kinds, kind.stage ∈ others) :
    Parser.Surveys source stream start found lexemes
      (Parser.report more >>= fun _ => pure value) fun value faults after =>
        FromStages others faults ∧ Outline.Placed source start after (outline value) := by
  refine Parser.Surveys.report (body.conclude before checks placed.between)
    (Parser.Surveys.pure ⟨?_, placed⟩)
  exact (body.stages.mono allowed).append (checks.fromStages kindsAllowed)

end Underway

end ProtoSchema
