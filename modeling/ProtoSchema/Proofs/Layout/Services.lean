/-
This file places services and says what is found in them. In a method no fault is
found while it is read; all that may be wrong with its name and its types is found
by the check of the service.
-/

import ProtoSchema.Grammar.Services
import ProtoSchema.Proofs.Layout.Enums

namespace ProtoSchema

open Outline (Placed Laid WellPlaced leaf)

variable {source : List Char} {stream lexemes : List Lexeme}

namespace Parser

variable {start first : Nat}

/-! ### Methods -/

theorem places_streamWord : Places source stream lexemes streamWord fun _ _ => True := by
  refine Places.ahead ?_
  split
  · exact Places.advance_any.bind fun _ _ _ _ => Places.pure trivial
  · exact Places.pure trivial

theorem places_methodType : Places source stream lexemes methodType
    fun found after => Laid source (offset source lexemes) after [[found.2.outline]] := by
  refine Places.expect fun _ rest afterParen _ => ?_
  refine places_streamWord.bind fun streams rest afterStream _ => ?_
  refine places_typeName.bind fun name rest _ placed => ?_
  refine Places.expect fun _ rest later _ => Places.pure ?_
  exact placed.laid.widen (Nat.le_trans afterParen afterStream) later

theorem upheld_methodOptions : Upheld source stream start
    (fun options next =>
      if next = .word "option" then some do return options ++ [← optionStatement] else none)
    (Underway source [] first [] Shape.methodOptions) where
  later := fun later body => body.later later
  member := by
    intro state next parser found lexemes result body
    split_ifs at result with isOption
    obtain rfl := Option.some.inj result
    exact body.surveys_add (places_optionStatement.surveys []) (List.nil_subset _) 0
      (fun _ => rfl) (by simp [Shape.methodOptions]) none (by decide) fun _ _ _ known => .inl known

/-- The options, if there is a body, stand before the end. -/
theorem surveys_methodEnd : Surveys source stream (offset source lexemes) [] lexemes methodEnd
    fun found faults after => FromStages [] faults ∧ ∃ last,
      Laid source (offset source lexemes) last [found.1.map OptionStatement.outline] ∧
        found.2.1.From last after ∧ after ≤ byteLength source := by
  refine Surveys.look ?_
  split
  · refine Surveys.places places_terminator fun (stop, trailing) rest _ closed => ?_
    exact Surveys.pure ⟨.nil, offset source lexemes,
      .nil (Nat.le_refl _) (List.forall_mem_singleton.mpr rfl), closed.reached, closed.within⟩
  · refine Surveys.places places_openBrace fun trailing rest later _ => ?_
    have opening : Underway source [] (offset source rest) [] Shape.methodOptions [] []
        (offset source rest) :=
      .opening rfl (by simp [Shape.methodOptions]) (by simp [Shape.methodOptions])
    refine (surveys_body upheld_methodOptions opening).bind
      fun (options, stop) faults rest _ ⟨last, body, closed⟩ => Surveys.pure ?_
    exact ⟨body.stages, last, body.laid.widen later (Nat.le_refl _), closed.reached, closed.within⟩
  · exact Surveys.unexpected

theorem surveys_method : Surveys source stream (offset source lexemes) [] lexemes method
    fun found faults after => FromStages [] faults ∧
      Placed source (offset source lexemes) after found.outline := by
  refine Surveys.leadingComments fun comments => ?_
  refine Surveys.places Places.expect_last fun start rest afterWord opened => ?_
  refine Surveys.places places_name fun name rest _ named => ?_
  refine Surveys.places places_methodType fun (_, input) rest _ inputLaid => ?_
  refine Surveys.places Places.expect_last fun _ rest afterReturns _ => ?_
  refine Surveys.places places_methodType fun (_, output) rest _ outputLaid => ?_
  refine Surveys.fresh surveys_methodEnd
    fun (options, stop, trailing) faults rest _ _ ⟨stages, last, optionsLaid, closed, within⟩ => ?_
  refine Surveys.pure ⟨stages, ?_⟩
  have parts := (named.laid.append (inputLaid.later afterReturns)).append outputLaid
  exact .enclose opened.reached.1 afterWord parts optionsLaid (Nat.le_refl _) closed within

end Parser

/-! ### Services -/

/-- The name and the types of a method stand in it, in their order. -/
structure Method.Interior (method : Method) : Prop where
  name : method.name.span.Between method.span.start method.span.stop
  input : method.input.span.Between method.span.start method.span.stop
  output : method.output.span.Between method.span.start method.span.stop
  inOrder : method.input.span.stop ≤ method.output.span.start

theorem Method.Interior.of_placed {method : Method} (placed : method.outline.WellPlaced source) :
    method.Interior := by
  obtain ⟨middle, parts, members⟩ := placed.laid
  have between := (parts.later members.arranged.ordered).arranged.between _ List.mem_cons_self
  have inOrder := parts.arranged.inOrder _ List.mem_cons_self
  have inputs := (List.pairwise_cons.mp (List.pairwise_cons.mp inOrder).2).1
  exact
    { name := between _ List.mem_cons_self
      input := between _ (List.mem_cons_of_mem _ List.mem_cons_self)
      output := between _ (List.mem_cons_of_mem _ (List.mem_cons_of_mem _ List.mem_cons_self))
      inOrder := inputs _ List.mem_cons_self }

/-- The places of what the check of a service looks at. -/
structure Service.Interior (service : Service) : Prop where
  ordered : service.span.start ≤ service.span.stop
  name : service.name.span.Between service.span.start service.span.stop
  methods : ∀ method ∈ service.methods, method.span.Between service.span.start service.span.stop
  methodsInOrder : service.methods.Pairwise fun first second => first.span.stop ≤ second.span.start
  inMethods : ∀ method ∈ service.methods, method.Interior
  behindName : ∀ method ∈ service.methods, service.name.span.stop ≤ method.span.start

namespace Service

variable {service : Service}

theorem Interior.of_placed (placed : service.outline.WellPlaced source) : service.Interior := by
  obtain ⟨middle, parts, members⟩ := placed.laid
  have name := parts.arranged.between _ List.mem_cons_self service.name.outline List.mem_cons_self
  obtain ⟨methods, methodsInOrder⟩ := members.entries
    (show service.methods.map Method.outline ∈ _ from List.mem_cons_self)
  exact
    { ordered := Nat.le_of_lt placed.some
      name := name.widen (Nat.le_refl _) members.arranged.ordered
      methods := fun method member =>
        (methods method member).2.widen parts.arranged.ordered (Nat.le_refl _)
      methodsInOrder
      inMethods := fun method member => Method.Interior.of_placed (methods method member).1
      behindName := fun method member => Nat.le_trans name.2.2 (methods method member).2.1 }

/-- Faults of some kinds that a part of the check finds. -/
abbrev Finds (stream : List Lexeme) (service : Service) (kinds : List SemanticCause)
    (faults : List SemanticFault) : Prop :=
  Checks stream service.span.start service.span.stop (Shape.service.sites service) kinds faults

theorem checks_method {method : Method} (interior : method.Interior)
    (member : method ∈ service.methods) :
    Checks stream method.span.start method.span.stop (Shape.service.sites service)
      [.badTypeName .method "", .badMethodType ""]
      (typeNameFaults .method method.name ++ method.typeFaults) := by
  have site : (.body, method.span) ∈ Shape.service.sites service :=
    List.mem_cons_of_mem _ (List.mem_map_of_mem member)
  have inside : ∀ name ∈ [method.input, method.output],
      name.span.Between method.span.start method.span.stop :=
    List.forall_mem_cons.mpr ⟨interior.input, List.forall_mem_singleton.mpr interior.output⟩
  have types : Checks stream method.span.start method.span.stop (Shape.service.sites service)
      [.badMethodType ""] method.typeFaults := by
    refine .spread interior.name.ordered (List.pairwise_pair.mpr (.inl interior.inOrder))
      (fun name nameMember => ?_) fun name nameMember => ?_
    · split
      · exact .nil interior.name.ordered
      · exact .single site (inside name nameMember) rfl List.mem_cons_self
    · split
      · exact fun _ absent => absurd absent List.not_mem_nil
      · exact List.forall_mem_singleton.mpr (.inr (inside name nameMember).whole)
  exact (checks_typeNameFaults site interior.name).append types (by decide)

theorem checks_faults (placed : service.outline.WellPlaced source) :
    service.Finds stream
      [.badTypeName .service "", .badTypeName .method "", .badMethodType "",
        .repeatedName "" default] service.faults := by
  have inside := Interior.of_placed placed
  have name : service.Finds stream [.badTypeName .service ""]
      (typeNameFaults .service service.name) :=
    (checks_typeNameFaults List.mem_cons_self inside.name.whole).widen inside.name.1
      inside.name.2.2
  have methods : service.Finds stream [.badTypeName .method "", .badMethodType ""]
      (service.methods.flatMap fun method =>
        typeNameFaults .method method.name ++ method.typeFaults) :=
    .each inside.ordered inside.methods (inside.methodsInOrder.imp .inl) fun method member =>
      checks_method (inside.inMethods method member) member
  have names : service.Finds stream [.repeatedName "" default]
      (repeatedNames (service.methods.map (·.name))) :=
    checks_memberNames inside.ordered inside.methods
      (fun method member => (inside.inMethods method member).name) inside.methodsInOrder
  exact (name.append methods (by decide)).append names (by decide)

end Service

namespace Parser

variable {start first : Nat} {parts : List Outline}

theorem upheld_serviceMember : Upheld source stream start serviceMember
    (Underway source [] first parts Shape.service) where
  later := fun later body => body.later later
  member := by
    intro state next parser found lexemes result body
    unfold serviceMember at result
    split_ifs at result with isMethod isOption
    all_goals obtain rfl := Option.some.inj result
    · exact body.surveys_add surveys_method (List.nil_subset _) 0 (fun _ => rfl)
        (by simp [Shape.service]) (some .body) (by decide) (by grind [Shape.service])
    · exact body.surveys_add (places_optionStatement.surveys []) (List.nil_subset _) 1
        (fun _ => rfl) (by simp [Shape.service]) none (by decide) fun _ _ _ known => .inl known

theorem surveys_service : Surveys source stream (offset source lexemes) [] lexemes service
    fun found faults after => FromStages [.repeatable, .body] faults ∧
      Placed source (offset source lexemes) after found.outline := by
  refine Surveys.leadingComments fun comments => ?_
  refine Surveys.places Places.expect_last fun start rest afterWord opened => ?_
  refine Surveys.places places_name fun name rest afterName named => ?_
  refine Surveys.places places_openBrace fun trailing rest afterBrace _ => ?_
  have opening : Underway source [] (offset source rest) [name.outline] Shape.service
      ⟨name, [], [], { comments with trailing }, start⟩ [] (offset source rest) :=
    .opening rfl (by simp [Shape.service])
      (List.forall_mem_singleton.mpr (Nat.le_trans named.between.2.2 afterBrace))
  refine (surveys_body upheld_serviceMember opening).bind
    fun (read, stop) faults rest _ ⟨last, body, closed⟩ => Surveys.known fun before _ => ?_
  have placed : Placed source (offset source lexemes) (offset source rest)
      ({ read with span := start.through stop } : Service).outline :=
    body.enclose opened named.laid afterWord afterBrace closed
  have checks : Service.Finds stream _ _ _ := Service.checks_faults placed.wellPlaced
  exact body.surveys_report before placed checks (by decide) (by decide)

end Parser

end ProtoSchema
