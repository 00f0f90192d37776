/-
This file places fields and says what is found in them. The faults of a field come
one behind another: that of the label, that of a map's keys, that of the number
and those of the options. A field that is dropped leaves its faults.
-/

import ProtoSchema.Grammar.Fields
import ProtoSchema.Proofs.Layout.Options

namespace ProtoSchema

namespace Parser

open Outline (Placed Laid leaf)

variable {source : List Char} {stream lexemes : List Lexeme} {start stop : Nat}

/-! ### Labels -/

theorem fromStages_requiredFaults (edition : Option Edition) (context : FieldContext)
    (span : Span) : FromStages [.number, .phrase] (requiredFaults edition context span) := by
  rw [requiredFaults]
  split
  · exact .singleton (by decide)
  · split
    · exact .singleton (by decide)
    · exact .nil

theorem findings_requiredFaults {edition : Option Edition} {context : FieldContext} {span : Span}
    (between : span.Between start stop) :
    Findings stream start stop (requiredFaults edition context span) := by
  rw [requiredFaults]
  split
  · exact .singleton between rfl
  · split
    · exact .singleton between rfl
    · exact .nil between.ordered

theorem surveys_fieldLabel {context : FieldContext} :
    Surveys source stream (offset source lexemes) [] lexemes (fieldLabel context)
      fun found faults after => FromStages [.number, .phrase] faults ∧
        Laid source (offset source lexemes) after [found.2.toList.map leaf] := by
  have laid {span : Span} {token : Token} {after : Nat}
      (taken : Places.Taken source token (offset source lexemes) after span) :
      Laid source (offset source lexemes) after [[leaf span]] :=
    (Placed.leaf taken.reached taken.within).laid
  refine Surveys.look ?_
  split
  · next head =>
    exact Surveys.places (Places.advance_last head) fun span rest _ taken =>
      Surveys.pure ⟨.nil, laid taken⟩
  · next head =>
    exact Surveys.places (Places.advance_last head) fun span rest _ taken =>
      Surveys.pure ⟨.nil, laid taken⟩
  · next head =>
    refine Surveys.places (Places.advance_last head) fun span rest _ taken => ?_
    refine Surveys.edition fun declared => ?_
    refine Surveys.report (findings_requiredFaults taken.reached.between) ?_
    exact Surveys.pure ⟨fromStages_requiredFaults _ _ _, laid taken⟩
  · exact Surveys.pure ⟨.nil, .nil (Nat.le_refl _) (List.forall_mem_singleton.mpr rfl)⟩

/-! ### Types -/

theorem places_reference : Places source stream lexemes reference
    fun found after => Placed source (offset source lexemes) after found.outline :=
  places_typeName.bind fun _ _ _ placed => Places.pure placed

theorem places_valueType : Places source stream lexemes valueType
    fun found after => Placed source (offset source lexemes) after found.outline := by
  refine Places.look ?_
  split
  · next head =>
    refine Places.ahead ?_
    split
    · exact Places.advance head fun _ _ _ taken => Places.pure (.leaf taken.reached taken.within)
    · exact places_reference
  · exact places_reference
  · exact Places.unexpected

theorem surveys_mapType : Surveys source stream (offset source lexemes) [] lexemes mapType
    fun found faults after => FromStages [.number, .phrase] faults ∧
      ∀ type ∈ found, Placed source (offset source lexemes) after type.outline := by
  refine Surveys.places Places.expect_last fun start rest afterWord opened => ?_
  refine Surveys.places Places.expect_last fun _ rest afterAngle _ => ?_
  refine Surveys.places places_typeName fun key rest afterKey keyPlaced => ?_
  refine Surveys.places Places.expect_last fun _ rest afterComma _ => ?_
  refine Surveys.places places_valueType fun value rest afterValue valuePlaced => ?_
  refine Surveys.places Places.expect_last fun stop rest later closed => ?_
  split
  · refine Surveys.pure ⟨.nil, fun type member => ?_⟩
    obtain rfl := Option.some.inj member
    have parts := (keyPlaced.bare.later afterComma).laid.append valuePlaced.laid
    exact .enclose opened.reached.1 (Nat.le_trans afterWord afterAngle) parts
      (.nil (Nat.le_refl _) fun _ member => absurd member List.not_mem_nil) (Nat.le_refl _)
      closed.reached closed.within
  · have between := keyPlaced.between.widen (Nat.le_trans afterWord afterAngle)
      (Nat.le_trans afterComma (Nat.le_trans afterValue later))
    refine Surveys.report (.singleton between rfl) ?_
    exact Surveys.pure ⟨.singleton (by decide), fun _ member => nomatch member⟩

theorem surveys_fieldType : Surveys source stream (offset source lexemes) [] lexemes fieldType
    fun found faults after => FromStages [.number, .phrase] faults ∧
      ∀ type ∈ found, Placed source (offset source lexemes) after type.outline := by
  refine Surveys.ahead fun tokens => ?_
  split
  · exact surveys_mapType
  · refine Surveys.places places_valueType fun type rest _ placed => ?_
    exact Surveys.pure ⟨.nil, fun _ member => Option.some.inj member ▸ placed⟩

/-! ### Numbers -/

theorem fromStages_fieldNumberFaults (literal : IntLiteral) :
    FromStages [.number, .phrase] (fieldNumberFaults literal) := by
  rw [fieldNumberFaults]
  split
  · exact .singleton (by decide)
  · split
    · exact .singleton (by decide)
    · split
      · exact .nil
      · exact .singleton (by decide)

theorem findings_fieldNumberFaults {literal : IntLiteral}
    (between : literal.span.Between start stop) :
    Findings stream start stop (fieldNumberFaults literal) := by
  rw [fieldNumberFaults]
  split
  · exact .singleton between rfl
  · split
    · exact .singleton between rfl
    · split
      · exact .nil between.ordered
      · exact .singleton between rfl

theorem surveys_fieldNumber : Surveys source stream (offset source lexemes) [] lexemes fieldNumber
    fun found faults after => FromStages [.number, .phrase] faults ∧
      Placed source (offset source lexemes) after found.outline := by
  refine Surveys.places places_signedInt fun literal rest _ placed => ?_
  refine Surveys.report (findings_fieldNumberFaults placed.between) ?_
  exact Surveys.pure ⟨fromStages_fieldNumberFaults literal, placed⟩

/-! ### Fields -/

theorem fromStages_defaultFaults (edition : Option Edition) (options : List OptionSetting) :
    FromStages [.number, .phrase] (defaultFaults edition options) := by
  rw [defaultFaults]
  split
  · exact List.forall_mem_map.mpr fun _ _ => List.mem_cons_of_mem _ List.mem_cons_self
  · exact .nil

/-- The name of an option stands in it. -/
theorem between_nameSpan {setting : OptionSetting} (placed : setting.outline.WellPlaced source) :
    setting.nameSpan.Between setting.outline.span.start setting.outline.span.stop :=
  placed.parts.arranged.between _ List.mem_cons_self _ List.mem_cons_self

theorem findings_defaultFaults {edition : Option Edition} {options : List OptionSetting}
    (laid : Laid source start stop [options.map OptionSetting.outline]) :
    Findings stream start stop (defaultFaults edition options) := by
  obtain ⟨placed, inOrder⟩ := laid.entries List.mem_cons_self
  rw [defaultFaults]
  split
  · rw [List.map_eq_flatMap]
    refine .each laid.arranged.ordered
      (fun option member => (placed option (List.mem_of_mem_filter member)).2)
      ((inOrder.sublist List.filter_sublist).imp .inl) fun option member => ?_
    exact .singleton (between_nameSpan (placed option (List.mem_of_mem_filter member)).1) rfl
  · exact .nil laid.arranged.ordered

theorem surveys_field {context : FieldContext} :
    Surveys source stream (offset source lexemes) [] lexemes (field context)
      fun found faults after => FromStages [.number, .phrase] faults ∧
        ∀ field ∈ found, Placed source (offset source lexemes) after field.outline := by
  refine Surveys.leadingComments fun comments => Surveys.here fun start starts => ?_
  refine surveys_fieldLabel.bind fun (label, labelSpan) faults rest _ ⟨stages, labelLaid⟩ => ?_
  refine Surveys.ahead fun tokens => ?_
  split
  · exact Surveys.here fun _ _ => Surveys.stop
  · refine Surveys.fresh surveys_fieldType
      fun type typeFaults rest _ _ ⟨typeStages, typePlaced⟩ => ?_
    refine Surveys.places places_name fun name rest _ namePlaced => ?_
    refine Surveys.places Places.expect_last fun _ rest afterEquals _ => ?_
    refine Surveys.fresh surveys_fieldNumber
      fun number numberFaults rest _ _ ⟨numberStages, numberPlaced⟩ => ?_
    refine Surveys.known fun before _ => ?_
    refine Surveys.places places_optionalSettings fun options rest _ optionsLaid => ?_
    refine Surveys.edition fun declared => ?_
    refine Surveys.report (before.append (findings_defaultFaults optionsLaid)) ?_
    refine Surveys.places places_terminator fun (stop, trailing) rest _ closed => ?_
    refine Surveys.pure ⟨?_, fun field member => ?_⟩
    · exact ((stages.append typeStages).append numberStages).append
        (fromStages_defaultFaults declared options)
    · obtain ⟨type, typeMember, rfl⟩ := Option.map_eq_some_iff.mp member
      have parts := (((labelLaid.append (typePlaced type typeMember).laid).append
        (namePlaced.later afterEquals).laid).append numberPlaced.laid).append optionsLaid
      rw [List.append_assoc (labelSpan.toList.map leaf),
        List.append_assoc (labelSpan.toList.map leaf)] at parts
      exact .enclose starts (Nat.le_refl _) parts
        (.nil (Nat.le_refl _) fun _ member => absurd member List.not_mem_nil) (Nat.le_refl _)
        closed.reached closed.within

end Parser

end ProtoSchema
