/-
This file gives every definition of a tree its lexical path. The names of the
package, of the messages around a declaration and of the declaration itself are
joined by dots, and the definitions of a file are those of its messages, path by
path, and of the enums and services beside them. The scope grows name by name; a
scope with nothing in it yet adds nothing to a name, so what is joined starts with
the first name that is not empty.
-/

import Mathlib.Data.List.Infix
import ProtoSchema.Proofs.Resolution.Qualified
import ProtoSchema.Proofs.Tree.Preorder
import ProtoSchema.Tree.Definitions

namespace ProtoSchema

/-! ### Names joined by dots -/

/-- The names joined by dots, without the empty ones in front. -/
def dotted (names : List String) : String :=
  ".".intercalate (names.dropWhile (· = ""))

theorem dotted_cons_empty (names : List String) : dotted ("" :: names) = dotted names := by
  rw [dotted, List.dropWhile_cons_of_pos (by simp), dotted]

theorem dotted_cons {first : String} (some : first ≠ "") (rest : List String) :
    dotted (first :: rest) = ".".intercalate (first :: rest) := by
  rw [dotted, List.dropWhile_cons_of_neg (by simpa using some)]

/-- If no name is empty, all of them are joined. -/
theorem dotted_eq_intercalate {names : List String} (each : ∀ name ∈ names, name ≠ "") :
    dotted names = ".".intercalate names := by
  cases names with
  | nil => rfl
  | cons first rest => exact dotted_cons (each first List.mem_cons_self) rest

/-- A name is joined on to the names of its scope. -/
theorem qualify_dotted (names : List String) (name : String) :
    qualify (dotted names) name = dotted (names ++ [name]) := by
  induction names with
  | nil =>
    have alone : dotted [name] = name := by
      by_cases empty : name = ""
      · rw [empty]
        rfl
      · rw [dotted_cons empty, String.intercalate_singleton]
    exact (qualify_empty name).trans alone.symm
  | cons first rest inductionHypothesis =>
    rw [List.cons_append]
    by_cases empty : first = ""
    · rw [empty, dotted_cons_empty, dotted_cons_empty, inductionHypothesis]
    · have some : ".".intercalate (first :: rest) ≠ "" := by
        cases rest with
        | nil => simpa using empty
        | cons second others =>
          intro none
          have characters := congrArg String.toList none
          rw [String.intercalate_cons_cons] at characters
          simp at characters
      rw [dotted_cons empty, dotted_cons empty, qualify, if_neg some, ← List.cons_append,
        String.intercalate_append_of_ne_nil (List.cons_ne_nil _ _) (List.cons_ne_nil _ _),
        String.intercalate_singleton]

/-! ### What a declaration defines -/

/-- The enum and its values among the given names. The values are named beside the enum. -/
def Enumeration.definitionsIn (names : List String) (nested : Bool) (enumeration : Enumeration) :
    List Definition :=
  ⟨dotted (names ++ [enumeration.name.text]), .enumeration, enumeration.name.span, dotted names,
      nested⟩ ::
    enumeration.values.map fun value =>
      ⟨dotted (names ++ [value.name.text]), .enumValue, value.name.span,
        dotted (names ++ [enumeration.name.text]), nested⟩

/-- The service and its methods among the given names. -/
def Service.definitionsIn (names : List String) (service : Service) : List Definition :=
  ⟨dotted (names ++ [service.name.text]), .service, service.name.span, dotted names, false⟩ ::
    service.methods.map fun method =>
      ⟨dotted (names ++ [service.name.text, method.name.text]), .method, method.name.span,
        dotted (names ++ [service.name.text]), false⟩

namespace Message

/-- The message of the given names, its own the last, and the enums directly in it. -/
def definitionsAs (names : List String) (nested : Bool) (message : Message) : List Definition :=
  ⟨dotted names, .message, message.name.span, dotted names.dropLast, nested⟩ ::
    message.enums.flatMap (Enumeration.definitionsIn names true)

/-- What the message at a path from a message defines, with that message among the given names. -/
def definitionsAt (message : Message) (outer : List String) (nested : Bool) (path : MessagePath) :
    List Definition :=
  (message.at? path).elim [] fun inner =>
    inner.definitionsAs (outer ++ message.namesTo path) (nested || !path.isEmpty)

end Message

namespace Definition

theorem ofEnum_dotted (names : List String) (nested : Bool) :
    ofEnum (dotted names) nested = Enumeration.definitionsIn names nested := by
  funext enumeration
  simp only [ofEnum, Enumeration.definitionsIn, qualify_dotted]

theorem ofService_dotted (names : List String) :
    ofService (dotted names) = Service.definitionsIn names := by
  funext service
  simp only [ofService, Service.definitionsIn, qualify_dotted, List.append_assoc,
    List.singleton_append]

/-- A message defines what the messages at the paths from it define: along a path each message
adds its name, and all but the first are nested. -/
theorem ofMessage_perm (message : Message) : ∀ (outer : List String) (nested : Bool),
    (ofMessage (dotted outer) nested message).Perm
      (message.positions.flatMap (message.definitionsAt outer nested)) := by
  induction message using Message.induction with
  | step message inductionHypothesis =>
    intro outer nested
    have inside : (message.messages.flatMap
          (ofMessage (dotted (outer ++ [message.name.text])) true)).Perm
        ((Message.positionsFrom 0 message.messages).flatMap
          (message.definitionsAt outer nested)) := by
      refine Message.flatMap_perm_of_positions fun index inner found => ?_
      have along : (fun rest => message.definitionsAt outer nested (index :: rest)) =
          inner.definitionsAt (outer ++ [message.name.text]) true := by
        funext rest
        simp [Message.definitionsAt, Message.at?, Message.namesTo, found]
      rw [along]
      exact inductionHypothesis inner (List.mem_of_getElem? found) _ true
    have own : message.definitionsAt outer nested [] =
        message.definitionsAs (outer ++ [message.name.text]) nested := by
      simp [Message.definitionsAt, Message.at?, Message.namesTo]
    rw [ofMessage_eq, Message.positions_eq, List.flatMap_cons, own, Message.definitionsAs,
      qualify_dotted, ofEnum_dotted, List.dropLast_concat, List.cons_append]
    exact (List.perm_append_comm.trans (inside.append_left _)).cons _

/-- The parts of a package behind some others, each with all parts before it. -/
theorem ofParts_eq (start : Nat) (before parts : List Name) :
    ofParts start (dotted (before.map Name.text)) parts =
      parts.inits.tail.map fun front =>
        ⟨dotted ((before ++ front).map Name.text), .package,
          ⟨start, ((before ++ front).getLast?.map (·.span.stop)).getD 0⟩, "", false⟩ := by
  induction parts generalizing before with
  | nil => rfl
  | cons part rest inductionHypothesis =>
    have fronts : (part :: rest).inits.tail = [part] :: rest.inits.tail.map (part :: ·) := by
      cases rest <;> rfl
    have behind := inductionHypothesis (before ++ [part])
    rw [List.map_append, List.map_singleton] at behind
    rw [ofParts, qualify_dotted, behind, fronts, List.map_cons, List.map_map]
    simp only [Function.comp_def, List.append_assoc, List.singleton_append, List.map_append,
      List.map_singleton, List.getLast?_concat, Option.map_some, Option.getD_some]

theorem ofPackage_eq (package : Package) :
    ofPackage package = package.name.parts.inits.tail.map fun front =>
      ⟨dotted (front.map Name.text), .package, (⟨front⟩ : DottedName).span, "", false⟩ := by
  obtain ⟨⟨parts⟩, comments, span⟩ := package
  refine (ofParts_eq _ [] parts).trans (List.map_congr_left fun front member => ?_)
  cases parts with
  | nil => cases member
  | cons part rest =>
    rw [List.inits_cons, List.tail_cons] at member
    obtain ⟨others, -, rfl⟩ := List.mem_map.mp member
    rfl

end Definition

namespace File

variable (file : File)

/-- The package of each part, with the parts before it. -/
def packageDefinitions : List Definition :=
  file.package.toList.flatMap fun package => package.name.parts.inits.tail.map fun front =>
    ⟨dotted (front.map Name.text), .package, (⟨front⟩ : DottedName).span, "", false⟩

/-- What the message at a path defines: itself and its enums, under the names of the package and of
the messages along the path. -/
def definitionsAt (path : MessagePath) : List Definition :=
  (file.messageAt? path).elim [] fun message =>
    message.definitionsAs (file.packageParts ++ file.namesTo path) (1 < path.length)

/-- The names that all others in the file follow are those of the package. -/
theorem scope_eq_dotted : file.scope = dotted file.packageParts := by
  have folded (parts : List Name) : ∀ before : List String,
      parts.foldl (fun scope part => qualify scope part.text) (dotted before) =
        dotted (before ++ parts.map Name.text) := by
    induction parts with
    | nil =>
      intro before
      rw [List.foldl_nil, List.map_nil, List.append_nil]
    | cons part rest inductionHypothesis =>
      intro before
      rw [List.foldl_cons, qualify_dotted, inductionHypothesis, List.map_cons, List.append_assoc,
        List.singleton_append]
  unfold scope packageParts
  cases file.package with
  | none => rfl
  | some package =>
    simp only [Option.toList_some, List.flatMap_singleton]
    exact folded package.name.parts []

theorem ofMessages_perm :
    (Definition.ofMessages file.scope false file.messages).Perm
      (file.positions.flatMap file.definitionsAt) := by
  rw [Definition.ofMessages_eq, scope_eq_dotted, positions]
  refine Message.flatMap_perm_of_positions fun index message found => ?_
  have along : (fun rest => file.definitionsAt (index :: rest)) =
      message.definitionsAt file.packageParts false := by
    funext rest
    cases rest <;>
      simp [definitionsAt, messageAt?, descend_cons_eq, Message.definitionsAt, namesTo, found]
  rw [along]
  exact Definition.ofMessage_perm message _ false

/-- The definitions of a file are the parts of the package in order, and then, each once and no
others, what is defined at the paths to messages and by the enums and services beside them. -/
theorem definitions_perm : ∃ declared, file.definitions = file.packageDefinitions ++ declared ∧
    declared.Perm (file.positions.flatMap file.definitionsAt ++
      file.enums.flatMap (Enumeration.definitionsIn file.packageParts false) ++
      file.services.flatMap (Service.definitionsIn file.packageParts)) := by
  have packages : file.package.toList.flatMap Definition.ofPackage = file.packageDefinitions :=
    List.flatMap_congr fun package _ => Definition.ofPackage_eq package
  refine ⟨_, ?_, (file.ofMessages_perm.append_right _).append_right _⟩
  rw [definitions, packages, scope_eq_dotted, Definition.ofEnum_dotted,
    Definition.ofService_dotted, List.append_assoc, List.append_assoc, List.append_assoc]

end File

end ProtoSchema
