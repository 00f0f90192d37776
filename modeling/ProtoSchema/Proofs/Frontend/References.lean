/-
This file says exactly when a name with dots in an accepted file is resolved to an
enum. The package is taken off the name before it is looked up, and a dot in front
of it is not looked at; so the package may hide an enum from its own path, and a
name with a dot in front may lead to an enum whose full name it is not.
-/

import ProtoSchema.Proofs.Frontend.Accepted
import ProtoSchema.Proofs.Resolution.EnumNames

namespace ProtoSchema

/-! ### Names that spell the path of an enum -/

/-- Wherever a type of an accepted file is written as the path of a nested enum, it is resolved to
an enum unless the path starts with the package; then what follows the package decides, read as a
name of its own. -/
theorem kind_of_enumPath_of_parse (options : ParseOptions) (source : String) (file : File)
    (accepted : options.parse source = .ok file) (path : List String)
    (declares : file.DeclaresEnum path) (nested : 2 ≤ path.length) (site : Site)
    (member : site ∈ (if options.resolves then file else file.resolve).sites)
    (written : site.type.name.path.parts.map Name.text = path) :
    site.type.kind = .enumeration ↔
      file.withoutPackage path = path ∨ file.ReadsEnum (file.withoutPackage path) := by
  obtain ⟨parsed, wellFormed, rfl⟩ := ParseOptions.wellFormed_of_parse accepted
  have qualified : site.type.name.isQualified = true := by
    rw [← written, List.length_map] at nested
    unfold TypeName.isQualified
    rw [Bool.or_eq_true, decide_eq_true_eq]
    exact .inr nested
  have direct (eq : (options.finish parsed).withoutPackage path = path) :
      (options.finish parsed).ReadsEnum ((options.finish parsed).withoutPackage path) := by
    rw [eq]
    exact .inl declares
  rw [or_iff_right_of_imp direct, ← written]
  unfold ParseOptions.finish at member ⊢
  by_cases resolves : options.resolves = true
  · rw [if_pos resolves] at member ⊢
    rw [if_pos resolves] at member
    rw [File.withoutPackage_resolve, File.readsEnum_resolve]
    exact wellFormed.kind_of_isQualified member qualified
  · rw [if_neg resolves] at member ⊢
    rw [if_neg resolves] at member
    exact wellFormed.kind_of_isQualified member qualified

/-- In a package of the name of a message, a path through that message is read relative to the
package, and so leads to an enum at the top. -/
theorem kind_of_enumPath_sample : ∃ file : File,
    parse "package M; enum E { B = 0; } message M { enum E { A = 0; } M.E x = 1; }" = .ok file ∧
      file.DeclaresEnum ["M", "E"] ∧ file.withoutPackage ["M", "E"] = ["E"] ∧
      ∃ site ∈ file.sites, site.type.name.path.parts.map Name.text = ["M", "E"] ∧
        site.type.kind = .enumeration := by
  obtain ⟨file, accepted, checked⟩ := exists_of_check
    (parse "package M; enum E { B = 0; } message M { enum E { A = 0; } M.E x = 1; }")
    (fun file => file.packageParts = ["M"] && file.enums.map (·.name.text) = ["E"] &&
      file.messages.map (fun message => (message.name.text, message.enums.map (·.name.text))) =
        [("M", ["E"])] &&
      file.sites.map (·.type.name.path.parts.map Name.text) = [["M", "E"]])
    (by decide +kernel)
  simp only [Bool.and_eq_true, decide_eq_true_eq, List.map_eq_singleton_iff, Prod.mk.injEq]
    at checked
  obtain ⟨⟨⟨package, top, enums, topName⟩, message, messages, name, inner, nested, innerName⟩,
    site, sites, parts⟩ := checked
  have member : site ∈ file.sites := by rw [sites]; exact List.mem_singleton_self _
  have declares : file.DeclaresEnum ["M", "E"] := by
    rw [← name, ← innerName]
    exact File.declaresEnum_of_mem (by rw [messages]; exact List.mem_singleton_self _)
      (by rw [nested]; exact List.mem_singleton_self _)
  have left : file.withoutPackage ["M", "E"] = ["E"] := by
    rw [File.withoutPackage, package]
    rfl
  have declaresTop : file.DeclaresEnum ["E"] := by
    refine ⟨[], .top, top, ?_, by rw [topName]; rfl⟩
    rw [File.enumsAt, enums]
    exact List.mem_singleton_self _
  refine ⟨file, accepted, declares, left, site, member, parts, ?_⟩
  refine (kind_of_enumPath_of_parse {} _ file accepted _ declares (by decide) site member parts).mpr
    (.inr ?_)
  rw [left]
  exact .inl declaresTop

/-- Without an enum at the top, the package hides the enum from its own path. -/
theorem package_hides_enum : ∃ file : File,
    parse "package M; message M { enum E { A = 0; } M.E x = 1; }" = .ok file ∧
      file.DeclaresEnum ["M", "E"] ∧
      ∃ site ∈ file.sites, site.type.name.dot = none ∧
        site.type.name.path.parts.map Name.text = ["M", "E"] ∧ site.type.kind = .message := by
  obtain ⟨file, accepted, checked⟩ := exists_of_check
    (parse "package M; message M { enum E { A = 0; } M.E x = 1; }")
    (fun file => file.messages.map (fun message => (message.name.text,
        message.enums.map (·.name.text))) = [("M", ["E"])] &&
      file.sites.map (fun site => (site.type.name.dot,
        site.type.name.path.parts.map Name.text, site.type.kind)) = [(none, ["M", "E"], .message)])
    (by decide +kernel)
  simp only [Bool.and_eq_true, decide_eq_true_eq, List.map_eq_singleton_iff, Prod.mk.injEq]
    at checked
  obtain ⟨⟨message, messages, name, inner, nested, innerName⟩, site, sites, undotted, parts,
    kind⟩ := checked
  have declares : file.DeclaresEnum ["M", "E"] := by
    rw [← name, ← innerName]
    exact File.declaresEnum_of_mem (by rw [messages]; exact List.mem_singleton_self _)
      (by rw [nested]; exact List.mem_singleton_self _)
  refine ⟨file, accepted, declares, site, ?_, undotted, ?_, kind⟩
  · rw [sites]
    exact List.mem_singleton_self _
  · exact parts

/-- A package of another name hides no enum from its path. -/
example : (parse "package N; message M { enum E { A = 0; } M.E x = 1; }").toOption.map
    (fun file => file.sites.map (·.type.kind)) = some [.enumeration] := by decide +kernel

/-! ### Names with a dot in front -/

/-- Wherever a type of an accepted file is written with a dot in front, it is resolved to an enum
exactly if what follows the dot is the full name of an enum of the file, or the path of one with the
package left out, or leads to one through the first message of its first part. -/
theorem kind_of_dotted_of_parse (options : ParseOptions) (source : String) (file : File)
    (accepted : options.parse source = .ok file) (site : Site)
    (member : site ∈ (if options.resolves then file else file.resolve).sites)
    (dotted : site.type.name.dot.isSome = true) :
    let parts := site.type.name.path.parts.map Name.text
    site.type.kind = .enumeration ↔
      file.DefinesEnum site.type.name.path.text ∨
        (file.packageParts ≠ [] ∧ file.withoutPackage parts = parts ∧ file.DeclaresEnum parts) ∨
        (¬ file.DeclaresMessage (file.withoutPackage parts) ∧
          file.ReadsThrough (file.withoutPackage parts)) := by
  intro parts
  obtain ⟨parsed, wellFormed, rfl⟩ := ParseOptions.wellFormed_of_parse accepted
  have qualified : site.type.name.isQualified = true := by
    unfold TypeName.isQualified
    rw [dotted, Bool.true_or]
  unfold ParseOptions.finish at member ⊢
  by_cases resolves : options.resolves = true
  · rw [if_pos resolves] at member ⊢
    rw [if_pos resolves] at member
    rw [File.definesEnum_resolve, File.withoutPackage_resolve, File.declaresEnum_resolve,
      File.declaresMessage_resolve, File.readsThrough_resolve]
    exact wellFormed.kind_of_isQualified_iff member qualified
  · rw [if_neg resolves] at member ⊢
    rw [if_neg resolves] at member
    exact wellFormed.kind_of_isQualified_iff member qualified

/-- With the package in front, what follows the dot is a full name. -/
theorem kind_of_dotted_sample : ∃ file : File,
    parse "package p; message M { enum E { A = 0; } map<int32, .p.M.E> x = 1; }" = .ok file ∧
      ∃ site ∈ file.sites, site.type.name.dot.isSome = true ∧
        file.DefinesEnum site.type.name.path.text ∧ site.type.kind = .enumeration := by
  obtain ⟨file, accepted, checked⟩ := exists_of_check
    (parse "package p; message M { enum E { A = 0; } map<int32, .p.M.E> x = 1; }")
    (fun file => file.sites.map (fun site => (site.type.name.dot.isSome,
        site.type.name.path.text)) = [(true, "p.M.E")] &&
      file.definitions.any fun definition =>
        definition.kind = .enumeration && definition.fullName = "p.M.E")
    (by decide +kernel)
  simp only [Bool.and_eq_true, decide_eq_true_eq, List.map_eq_singleton_iff, Prod.mk.injEq,
    List.any_eq_true] at checked
  obtain ⟨⟨site, sites, dotted, text⟩, definition, definitionMember, kind, name⟩ := checked
  have member : site ∈ file.sites := by rw [sites]; exact List.mem_singleton_self _
  have defines : file.DefinesEnum site.type.name.path.text := by
    rw [text]
    exact ⟨definition, definitionMember, kind, name⟩
  exact ⟨file, accepted, site, member, dotted, defines,
    (kind_of_dotted_of_parse {} _ file accepted site member dotted).mpr (.inl defines)⟩

/-- In a package, a dot in front of a path does not make it a name from the root. -/
theorem dot_names_no_root : ∃ file : File,
    parse "package p; message M { enum E { A = 0; } .M.E x = 1; }" = .ok file ∧
      ∃ site ∈ file.sites, site.type.name.dot.isSome = true ∧
        site.type.name.path.text = "M.E" ∧ site.type.kind = .enumeration ∧
        ¬ file.DefinesEnum "M.E" := by
  obtain ⟨file, accepted, checked⟩ := exists_of_check
    (parse "package p; message M { enum E { A = 0; } .M.E x = 1; }")
    (fun file => file.sites.map (fun site => (site.type.name.dot.isSome,
        site.type.name.path.text, site.type.kind)) = [(true, "M.E", .enumeration)] &&
      file.definitions.all fun definition =>
        definition.kind ≠ .enumeration || definition.fullName ≠ "M.E")
    (by decide +kernel)
  simp only [Bool.and_eq_true, decide_eq_true_eq, List.map_eq_singleton_iff, Prod.mk.injEq,
    List.all_eq_true, Bool.or_eq_true] at checked
  obtain ⟨⟨site, sites, dotted, text, kind⟩, others⟩ := checked
  refine ⟨file, accepted, site, ?_, dotted, text, kind, ?_⟩
  · rw [sites]
    exact List.mem_singleton_self _
  · intro ⟨definition, member, enumeration, name⟩
    obtain other | other := others definition member
    · exact other enumeration
    · exact other name

end ProtoSchema
