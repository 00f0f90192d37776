/-
This file says what holds of the names in an accepted file: no two definitions
share a full name, a name without dots is that of an enum exactly if such an enum
is declared around the place where it is used, or at the top, and a name that
spells the package and then the path of a message or an enum is that of it. The
definitions of any file go by the lexical paths, and the symbol table of an accepted
file, which has no two types of one full name, knows the same types.
-/

import ProtoSchema.Proofs.Frontend.Accepted
import ProtoSchema.Proofs.Resolution.Qualified
import ProtoSchema.Proofs.Resolution.Symbols
import ProtoSchema.Tree.Edit

namespace ProtoSchema

/-- No two definitions of an accepted file share a full name. -/
theorem nodup_fullNames_of_parse (options : ParseOptions) (source : String) (file : File)
    (accepted : options.parse source = .ok file) :
    (file.definitions.map Definition.fullName).Nodup := by
  obtain ⟨parsed, wellFormed, rfl⟩ := ParseOptions.wellFormed_of_parse accepted
  rw [ParseOptions.definitions_finish]
  exact wellFormed.nodup_fullNames

/-- Names that are only alike relative to what they stand in are no duplicates. -/
theorem nodup_fullNames_sample : ∃ file : File,
    parse ("package p.q; message M { message M { enum E { A = 0; } } enum E { A = 0; } } " ++
      "enum E { B = 0; } service S { rpc M(M) returns (M); }") = .ok file ∧
      file.definitions.length = 12 ∧ (file.definitions.map Definition.fullName).Nodup := by
  obtain ⟨file, accepted, checked⟩ := exists_of_check
    (parse ("package p.q; message M { message M { enum E { A = 0; } } enum E { A = 0; } } " ++
      "enum E { B = 0; } service S { rpc M(M) returns (M); }"))
    (fun file => file.definitions.length = 12) (by decide +kernel)
  exact ⟨file, accepted, by simpa using checked, nodup_fullNames_of_parse {} _ file accepted⟩

/-- A name that declarations of two kinds take is refused. -/
example : (parse "message A { } enum A { B = 0; }").toOption.isNone = true := by decide +kernel

/-- In a file accepted without resolving, resolving decides each bare name, wherever it is used, by
the enums declared around that place and at the top, and by nothing else. -/
theorem resolved_sites_of_parse (options : ParseOptions) (source : String) (file : File)
    (unresolved : options.resolves = false) (accepted : options.parse source = .ok file) :
    List.Forall₂ (Site.ResolvedIn file) file.sites file.resolve.sites := by
  obtain ⟨parsed, wellFormed, rfl⟩ := ParseOptions.wellFormed_of_parse accepted
  rw [ParseOptions.finish, unresolved, if_neg Bool.false_ne_true]
  exact wellFormed.resolved_sites

/-- A nearer message does not hide an enum, and enums inside other messages are not seen. -/
theorem resolved_sites_sample : ∃ file : File,
    (⟨"", false, defaultMaxLength⟩ : ParseOptions).parse
        ("message M { enum E { A = 0; } message N { message E { } map<string, E> x = 1; } } " ++
          "message O { oneof o { E y = 1; } }") = .ok file ∧
      file.sites.map (·.type.kind) = [.unresolved, .unresolved] ∧
      file.resolve.sites.map (·.type.kind) = [.enumeration, .message] ∧
      List.Forall₂ (Site.ResolvedIn file) file.sites file.resolve.sites := by
  obtain ⟨file, accepted, checked⟩ := exists_of_check
    ((⟨"", false, defaultMaxLength⟩ : ParseOptions).parse
      ("message M { enum E { A = 0; } message N { message E { } map<string, E> x = 1; } } " ++
        "message O { oneof o { E y = 1; } }"))
    (fun file => file.sites.map (·.type.kind) = [.unresolved, .unresolved] &&
      file.resolve.sites.map (·.type.kind) = [.enumeration, .message]) (by decide +kernel)
  rw [Bool.and_eq_true, decide_eq_true_eq, decide_eq_true_eq] at checked
  exact ⟨file, accepted, checked.1, checked.2, resolved_sites_of_parse _ _ file rfl accepted⟩

/-- Wherever a type of an accepted file is written with the package and the path of a message or an
enum of the file, with or without a dot in front, it is resolved to that. -/
theorem kind_of_spells_of_parse (options : ParseOptions) (source : String) (file : File)
    (accepted : options.parse source = .ok file) (path : List String) (site : Site)
    (member : site ∈ (if options.resolves then file else file.resolve).sites)
    (spells : file.Spells site.type.name path) :
    (file.DeclaresMessage path → site.type.kind = .message) ∧
      (file.DeclaresEnum path → site.type.kind = .enumeration) := by
  obtain ⟨parsed, wellFormed, rfl⟩ := ParseOptions.wellFormed_of_parse accepted
  rw [ParseOptions.finish] at member spells ⊢
  by_cases resolves : options.resolves = true
  · rw [if_pos resolves] at spells ⊢
    rw [if_pos resolves, if_pos resolves] at member
    rw [File.declaresMessage_resolve, File.declaresEnum_resolve]
    exact wellFormed.kind_of_spells member (File.spells_resolve.mp spells)
  · rw [if_neg resolves] at spells ⊢
    rw [if_neg resolves, if_neg resolves] at member
    exact wellFormed.kind_of_spells member spells

/-- The name of a package may be that of messages in it, and without a package a dot stands in front
of the name of a message at the top. -/
theorem kind_of_spells_sample :
    (∃ file : File,
      parse "package P.P; message P { message P { enum P { A = 0; } } map<int32, P.P.P.P.P> x = 1; }" =
        .ok file ∧
      ∃ site ∈ file.sites, file.Spells site.type.name ["P", "P", "P"] ∧
        file.DeclaresEnum ["P", "P", "P"] ∧ site.type.kind = .enumeration) ∧
    ∃ file : File, parse "message T { .T x = 1; }" = .ok file ∧
      ∃ site ∈ file.sites, file.Spells site.type.name ["T"] ∧
        file.DeclaresMessage ["T"] ∧ site.type.kind = .message := by
  refine ⟨?_, ?_⟩
  · obtain ⟨file, accepted, checked⟩ := exists_of_check
      (parse "package P.P; message P { message P { enum P { A = 0; } } map<int32, P.P.P.P.P> x = 1; }")
      (fun file => file.packageParts = ["P", "P"] &&
        file.messages.map (fun message => (message.name.text, message.messages.map fun inner =>
          (inner.name.text, inner.enums.map (·.name.text)))) = [("P", [("P", ["P"])])] &&
        file.sites.map (·.type.name.path.parts.map Name.text) = [["P", "P", "P", "P", "P"]])
      (by decide +kernel)
    simp only [Bool.and_eq_true, decide_eq_true_eq, List.map_eq_singleton_iff, Prod.mk.injEq]
      at checked
    obtain ⟨⟨package, outer, messages, outerName, inner, nested, innerName, enumeration, enums,
      enumName⟩, site, sites, parts⟩ := checked
    have member : site ∈ file.sites := by rw [sites]; exact List.mem_singleton_self _
    have spells : file.Spells site.type.name ["P", "P", "P"] :=
      ⟨by rw [parts, package]; rfl, fun _ => .inr (by decide)⟩
    have declares : file.DeclaresEnum ["P", "P", "P"] := by
      refine ⟨[inner, outer], .inside (.inside .top ?_) ?_, enumeration, ?_, ?_⟩
      · rw [File.messagesAt, messages]
        exact List.mem_singleton_self _
      · rw [File.messagesAt, nested]
        exact List.mem_singleton_self _
      · rw [File.enumsAt, enums]
        exact List.mem_singleton_self _
      · rw [File.namesOf_cons, File.namesOf_cons, outerName, innerName, enumName]
        rfl
    exact ⟨file, accepted, site, member, spells, declares,
      (kind_of_spells_of_parse {} _ file accepted _ site member spells).2 declares⟩
  · obtain ⟨file, accepted, checked⟩ := exists_of_check
      (parse "message T { .T x = 1; }")
      (fun file => file.packageParts = [] &&
        file.messages.map (·.name.text) = ["T"] &&
        file.sites.map (fun site => (site.type.name.dot.isSome,
          site.type.name.path.parts.map Name.text)) = [(true, ["T"])])
      (by decide +kernel)
    simp only [Bool.and_eq_true, decide_eq_true_eq, List.map_eq_singleton_iff, Prod.mk.injEq]
      at checked
    obtain ⟨⟨package, message, messages, name⟩, site, sites, dot, part, parts, text⟩ := checked
    have member : site ∈ file.sites := by rw [sites]; exact List.mem_singleton_self _
    have spells : file.Spells site.type.name ["T"] :=
      ⟨by rw [parts, package, List.map_singleton, text]; rfl, fun _ => .inl dot⟩
    have declares : file.DeclaresMessage ["T"] := by
      refine ⟨[], .top, message, ?_, by rw [name]; rfl⟩
      rw [File.messagesAt, messages]
      exact List.mem_singleton_self _
    exact ⟨file, accepted, site, member, spells, declares,
      (kind_of_spells_of_parse {} _ file accepted _ site member spells).1 declares⟩

/-- A name that starts with the name of another package is that of a message. -/
example : (parse "package p; enum E { A = 0; } message M { q.E x = 1; }").toOption.map
    (fun file => file.sites.map (·.type.kind)) = some [.message] := by decide +kernel

/-! ### The definitions of a tree -/

/-- The definitions of a file are its package, part by part, and then what its messages, enums and
services define, each once and under its lexical path: the messages are those at the paths that lead
somewhere, and every name follows those of the package and of the messages around it. -/
theorem definitions_lexical (file : File) :
    (∀ path, path ∈ file.positions ↔ (file.messageAt? path).isSome) ∧
    file.positions.Pairwise (· < ·) ∧
    ∃ declared, file.definitions = file.packageDefinitions ++ declared ∧
      declared.Perm (file.positions.flatMap file.definitionsAt ++
        file.enums.flatMap (Enumeration.definitionsIn file.packageParts false) ++
        file.services.flatMap (Service.definitionsIn file.packageParts)) :=
  ⟨fun _ => File.mem_positions_iff, file.pairwise_positions, file.definitions_perm⟩

/-- A message whose name was edited away adds no dot to the names of those in it. -/
theorem unnamed_message_adds_nothing : ∃ parsed file,
    parse "message A { message B { } }" = .ok parsed ∧
      parsed.renameMessage? [0] "" = some file ∧ file.packageParts = [] ∧
        file.namesTo [0, 0] = ["", "B"] ∧
          ¬ ∃ definition ∈ file.definitions,
            definition.fullName = ".".intercalate (file.packageParts ++ file.namesTo [0, 0]) := by
  obtain ⟨parsed, accepted, checked⟩ := exists_of_check (parse "message A { message B { } }")
    (fun parsed : File => (parsed.renameMessage? [0] "").any fun file : File =>
      decide (file.packageParts = [] ∧ file.namesTo [0, 0] = ["", "B"] ∧
        file.definitions.map Definition.fullName = ["", "B"])) (by decide +kernel)
  obtain ⟨file, renamed, holds⟩ := (Option.any_eq_true _ _).mp checked
  obtain ⟨package, names, fullNames⟩ := of_decide_eq_true holds
  refine ⟨parsed, file, accepted, renamed, package, names, ?_⟩
  rintro ⟨definition, member, name⟩
  have listed : definition.fullName ∈ ["", "B"] := fullNames ▸ List.mem_map_of_mem member
  rw [name, package, names] at listed
  exact absurd listed (by decide)

/-! ### The symbol table of an accepted file -/

namespace ParseOptions

variable {options : ParseOptions}

theorem packageName_finish (parsed : File) :
    (options.finish parsed).packageName = parsed.packageName := by
  rw [finish]
  split <;> rfl

theorem ofFile_finish (parsed : File) :
    SymbolTable.ofFile (options.finish parsed) = SymbolTable.ofFile parsed := by
  rw [finish]
  split
  · exact SymbolTable.ofFile_resolve parsed
  · rfl

theorem defines_finish {parsed : File} {kind : DefinitionKind} {fullName : String} :
    (options.finish parsed).Defines kind fullName ↔ parsed.Defines kind fullName := by
  rw [File.Defines, definitions_finish, File.Defines]

end ParseOptions

/-- In an accepted file, a name is found in the table as a message or as an enum exactly if there is
a definition of that kind under the name within the package, and nothing else is found; and the
messages of the table are those at the paths that lead somewhere, each before those in it and those
beside each other in order. -/
theorem symbols_agree {options : ParseOptions} {source : String} {file : File}
    (accepted : options.parse source = .ok file) :
    (∀ name,
      ((SymbolTable.ofFile file).get? name = some .message ↔
        file.Defines .message (qualify file.packageName name)) ∧
      ((SymbolTable.ofFile file).get? name = some .enumeration ↔
        file.Defines .enumeration (qualify file.packageName name)) ∧
      ((SymbolTable.ofFile file).get? name = none ↔
        ¬ file.Defines .message (qualify file.packageName name) ∧
          ¬ file.Defines .enumeration (qualify file.packageName name))) ∧
    (∀ path, path ∈ file.positions ↔ (file.messageAt? path).isSome) ∧
    file.positions.Pairwise (· < ·) ∧
    (SymbolTable.ofFile file).messages =
      file.positions.map fun path =>
        ⟨(file.namesTo path).getLastD "", dotted (file.namesTo path)⟩ := by
  refine ⟨fun name => ?_, fun _ => File.mem_positions_iff, file.pairwise_positions,
    file.messages_table⟩
  obtain ⟨parsed, wellFormed, rfl⟩ := ParseOptions.wellFormed_of_parse accepted
  rw [ParseOptions.packageName_finish, ParseOptions.ofFile_finish, ParseOptions.defines_finish,
    ParseOptions.defines_finish, ← wellFormed.get?_message_iff, ← wellFormed.get?_enumeration_iff]
  refine ⟨Iff.rfl, Iff.rfl, ?_⟩
  obtain found | found | found := (SymbolTable.ofFile parsed).get?_cases name
  · simp [found]
  · simp [found]
  · simp [found]

/-- A message in a message of a package. -/
theorem symbols_agree_sample : ∃ file,
    parse "package p.q; message M { message N { } enum E { A = 0; } }" = .ok file ∧
      file.Defines .message (qualify file.packageName "M.N") ∧
        (SymbolTable.ofFile file).get? "M.N" = some .message := by
  obtain ⟨file, accepted, checked⟩ := exists_of_check
    (parse "package p.q; message M { message N { } enum E { A = 0; } }")
    (fun file : File => file.definitions.any fun definition =>
      decide (definition.kind = .message ∧
        definition.fullName = qualify file.packageName "M.N")) (by decide +kernel)
  obtain ⟨definition, member, holds⟩ := List.any_eq_true.mp checked
  have defines : file.Defines .message (qualify file.packageName "M.N") :=
    ⟨definition, member, of_decide_eq_true holds⟩
  exact ⟨file, accepted, defines, ((symbols_agree accepted).1 "M.N").1.mpr defines⟩

end ProtoSchema
