/-
This file defines outlines of schema trees: where each node stands and what stands
in it, and for identifiers the word. An outline is well placed if every node takes
up some bytes of the source, the parts of a node stand in it one after another,
the members of its body stand behind them without overlap, those of each kind in
order, and each identifier is spelled in the source where it stands.
-/

import ProtoSchema.Proofs.Scanning.Fronts
import ProtoSchema.Proofs.Tracking.Rules

namespace ProtoSchema

/-! ### Spans -/

namespace Span

/-- The span takes some bytes between two positions. -/
def Between (start stop : Nat) (span : Span) : Prop :=
  start ≤ span.start ∧ span.start < span.stop ∧ span.stop ≤ stop

/-- The spans do not overlap. -/
def Apart (first second : Span) : Prop :=
  first.stop ≤ second.start ∨ second.stop ≤ first.start

variable {start middle stop first last : Nat} {span other : Span}

theorem Between.widen (between : span.Between middle stop) (ahead : start ≤ middle)
    (onward : stop ≤ last) : span.Between start last :=
  ⟨Nat.le_trans ahead between.1, between.2.1, Nat.le_trans between.2.2 onward⟩

theorem From.between (reached : span.From start stop) : span.Between start stop :=
  ⟨Nat.le_of_eq reached.1.symm, reached.before.1, reached.2.2⟩

theorem Between.ordered (between : span.Between start stop) : start ≤ stop :=
  Nat.le_trans between.1 (Nat.le_trans (Nat.le_of_lt between.2.1) between.2.2)

theorem Between.whole (between : span.Between start stop) : span.Between span.start span.stop :=
  ⟨Nat.le_refl _, between.2.1, Nat.le_refl _⟩

theorem Apart.symm (apart : span.Apart other) : other.Apart span := Or.symm apart

theorem Between.apart (between : span.Between start middle) (later : other.Between middle stop) :
    span.Apart other :=
  .inl (Nat.le_trans between.2.2 later.1)

/-- A span that takes some bytes overlaps itself. -/
theorem Between.not_apart (between : span.Between start stop) : ¬ span.Apart span := by
  have some := between.2.1
  rintro (inverted | inverted) <;> exact absurd some (Nat.not_lt.mpr inverted)

/-- What lies within spans apart is apart. -/
theorem Apart.within {inner outer : Span} (apart : span.Apart other)
    (inside : inner.Between span.start span.stop)
    (otherInside : outer.Between other.start other.stop) : inner.Apart outer := by
  rcases apart with before | behind
  · exact .inl (Nat.le_trans inside.2.2 (Nat.le_trans before otherInside.1))
  · exact .inr (Nat.le_trans otherInside.2.2 (Nat.le_trans behind inside.1))

end Span

/-! ### Kinds -/

/-- More of one kind is more of all, in another order. -/
theorem perm_flatten_modify {Entry : Type} {kinds : List (List Entry)} {kind : Nat}
    (inside : kind < kinds.length) (more : List Entry) :
    (kinds.flatten ++ more).Perm (kinds.modify kind (· ++ more)).flatten := by
  obtain ⟨front, found, back, rfl, -, modified⟩ := List.exists_of_modify (· ++ more) inside
  rw [modified]
  simp only [List.flatten_append, List.flatten_cons, List.append_assoc]
  exact (List.perm_append_comm.append_left found).append_left front.flatten

/-! ### Outlines -/

/-- A node of a tree: its span, the word if it is an identifier, its parts, which have a fixed
order, and behind them the members of its body, kind by kind. -/
inductive Outline where
  | node (span : Span) (word : Option String) (parts : List Outline)
      (members : List (List Outline))

namespace Outline

/-- The place of the whole node. -/
def span : Outline → Span
  | node span _ _ _ => span

/-- A node in which nothing stands. -/
def leaf (span : Span) : Outline := node span none [] []

/-- Nodes of several kinds between two positions: none overlaps another, and those of each kind are
in order. -/
structure Arranged (start stop : Nat) (kinds : List (List Outline)) : Prop where
  ordered : start ≤ stop
  between : ∀ nodes ∈ kinds, ∀ node ∈ nodes, node.span.Between start stop
  inOrder : ∀ nodes ∈ kinds, nodes.Pairwise fun first second =>
    first.span.stop ≤ second.span.start
  apart : kinds.flatten.Pairwise fun first second => first.span.Apart second.span

/-- The node and all that stands in it have their places in the source. -/
inductive WellPlaced (source : List Char) : Outline → Prop
  | node {span : Span} {word : Option String} {parts : List Outline}
      {members : List (List Outline)} (some : span.start < span.stop)
      (within : span.stop ≤ byteLength source) (spelled : ∀ text ∈ word, Spelled source text span)
      (middle : Nat) (partsArranged : Arranged span.start middle [parts])
      (membersArranged : Arranged middle span.stop members)
      (each : ∀ part ∈ parts, WellPlaced source part)
      (eachMember : ∀ nodes ∈ members, ∀ node ∈ nodes, WellPlaced source node) :
      WellPlaced source (.node span word parts members)

/-- The nodes have their places in the source, between two positions. -/
structure Laid (source : List Char) (start stop : Nat) (kinds : List (List Outline)) : Prop where
  arranged : Arranged start stop kinds
  each : ∀ nodes ∈ kinds, ∀ node ∈ nodes, WellPlaced source node

/-- The node has its place in the source, from one position on and up to another. -/
structure Placed (source : List Char) (start stop : Nat) (outline : Outline) : Prop where
  wellPlaced : outline.WellPlaced source
  reached : outline.span.From start stop

variable {source : List Char} {start middle stop first last : Nat} {span : Span}
variable {word : Option String} {outline : Outline} {nodes others : List Outline}
variable {kinds : List (List Outline)}

namespace WellPlaced

theorem some (placed : WellPlaced source outline) : outline.span.start < outline.span.stop := by
  cases placed with
  | node some => exact some

theorem within (placed : WellPlaced source outline) : outline.span.stop ≤ byteLength source := by
  cases placed with
  | node _ within => exact within

/-- The parts and the members of a node, with a position between them. -/
theorem laid {members : List (List Outline)}
    (placed : WellPlaced source (.node span word nodes members)) :
    ∃ middle, Laid source span.start middle [nodes] ∧ Laid source middle span.stop members := by
  cases placed with
  | node _ _ _ middle parts members each eachMember =>
    exact ⟨middle, ⟨parts, List.forall_mem_singleton.mpr each⟩, ⟨members, eachMember⟩⟩

end WellPlaced

theorem Placed.between (placed : Placed source start stop outline) :
    outline.span.Between start stop :=
  placed.reached.between

theorem Placed.later (placed : Placed source start middle outline) (later : middle ≤ stop) :
    Placed source start stop outline :=
  ⟨placed.wellPlaced, placed.reached.later later⟩

/-! ### Arranging nodes -/

theorem Arranged.nil (ordered : start ≤ stop) (empty : ∀ nodes ∈ kinds, nodes = []) :
    Arranged start stop kinds where
  ordered
  between := fun nodes member _ nodeMember =>
    absurd (empty nodes member ▸ nodeMember) List.not_mem_nil
  inOrder := fun nodes member => by
    rw [empty nodes member]
    exact .nil
  apart := by
    rw [List.flatten_eq_nil_iff.mpr empty]
    exact .nil

theorem Arranged.widen (arranged : Arranged middle stop kinds) (ahead : start ≤ middle)
    (onward : stop ≤ last) : Arranged start last kinds :=
  { arranged with
    ordered := Nat.le_trans ahead (Nat.le_trans arranged.ordered onward)
    between := fun nodes member node nodeMember =>
      (arranged.between nodes member node nodeMember).widen ahead onward }

/-- Nodes in order are apart. -/
theorem Arranged.ofPairwise (ordered : start ≤ stop)
    (between : ∀ node ∈ nodes, node.span.Between start stop)
    (inOrder : nodes.Pairwise fun first second => first.span.stop ≤ second.span.start) :
    Arranged start stop [nodes] where
  ordered
  between := List.forall_mem_singleton.mpr between
  inOrder := List.forall_mem_singleton.mpr inOrder
  apart := by
    rw [List.flatten_singleton]
    exact inOrder.imp .inl

namespace Laid

theorem nil (ordered : start ≤ stop) (empty : ∀ nodes ∈ kinds, nodes = []) :
    Laid source start stop kinds :=
  ⟨.nil ordered empty, fun nodes member _ nodeMember =>
    absurd (empty nodes member ▸ nodeMember) List.not_mem_nil⟩

theorem widen (laid : Laid source middle stop kinds) (ahead : start ≤ middle)
    (onward : stop ≤ last) : Laid source start last kinds :=
  ⟨laid.arranged.widen ahead onward, laid.each⟩

theorem later (laid : Laid source start middle kinds) (later : middle ≤ stop) :
    Laid source start stop kinds :=
  laid.widen (Nat.le_refl _) later

/-- Nodes of one kind, and then others of the kind. -/
theorem append (laid : Laid source start middle [nodes]) (more : Laid source middle stop [others]) :
    Laid source start stop [nodes ++ others] := by
  have early := laid.arranged.between nodes List.mem_cons_self
  have late := more.arranged.between others List.mem_cons_self
  refine ⟨.ofPairwise (Nat.le_trans laid.arranged.ordered more.arranged.ordered) ?_ ?_, ?_⟩
  · refine List.forall_mem_append.mpr ⟨fun node member => ?_, fun node member => ?_⟩
    · exact (early node member).widen (Nat.le_refl _) more.arranged.ordered
    · exact (late node member).widen laid.arranged.ordered (Nat.le_refl _)
  · refine List.pairwise_append.mpr ⟨laid.arranged.inOrder nodes List.mem_cons_self,
      more.arranged.inOrder others List.mem_cons_self, fun node member other otherMember => ?_⟩
    exact Nat.le_trans (early node member).2.2 (late other otherMember).1
  · exact List.forall_mem_singleton.mpr (List.forall_mem_append.mpr
      ⟨laid.each nodes List.mem_cons_self, more.each others List.mem_cons_self⟩)

/-- The first of the nodes of one kind. -/
theorem left (laid : Laid source start stop [nodes ++ others]) :
    Laid source start stop [nodes] := by
  have between := laid.arranged.between _ List.mem_cons_self
  have inOrder := laid.arranged.inOrder _ List.mem_cons_self
  have each := laid.each _ List.mem_cons_self
  exact ⟨.ofPairwise laid.arranged.ordered
      (fun node member => between node (List.mem_append_left _ member))
      (List.pairwise_append.mp inOrder).1,
    List.forall_mem_singleton.mpr fun node member => each node (List.mem_append_left _ member)⟩

/-- One more node of a kind, behind all nodes that there are. -/
theorem add (laid : Laid source start middle kinds) (kind : Nat)
    (placed : Placed source middle stop outline) :
    Laid source start stop (kinds.modify kind (· ++ [outline])) := by
  have ahead := placed.between.ordered
  rcases Nat.lt_or_ge kind kinds.length with inside | outside
  · obtain ⟨front, found, back, rfl, -, modified⟩ :=
      List.exists_of_modify (· ++ [outline]) inside
    rw [modified]
    obtain ⟨⟨ordered, between, inOrder, apart⟩, each⟩ := laid
    have behind : ∀ node ∈ (front ++ found :: back).flatten,
        node.span.stop ≤ outline.span.start := by
      intro node member
      obtain ⟨nodes, nodesMember, member⟩ := List.mem_flatten.mp member
      exact Nat.le_trans (between nodes nodesMember node member).2.2 placed.between.1
    simp only [List.forall_mem_append, List.forall_mem_cons] at between inOrder each
    have widened : ∀ {nodes : List Outline}, (∀ node ∈ nodes, node.span.Between start middle) →
        ∀ node ∈ nodes, node.span.Between start stop :=
      fun between node member => (between node member).widen (Nat.le_refl _) ahead
    have added : outline.span.Between start stop :=
      placed.between.widen ordered (Nat.le_refl _)
    have permuted : (front ++ (found ++ [outline]) :: back).flatten.Perm
        ((front ++ found :: back).flatten ++ [outline]) :=
      modified ▸ (perm_flatten_modify inside [outline]).symm
    refine ⟨⟨Nat.le_trans ordered ahead, ?_, ?_, ?_⟩, ?_⟩
    · simp only [List.forall_mem_append, List.forall_mem_cons]
      exact ⟨fun nodes member => widened (between.1 nodes member),
        ⟨widened between.2.1, added, fun _ member => absurd member List.not_mem_nil⟩,
        fun nodes member => widened (between.2.2 nodes member)⟩
    · simp only [List.forall_mem_append, List.forall_mem_cons]
      refine ⟨inOrder.1, List.pairwise_append.mpr ⟨inOrder.2.1, List.pairwise_singleton _ _, ?_⟩,
        inOrder.2.2⟩
      refine fun node member => List.forall_mem_singleton.mpr (behind node ?_)
      exact List.mem_flatten.mpr
        ⟨found, List.mem_append_right _ List.mem_cons_self, member⟩
    · refine (permuted.pairwise_iff fun apart => apart.symm).mpr ?_
      refine List.pairwise_append.mpr ⟨apart, List.pairwise_singleton _ _, fun node member => ?_⟩
      exact List.forall_mem_singleton.mpr (.inl (behind node member))
    · simp only [List.forall_mem_append, List.forall_mem_cons]
      exact ⟨each.1, ⟨each.2.1, placed.wellPlaced, fun _ member => absurd member List.not_mem_nil⟩,
        each.2.2⟩
  · rw [List.modify_eq_self outside]
    exact laid.later ahead

/-- Nodes of one kind stand in their order. -/
theorem entries {Entry : Type} {entries : List Entry} {outline : Entry → Outline}
    (laid : Laid source start stop kinds) (member : entries.map outline ∈ kinds) :
    (∀ entry ∈ entries, (outline entry).WellPlaced source ∧
      (outline entry).span.Between start stop) ∧
      entries.Pairwise fun first second =>
        (outline first).span.stop ≤ (outline second).span.start := by
  refine ⟨fun entry entryMember => ?_, List.pairwise_map.mp (laid.arranged.inOrder _ member)⟩
  have node : outline entry ∈ entries.map outline := List.mem_map_of_mem entryMember
  exact ⟨laid.each _ member _ node, laid.arranged.between _ member _ node⟩

/-- Nodes of different kinds do not overlap. -/
theorem across {first second : Nat} (laid : Laid source start stop kinds) (differ : first < second)
    (firstKind : kinds[first]? = some nodes) (secondKind : kinds[second]? = some others) :
    ∀ node ∈ nodes, ∀ other ∈ others, node.span.Apart other.span := by
  have apart := (List.pairwise_flatten.mp laid.arranged.apart).2
  obtain ⟨firstBound, rfl⟩ := List.getElem?_eq_some_iff.mp firstKind
  obtain ⟨secondBound, rfl⟩ := List.getElem?_eq_some_iff.mp secondKind
  exact List.pairwise_iff_getElem.mp apart first second firstBound secondBound differ

end Laid

/-! ### Nodes -/

/-- A node of parts alone. -/
theorem WellPlaced.ofParts (some : span.start < span.stop) (within : span.stop ≤ byteLength source)
    (parts : Laid source span.start span.stop [nodes]) :
    WellPlaced source (.node span none nodes []) :=
  .node some within (fun _ member => nomatch member) span.stop parts.arranged
    (.nil (Nat.le_refl _) fun _ member => absurd member List.not_mem_nil)
    (parts.each nodes List.mem_cons_self) fun _ member => absurd member List.not_mem_nil

/-- The parts of a node of parts alone. -/
theorem WellPlaced.parts (placed : WellPlaced source (.node span word nodes [])) :
    Laid source span.start span.stop [nodes] := by
  obtain ⟨middle, parts, members⟩ := placed.laid
  exact parts.later members.arranged.ordered

namespace Placed

theorem laid (placed : Placed source start stop outline) :
    Laid source start stop [[outline]] where
  arranged := .ofPairwise placed.between.ordered (List.forall_mem_singleton.mpr placed.between)
    (List.pairwise_singleton _ _)
  each := List.forall_mem_singleton.mpr (List.forall_mem_singleton.mpr placed.wellPlaced)

/-- A node in which nothing stands. -/
theorem empty (reached : span.From start stop) (within : stop ≤ byteLength source)
    (spelled : ∀ text ∈ word, Spelled source text span) :
    Placed source start stop (.node span word [] []) := by
  have some := reached.before.1
  refine ⟨.node some (Nat.le_trans reached.2.2 within) spelled span.stop ?_ ?_ ?_ ?_, reached⟩
  · exact .nil (Nat.le_of_lt some) (List.forall_mem_singleton.mpr rfl)
  · exact .nil (Nat.le_refl _) fun _ member => absurd member List.not_mem_nil
  · exact fun _ member => absurd member List.not_mem_nil
  · exact fun _ member => absurd member List.not_mem_nil

theorem leaf (reached : span.From start stop) (within : stop ≤ byteLength source) :
    Placed source start stop (leaf span) :=
  empty reached within fun _ member => nomatch member

/-- A node without what stands in it. -/
theorem bare (placed : Placed source start stop outline) :
    Placed source start stop (.leaf outline.span) := by
  obtain ⟨wellPlaced, starts, some, inside⟩ := placed
  have whole : outline.span.From start outline.span.stop :=
    ⟨starts, starts ▸ wellPlaced.some, Nat.le_refl _⟩
  exact (leaf whole wellPlaced.within).later inside

/-- A node of parts and members between what opens it and what closes it. -/
theorem enclose {opening closing : Span} {ahead behind : Nat} (starts : opening.start = start)
    (opened : start ≤ ahead) (parts : Laid source ahead middle [nodes])
    (members : Laid source middle behind kinds) (onward : behind ≤ last)
    (closed : closing.From last stop) (within : stop ≤ byteLength source) :
    Placed source start stop (.node (opening.through closing) none nodes kinds) := by
  obtain ⟨rfl, some, inside⟩ := closed
  have inOrder := parts.arranged.ordered
  have more := members.arranged.ordered
  have whole : start < closing.stop := by omega
  refine ⟨.node (starts ▸ whole) (Nat.le_trans inside within) (fun _ member => nomatch member)
    middle ?_ ?_ (parts.each nodes List.mem_cons_self) members.each, starts, whole, inside⟩
  · exact parts.arranged.widen (starts ▸ opened) (Nat.le_refl _)
  · exact members.arranged.widen (Nat.le_refl _) (Nat.le_trans onward (Nat.le_of_lt some))

/-- A node that reaches as far as its only part. -/
theorem alone (placed : Placed source start stop outline) :
    Placed source start stop (.node outline.span none [outline] []) := by
  obtain ⟨wellPlaced, starts, some, inside⟩ := placed
  have whole : Placed source outline.span.start outline.span.stop outline :=
    ⟨wellPlaced, rfl, starts ▸ some, Nat.le_refl _⟩
  exact ⟨.ofParts wellPlaced.some wellPlaced.within whole.laid, starts, some, inside⟩

/-- A node of parts that reaches on to one more part. -/
theorem extend (placed : Placed source start middle (.node span none nodes []))
    (more : Placed source last stop outline) (onward : middle ≤ last) :
    Placed source start stop (.node (span.through outline.span) none (nodes ++ [outline]) []) := by
  have whole : Placed source outline.span.start outline.span.stop outline :=
    ⟨more.wellPlaced, rfl, more.wellPlaced.some, Nat.le_refl _⟩
  obtain ⟨starts, some, inside⟩ := placed.reached
  have behind : span.stop ≤ outline.span.start :=
    Nat.le_trans inside (Nat.le_trans onward more.between.1)
  have longer : span.start < outline.span.stop :=
    Nat.lt_of_lt_of_le placed.wellPlaced.some (Nat.le_trans behind (Nat.le_of_lt more.between.2.1))
  refine ⟨.ofParts longer more.wellPlaced.within ?_, starts, starts ▸ longer, more.between.2.2⟩
  exact (placed.wellPlaced.parts.later behind).append whole.laid

end Placed

end Outline

end ProtoSchema
