/-
This file shows that no comment of an accepted source is attached twice. The texts
of the comments in the tree are made up of comments of the source, and taken in
the order of the declarations in the source, these are some of its comments in
their order. What is above a declaration stands before its first token, and what
trails it behind.
-/

import ProtoSchema.Proofs.Comment.Files
import ProtoSchema.Proofs.Frontend.Accepted

namespace ProtoSchema

theorem ParseOptions.remarks_finish {options : ParseOptions} (parsed : File) :
    (options.finish parsed).remarks = parsed.remarks := by
  rw [finish]
  split
  · exact parsed.remarks_resolve
  · rfl

/-- The comments of all declarations in an accepted file, at every depth, are made up of comments of
the source: those of a declaration stand around its first token, and those of all declarations, in
the order of the source, are among the comments of the source in their order, each at most once. -/
theorem comments_attached_once {options : ParseOptions} {source : String} {file : File}
    (accepted : options.parse source = .ok file) :
    ∃ (pieces : List Piece) (attributions : List Attribution),
      scan source.toList = .pieces pieces ∧
      (attributions.map Attribution.remark).Perm file.remarks ∧
      (∀ attribution ∈ attributions, attribution.Explains pieces) ∧
      (attributions.flatMap Attribution.comments).Sublist (pieces.filter Piece.isComment) ∧
      (attributions.flatMap Attribution.comments).Nodup ∧
      (attributions.flatMap Attribution.comments).Pairwise fun first second =>
        first.span.stop ≤ second.span.start := by
  obtain ⟨pieces, parsed, ⟨-, scanned, rest, done⟩, rfl⟩ := ParseOptions.parse_eq_ok_iff.mp accepted
  obtain ⟨-, row, same, inRow⟩ := Parser.notes_file _ parsed rest rfl done
  obtain ⟨gaps, glossed, whole⟩ := exists_glossed scanned
  obtain ⟨attributions, remarks, explains, among⟩ := inRow.attribute glossed
  have sublist : (attributions.flatMap Attribution.comments).Sublist
      (pieces.filter Piece.isComment) := whole ▸ among.trans (commentsFrom_sublist gaps)
  have increasing := increasing_of_scan scanned
  have inOrder : pieces.Pairwise fun first second => first.span.stop ≤ second.span.start :=
    List.pairwise_map.mp increasing.ordered
  have distinct : pieces.Nodup := by
    refine inOrder.imp_of_mem fun {first second} member _ ahead equal => ?_
    have some := (increasing.each first.span (List.mem_map_of_mem member)).1
    rw [equal] at some ahead
    exact absurd ahead (Nat.not_le.mpr some)
  have fewer := sublist.trans List.filter_sublist
  refine ⟨pieces, attributions, scanned, ?_, explains, sublist, distinct.sublist fewer,
    inOrder.sublist fewer⟩
  rw [remarks, ParseOptions.remarks_finish]
  exact same

/-- A block above the first message, one that leads it and one behind its brace; in its body a run
leads a field, and the comment behind the field does not lead the next message. -/
theorem comments_attached_once_sample : ∃ file,
    parse "/*a*/\n\n/*b*/ message M \x7b //c\n//d\n//e\nM x = 1; //f\n\x7d //g\n" = .ok file ∧
      file.remarks.map Remark.comments =
        [⟨["a"], some "b", some "c\n"⟩, ⟨[], some "d\ne\n", some "f\n"⟩] ∧
      ∃ (pieces : List Piece) (attributions : List Attribution),
        (attributions.map Attribution.remark).Perm file.remarks ∧
        (∀ attribution ∈ attributions, attribution.Explains pieces) ∧
        (attributions.flatMap Attribution.comments).Sublist (pieces.filter Piece.isComment) ∧
        (attributions.flatMap Attribution.comments).Nodup := by
  obtain ⟨file, accepted, comments⟩ := exists_of_check
    (parse "/*a*/\n\n/*b*/ message M \x7b //c\n//d\n//e\nM x = 1; //f\n\x7d //g\n")
    (fun file => file.remarks.map Remark.comments =
      [⟨["a"], some "b", some "c\n"⟩, ⟨[], some "d\ne\n", some "f\n"⟩]) (by decide +kernel)
  obtain ⟨pieces, attributions, -, remarks, explains, among, once, -⟩ :=
    comments_attached_once accepted
  exact ⟨file, accepted, of_decide_eq_true comments, pieces, attributions, remarks, explains, among,
    once⟩

end ProtoSchema
