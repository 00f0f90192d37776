/-
This file relates the remarks on declarations to the tokens that the declarations
were read from. The comments above a declaration were sorted before its first
token, the one that trails it was sorted before a later token, and the next
declaration starts no earlier than there. Remarks that stand in such a row have
the comments of the source in their order, and none of them twice.
-/

import ProtoSchema.Proofs.Comment.Gaps
import ProtoSchema.Proofs.Comment.Remarks

namespace ProtoSchema

/-! ### Remarks among tokens -/

/-- The comments before the next token, or else those at the end. -/
def around (atEnd : Surroundings) : List Lexeme → Surroundings
  | [] => atEnd
  | lexeme :: _ => lexeme.before

variable {atEnd : Surroundings} {first middle last start : List Lexeme} {remark : Remark}
variable {remarks others : List Remark}

/-- The declaration starts with the first of some tokens. Its comments were sorted before that token
and, for the one that trails, before what is left after further tokens. -/
structure Remark.FoundAt (atEnd : Surroundings) (remark : Remark) (first last : List Lexeme) :
    Prop where
  onward : ∃ token, token :: last <:+ first
  starts : first.head?.map (·.span.start) = some remark.span.start
  comments : remark.comments = ⟨(around atEnd first).detached, (around atEnd first).leading,
    (around atEnd last).trailing⟩

/-- The declarations start one after another, each where the comments of the one before it end or
later. -/
inductive Row (atEnd : Surroundings) (last : List Lexeme) : List Lexeme → List Remark → Prop where
  | nil {first : List Lexeme} (left : last <:+ first) : Row atEnd last first []
  | cons {first start middle : List Lexeme} {remark : Remark} {remarks : List Remark}
      (left : start <:+ first) (found : remark.FoundAt atEnd start middle)
      (row : Row atEnd last middle remarks) : Row atEnd last first (remark :: remarks)

namespace Row

theorem earlier (row : Row atEnd last middle remarks) (left : middle <:+ first) :
    Row atEnd last first remarks := by
  cases row with
  | nil others => exact .nil (others.trans left)
  | cons others found row => exact .cons (others.trans left) found row

theorem append (row : Row atEnd middle first remarks) (more : Row atEnd last middle others) :
    Row atEnd last first (remarks ++ others) := by
  induction row with
  | nil left => exact more.earlier left
  | cons left found _ inductionHypothesis => exact .cons left found inductionHypothesis

end Row

/-- In some order, the remarks stand in a row between two of the tokens. -/
def Noted (atEnd : Surroundings) (first last : List Lexeme) (remarks : List Remark) : Prop :=
  ∃ row, row.Perm remarks ∧ Row atEnd last first row

namespace Noted

theorem nil (left : last <:+ first) : Noted atEnd first last [] := ⟨[], .nil, .nil left⟩

theorem append (noted : Noted atEnd first middle remarks) (more : Noted atEnd middle last others) :
    Noted atEnd first last (remarks ++ others) := by
  obtain ⟨row, same, inRow⟩ := noted
  obtain ⟨others, sameOthers, inOthers⟩ := more
  exact ⟨row ++ others, same.append sameOthers, inRow.append inOthers⟩

theorem later (noted : Noted atEnd first middle remarks) (left : last <:+ middle) :
    Noted atEnd first last remarks := by
  have longer := noted.append (.nil left)
  rwa [List.append_nil] at longer

theorem earlier (noted : Noted atEnd middle last remarks) (left : middle <:+ first) :
    Noted atEnd first last remarks :=
  (nil left).append noted

theorem perm (noted : Noted atEnd first last remarks) (same : remarks.Perm others) :
    Noted atEnd first last others := by
  obtain ⟨row, sameRow, inRow⟩ := noted
  exact ⟨row, sameRow.trans same, inRow⟩

/-- A declaration and then those in its body. -/
theorem block (found : remark.FoundAt atEnd first middle)
    (members : Noted atEnd middle last remarks) : Noted atEnd first last (remark :: remarks) := by
  obtain ⟨row, same, inRow⟩ := members
  exact ⟨remark :: row, same.cons remark, .cons (List.suffix_refl _) found inRow⟩

theorem single (found : remark.FoundAt atEnd first last) : Noted atEnd first last [remark] :=
  .block found (.nil (List.suffix_refl _))

end Noted

/-! ### Comments of remarks -/

/-- A remark with the comments that its texts are made up of. -/
structure Attribution where
  remark : Remark
  detached : List (List Piece)
  leading : List Piece
  trailing : List Piece

namespace Attribution

/-- The comments above the declaration. -/
def ahead (attribution : Attribution) : List Piece :=
  attribution.detached.flatten ++ attribution.leading

/-- All comments of the declaration. -/
def comments (attribution : Attribution) : List Piece :=
  attribution.ahead ++ attribution.trailing

/-- The comments make up the texts of the remark. The declaration starts with a token of the source,
and that token stands between the comments above and the one that trails. -/
structure Explains (pieces : List Piece) (attribution : Attribution) : Prop where
  detached : List.Forall₂ MakesUp attribution.detached attribution.remark.comments.detached
  leading : MakesUpAny attribution.leading attribution.remark.comments.leading
  trailing : MakesUpAny attribution.trailing attribution.remark.comments.trailing
  placed : ∃ token span, ⟨.token token, span⟩ ∈ pieces ∧
    span.start = attribution.remark.span.start ∧
      (∀ comment ∈ attribution.ahead, comment.span.stop ≤ span.start) ∧
        ∀ comment ∈ attribution.trailing, span.stop ≤ comment.span.start

end Attribution

variable {pieces : List Piece}

/-- What is left of the tokens is glossed by what is left of the gaps. -/
theorem Glossed.suffix {gaps : List Gap} (glossed : Glossed pieces atEnd first gaps)
    (left : last <:+ first) : ∃ others, others <:+ gaps ∧ Glossed pieces atEnd last others := by
  induction glossed with
  | last explains =>
    obtain rfl := List.suffix_nil.mp left
    exact ⟨_, List.suffix_refl _, .last explains⟩
  | before explains token ahead behind glossed inductionHypothesis =>
    rcases List.suffix_cons_iff.mp left with rfl | left
    · exact ⟨_, List.suffix_refl _, .before explains token ahead behind glossed⟩
    · obtain ⟨others, fewer, othersGlossed⟩ := inductionHypothesis left
      exact ⟨others, fewer.trans (List.suffix_cons _ _), othersGlossed⟩

theorem Glossed.exists_cons {gaps : List Gap} (glossed : Glossed pieces atEnd first gaps) :
    ∃ gap others, gaps = gap :: others ∧ gap.Explains (around atEnd first) := by
  cases glossed with
  | last explains => exact ⟨_, [], rfl, explains⟩
  | before explains => exact ⟨_, _, rfl, explains⟩

/-- The comments in the gaps from the first on, without those that trail what is before it. -/
def commentsFrom : List Gap → List Piece
  | [] => []
  | gap :: gaps => gap.ahead ++ gaps.flatMap Gap.comments

theorem commentsFrom_sublist (gaps : List Gap) :
    (commentsFrom gaps).Sublist (gaps.flatMap Gap.comments) := by
  cases gaps with
  | nil => exact .slnil
  | cons gap gaps =>
    rw [List.flatMap_cons]
    exact (List.sublist_append_right gap.trailing gap.ahead).append_right _

theorem commentsFrom_sublist_of_suffix {gaps others : List Gap} (fewer : others <:+ gaps) :
    (commentsFrom others).Sublist (commentsFrom gaps) := by
  obtain ⟨taken, rfl⟩ := fewer
  cases taken with
  | nil => exact .refl _
  | cons gap taken =>
    refine (commentsFrom_sublist others).trans ?_
    rw [List.cons_append, commentsFrom, List.flatMap_append, ← List.append_assoc]
    exact List.sublist_append_right _ _

/-- The comments of a remark, found in the gap before its first token and in a later one. -/
theorem Remark.FoundAt.attribute {gaps : List Gap} (found : remark.FoundAt atEnd first last)
    (glossed : Glossed pieces atEnd first gaps) :
    ∃ (attribution : Attribution) (gap : Gap) (between : List Gap) (ending : Gap) (rest : List Gap),
      attribution.remark = remark ∧ attribution.Explains pieces ∧
      gaps = gap :: (between ++ ending :: rest) ∧ Glossed pieces atEnd last (ending :: rest) ∧
        attribution.ahead = gap.ahead ∧ attribution.trailing = ending.trailing := by
  obtain ⟨⟨token, left⟩, starts, comments⟩ := found
  cases glossed with
  | last explains => cases starts
  | @before gap gaps lexeme tail explains isToken ahead behind glossed =>
    have within : last <:+ tail := by
      rcases List.suffix_cons_iff.mp left with same | left
      · exact (List.cons.inj same).2 ▸ List.suffix_refl _
      · exact (List.suffix_cons token last).trans left
    obtain ⟨others, ⟨between, rfl⟩, othersGlossed⟩ := glossed.suffix within
    obtain ⟨ending, rest, rfl, endingExplains⟩ := othersGlossed.exists_cons
    have begins : lexeme.span.start = remark.span.start := Option.some.inj starts
    refine ⟨⟨remark, gap.detached, gap.leading, ending.trailing⟩, gap, between, ending, rest, rfl,
      ⟨?_, ?_, ?_, ?_⟩, rfl, othersGlossed, rfl, rfl⟩
    · rw [comments]
      exact explains.detached
    · rw [comments]
      exact explains.leading
    · rw [comments]
      exact endingExplains.trailing
    · refine ⟨lexeme.token, lexeme.span, isToken, begins, fun comment member => ?_,
        fun comment member => ?_⟩
      · exact ahead comment (List.mem_append_right _ member)
      · refine behind comment (List.mem_flatMap.mpr ⟨ending, ?_, List.mem_append_left _ member⟩)
        exact List.mem_append_right _ List.mem_cons_self

/-- The remarks in a row have comments in the order of the source. -/
theorem Row.attribute {gaps : List Gap} (row : Row atEnd last first remarks)
    (glossed : Glossed pieces atEnd first gaps) :
    ∃ attributions : List Attribution, attributions.map Attribution.remark = remarks ∧
      (∀ attribution ∈ attributions, attribution.Explains pieces) ∧
        (attributions.flatMap Attribution.comments).Sublist (commentsFrom gaps) := by
  induction row generalizing gaps with
  | nil => exact ⟨[], rfl, fun _ member => (nomatch member), List.nil_sublist _⟩
  | @cons first start middle remark remarks left found _ inductionHypothesis =>
    obtain ⟨others, fewer, othersGlossed⟩ := glossed.suffix left
    obtain ⟨attribution, gap, between, ending, rest, same, explains, rfl, endingGlossed, ahead,
      trailing⟩ := found.attribute othersGlossed
    obtain ⟨attributions, sameRest, explainsRest, sublist⟩ := inductionHypothesis endingGlossed
    refine ⟨attribution :: attributions, ?_, ?_, ?_⟩
    · rw [List.map_cons, same, sameRest]
    · exact List.forall_mem_cons.mpr ⟨explains, explainsRest⟩
    · refine List.Sublist.trans ?_ (commentsFrom_sublist_of_suffix fewer)
      rw [List.flatMap_cons, Attribution.comments, ahead, trailing, commentsFrom,
        List.flatMap_append, List.flatMap_cons, Gap.comments, List.append_assoc]
      refine .append_left ?_ _
      refine List.Sublist.trans ?_ (List.sublist_append_right _ _)
      rw [List.append_assoc]
      exact sublist.append_left _

end ProtoSchema
