/-
This file shows where the faults of malformed tokens lie. Each starts within the
characters that it is found in and ends within the source, also where faults that
touch are reported as one, and where a number runs into the identifier behind it.
No two faults of one cause start at the same place.
-/

import ProtoSchema.Proofs.Scanning.Brace

namespace ProtoSchema

/-- The span is no inverted one and ends before a limit. -/
def Span.Within (limit : Nat) (span : Span) : Prop :=
  span.start ≤ span.stop ∧ span.stop ≤ limit

/-- The faults start within a stretch of the text and end within a limit, and no two of one cause
start at the same place. -/
structure LexicalFaults (start stop limit : Nat) (faults : List LexicalFault) : Prop where
  starts : ∀ fault ∈ faults, start ≤ fault.span.start ∧ fault.span.start < stop
  within : ∀ fault ∈ faults, fault.span.Within limit
  apart : faults.Pairwise fun first second =>
    first.cause = second.cause → first.span.start ≠ second.span.start

namespace LexicalFaults

variable {start middle stop limit : Nat} {fault : LexicalFault} {faults others : List LexicalFault}

theorem nil : LexicalFaults start stop limit [] :=
  ⟨fun _ member => absurd member List.not_mem_nil, fun _ member => absurd member List.not_mem_nil,
    .nil⟩

theorem singleton (starts : start ≤ fault.span.start ∧ fault.span.start < stop)
    (within : fault.span.Within limit) : LexicalFaults start stop limit [fault] :=
  ⟨List.forall_mem_singleton.mpr starts, List.forall_mem_singleton.mpr within,
    List.pairwise_singleton _ _⟩

/-- Faults in one stretch and then faults in the next. -/
theorem append (first : LexicalFaults start middle limit faults)
    (second : LexicalFaults middle stop limit others) (ahead : start ≤ middle)
    (onward : middle ≤ stop) : LexicalFaults start stop limit (faults ++ others) where
  starts := List.forall_mem_append.mpr
    ⟨fun fault member => ⟨(first.starts fault member).1,
      Nat.lt_of_lt_of_le (first.starts fault member).2 onward⟩,
    fun fault member => ⟨Nat.le_trans ahead (second.starts fault member).1,
      (second.starts fault member).2⟩⟩
  within := List.forall_mem_append.mpr ⟨first.within, second.within⟩
  apart := by
    refine List.pairwise_append.mpr ⟨first.apart, second.apart, ?_⟩
    refine fun fault member other otherMember _ => Nat.ne_of_lt ?_
    exact Nat.lt_of_lt_of_le (first.starts fault member).2 (second.starts other otherMember).1

end LexicalFaults

/-! ### Numbers -/

namespace Numeral

theorem length_trailingIdentifier_le (text : List Char) :
    (trailingIdentifier text).length ≤ text.length := by
  unfold trailingIdentifier
  split
  · split
    · exact Nat.succ_le_succ (List.takeWhile_prefix _).length_le
    · exact Nat.zero_le _
  · exact Nat.le_refl _

/-- A number is at fault where it starts, for what it is and for what it runs into. -/
theorem lexicalFaults {numeral : Numeral} {offset limit : Nat} {after : List Char}
    (inside : offset + numeral.length + after.length ≤ limit) :
    LexicalFaults offset (offset + 1) limit (numeral.faults offset after) := by
  have here : offset ≤ offset ∧ offset < offset + 1 := ⟨Nat.le_refl _, Nat.lt_succ_self _⟩
  have identifier := length_trailingIdentifier_le after
  have runsOn : Span.Within limit
      ⟨offset, offset + numeral.length + (trailingIdentifier after).length⟩ :=
    ⟨Nat.le_trans (Nat.le_add_right _ _) (Nat.le_add_right _ _), by dsimp only; omega⟩
  have tooLarge : Span.Within limit ⟨offset, offset + numeral.length⟩ :=
    ⟨Nat.le_add_right _ _, Nat.le_trans (Nat.le_add_right _ _) inside⟩
  have alone (condition : Prop) [Decidable condition] : LexicalFaults offset (offset + 1) limit
      (if condition then [⟨.numberRunsIntoIdentifier,
        ⟨offset, offset + numeral.length + (trailingIdentifier after).length⟩⟩] else []) := by
    split
    · exact .singleton here runsOn
    · exact .nil
  have both (condition : Prop) [Decidable condition] : LexicalFaults offset (offset + 1) limit
      ((if condition then [⟨.numberRunsIntoIdentifier,
        ⟨offset, offset + numeral.length + (trailingIdentifier after).length⟩⟩] else []) ++
          [⟨.integerTooLarge, ⟨offset, offset + numeral.length⟩⟩]) := by
    split
    · refine ⟨List.forall_mem_cons.mpr ⟨here, List.forall_mem_singleton.mpr here⟩,
        List.forall_mem_cons.mpr ⟨runsOn, List.forall_mem_singleton.mpr tooLarge⟩, ?_⟩
      exact List.pairwise_pair.mpr fun same => nomatch same
    · exact .singleton here tooLarge
  unfold faults
  dsimp only
  split
  · split
    · exact alone _
    · exact both _
  · exact both _
  · exact alone _

end Numeral

/-! ### Literals -/

namespace StringBody

/-- The faults of a literal that is read on from an offset: one at its opening if it is not
terminated, and others from the offset on. -/
structure Faults (opening offset stop limit : Nat) (faults : List LexicalFault) : Prop where
  starts : ∀ fault ∈ faults, fault.cause = .unterminatedString ∧ fault.span.start = opening ∨
    fault.cause ≠ .unterminatedString ∧ offset ≤ fault.span.start ∧ fault.span.start < stop
  within : ∀ fault ∈ faults, fault.span.Within limit
  apart : faults.Pairwise fun first second =>
    first.cause = second.cause → first.span.start ≠ second.span.start

namespace Faults

variable {opening offset next stop limit : Nat} {faults : List LexicalFault}

theorem nil : Faults opening offset stop limit [] :=
  ⟨fun _ member => absurd member List.not_mem_nil, fun _ member => absurd member List.not_mem_nil,
    .nil⟩

theorem unterminated (ahead : opening ≤ offset) (inside : offset ≤ limit) :
    Faults opening offset stop limit [⟨.unterminatedString, ⟨opening, offset⟩⟩] :=
  ⟨List.forall_mem_singleton.mpr (.inl ⟨rfl, rfl⟩), List.forall_mem_singleton.mpr ⟨ahead, inside⟩,
    List.pairwise_singleton _ _⟩

theorem earlier (found : Faults opening next stop limit faults) (ahead : offset ≤ next) :
    Faults opening offset stop limit faults :=
  { found with
    starts := fun fault member => (found.starts fault member).imp_right
      fun ⟨cause, start, inside⟩ => ⟨cause, Nat.le_trans ahead start, inside⟩ }

/-- A literal that is read on behind the first characters of a text, which take so many bytes at
least. -/
theorem onward (text : List Char) (count : Nat) {bytes length : Nat}
    (takes : bytes ≤ byteLength (text.take count)) (ahead : opening < offset)
    (inside : offset + byteLength text ≤ limit)
    (found : opening < offset + bytes → offset + bytes + byteLength (text.drop count) ≤ limit →
      Faults opening (offset + bytes)
        (offset + bytes + byteLength ((text.drop count).take length)) limit faults) :
    Faults opening (offset + bytes) (offset + byteLength (text.take (count + length))) limit
      faults := by
  have parts := byteLength_take_add_drop count text
  have found := found (Nat.lt_add_right _ ahead) (by omega)
  refine { found with starts := fun fault member => (found.starts fault member).imp_right ?_ }
  rintro ⟨cause, start, stop⟩
  refine ⟨cause, start, Nat.lt_of_lt_of_le stop ?_⟩
  rw [List.take_add, byteLength_append]
  omega

/-- Characters at fault in front of a literal that is read on behind them. -/
theorem reject {body : StringBody} {cause : LexicalCause} {count : Nat}
    (found : Faults opening next stop limit body.faults) (kind : cause ≠ .unterminatedString)
    (ahead : offset < next) (here : offset < stop) (inside : next ≤ limit) :
    Faults opening offset stop limit (body.reject cause ⟨offset, next⟩ count).faults := by
  obtain ⟨starts, within, apart⟩ := found.earlier (Nat.le_of_lt ahead)
  -- A fault of the same cause is none at the opening, so it starts behind the characters.
  have behind : ∀ fault ∈ body.faults, cause = fault.cause → offset ≠ fault.span.start := by
    rintro fault member rfl
    rcases found.starts fault member with ⟨isKind, -⟩ | ⟨-, after, -⟩
    · exact absurd isKind kind
    · exact Nat.ne_of_lt (Nat.lt_of_lt_of_le ahead after)
  unfold StringBody.reject
  dsimp only
  cases faults : body.faults with
  | nil =>
    exact ⟨List.forall_mem_singleton.mpr (.inr ⟨kind, Nat.le_refl _, here⟩),
      List.forall_mem_singleton.mpr ⟨Nat.le_of_lt ahead, inside⟩, List.pairwise_singleton _ _⟩
  | cons following others =>
    rw [faults] at starts within apart behind
    dsimp only
    split
    · next continued =>
      simp only [continues, Bool.decide_and, Bool.and_eq_true, decide_eq_true_eq] at continued
      obtain ⟨proper, bounded⟩ := within following List.mem_cons_self
      refine ⟨List.forall_mem_cons.mpr ⟨.inr ⟨kind, Nat.le_refl _, here⟩,
          fun fault member => starts fault (List.mem_cons_of_mem _ member)⟩,
        List.forall_mem_cons.mpr ⟨⟨?_, bounded⟩,
          fun fault member => within fault (List.mem_cons_of_mem _ member)⟩,
        List.pairwise_cons.mpr ⟨fun fault member => behind fault (List.mem_cons_of_mem _ member),
          (List.pairwise_cons.mp apart).2⟩⟩
      exact Nat.le_trans (Nat.le_of_lt ahead) (continued.2 ▸ proper)
    · exact ⟨List.forall_mem_cons.mpr ⟨.inr ⟨kind, Nat.le_refl _, here⟩, starts⟩,
        List.forall_mem_cons.mpr ⟨⟨Nat.le_of_lt ahead, inside⟩, within⟩,
        List.pairwise_cons.mpr ⟨behind, apart⟩⟩

end Faults

/-- The faults of a literal start at its opening or within what is read of it. -/
theorem faults_read {opening offset limit : Nat} (quote : Char) (text : List Char)
    (ahead : opening < offset) (inside : offset + byteLength text ≤ limit) :
    Faults opening offset
      (offset + byteLength (text.take (read opening quote offset text).length)) limit
      (read opening quote offset text).faults := by
  -- Characters are counted where bytes are meant, but the characters of an escape take one each.
  have escaped {rest : List Char} {length : Nat} (fits : length ≤ rest.length) :
      length + 1 ≤ byteLength (('\\' :: rest).take (length + 1)) := by
    refine Nat.le_trans ?_ (length_le_byteLength _)
    rw [List.length_take, List.length_cons]
    omega
  have rejected {offset bytes count : Nat} {cause : LexicalCause} {text : List Char}
      {body : StringBody} (kind : cause ≠ .unterminatedString) (some : 0 < bytes)
      (takes : bytes ≤ byteLength (text.take count)) (inside : offset + byteLength text ≤ limit)
      (found : Faults opening (offset + bytes)
        (offset + byteLength (text.take (count + body.length))) limit body.faults) :
      Faults opening offset
        (offset + byteLength (text.take (body.reject cause ⟨offset, offset + bytes⟩ count).length))
        limit (body.reject cause ⟨offset, offset + bytes⟩ count).faults := by
    have parts := byteLength_take_add_drop count text
    refine found.reject kind (Nat.lt_add_of_pos_right some) ?_ (by omega)
    rw [List.take_add, byteLength_append]
    omega
  fun_induction read opening quote offset text with
  | case1 offset => exact .unterminated (Nat.le_of_lt ahead) inside
  | case2 offset rest => exact .nil
  | case3 offset rest notQuote =>
    exact .unterminated (Nat.le_of_lt ahead) (Nat.le_trans (Nat.le_add_right _ _) inside)
  | case4 offset rest notQuote notBreak inductionHypothesis =>
    have one : 1 ≤ byteLength (['\x00']) := by decide
    exact rejected (by decide) Nat.one_pos one inside
      (.onward ('\x00' :: rest) 1 one ahead inside inductionHypothesis)
  | case5 offset rest noEscape notQuote notBreak notNul inductionHypothesis =>
    have one : 1 ≤ byteLength (['\\']) := by decide
    exact rejected (by decide) Nat.one_pos one inside
      (.onward ('\\' :: rest) 1 one ahead inside inductionHypothesis)
  | case6 offset rest escape isEscape count body bytes isValue notQuote notBreak notNul
      inductionHypothesis =>
    have fits := escaped (Escape.length_read?_le isEscape)
    have found := Faults.onward ('\\' :: rest) _ fits ahead inside inductionHypothesis
    exact found.earlier (Nat.le_add_right _ _)
  | case7 offset rest escape isEscape count body noValue notQuote notBreak notNul
      inductionHypothesis =>
    have fits := escaped (Escape.length_read?_le isEscape)
    exact rejected (by decide) (Nat.succ_pos _) fits inside
      (.onward ('\\' :: rest) _ fits ahead inside inductionHypothesis)
  | case8 offset first rest notQuote notBreak notNul notEscape inductionHypothesis =>
    have found := Faults.onward (first :: rest) 1 (Nat.le_add_right _ _) ahead
      inside inductionHypothesis
    exact found.earlier (Nat.le_add_right _ _)

end StringBody

/-! ### Sources -/

/-- What stands at the front of a text is at fault within its own characters. -/
theorem Front.lexicalFaults {offset limit length : Nat} {first : Char} {rest : List Char}
    {found : Element} {faults : List LexicalFault}
    (isFront : read offset first rest = .element found length faults)
    (inside : offset + byteLength (first :: rest) ≤ limit) :
    LexicalFaults offset (offset + byteLength (first :: rest.take (length - 1))) limit faults := by
  have positive := Char.utf8Size_pos first
  have onward {faults : List LexicalFault}
      (here : LexicalFaults offset (offset + 1) limit faults) : LexicalFaults offset
        (offset + byteLength (first :: rest.take (length - 1))) limit faults := by
    refine { here with starts := fun fault member => (here.starts fault member).imp_right ?_ }
    intro early
    rw [byteLength_cons]
    omega
  unfold read at isFront
  split_ifs at isFront
  · obtain ⟨-, -, rfl⟩ := element.inj isFront
    exact .nil
  · obtain ⟨-, -, rfl⟩ := element.inj isFront
    exact .nil
  · obtain ⟨-, -, rfl⟩ := element.inj isFront
    have fits := Numeral.length_read_le (first :: rest)
    have bytes := length_le_byteLength (first :: rest)
    refine onward (Numeral.lexicalFaults ?_)
    rw [List.length_drop]
    omega
  · obtain ⟨-, rfl, rfl⟩ := element.inj isFront
    rw [byteLength_cons] at inside
    have read := StringBody.faults_read first rest
      (Nat.lt_add_one offset) (show offset + 1 + byteLength rest ≤ limit by omega)
    refine ⟨fun fault member => ?_, read.within, read.apart⟩
    rw [Nat.add_sub_cancel_left, byteLength_cons]
    rcases read.starts fault member with ⟨-, start⟩ | ⟨-, start, stop⟩
    · omega
    · omega
  · obtain ⟨-, -, rfl⟩ := element.inj isFront
    exact .nil
  · next opens =>
    obtain ⟨-, -, rfl⟩ := element.inj isFront
    obtain ⟨-, star⟩ := opens
    split
    · exact .nil
    · refine onward (.singleton ⟨Nat.le_refl _, Nat.lt_succ_self _⟩ ⟨Nat.le_add_right _ _, ?_⟩)
      have bytes := length_le_byteLength (first :: rest)
      cases rest with
      | nil => cases star
      | cons second more =>
        simp only [List.length_cons] at bytes
        dsimp only
        omega
  · unfold symbol at isFront
    split at isFront
    · obtain ⟨-, -, rfl⟩ := element.inj isFront
      exact .nil
    · cases isFront

/-- Characters that start no piece are at fault together, from the first of them on. -/
theorem LexicalFaults.unknown {offset stop last limit : Nat} {others : List Scanned}
    (found : LexicalFaults stop last limit (Scanned.faults others)) (ahead : offset < stop)
    (onward : stop ≤ last) (inside : stop ≤ limit) :
    LexicalFaults offset last limit (Scanned.faults (.unknown ⟨offset, stop⟩ :: others)) := by
  have here : LexicalFaults offset stop limit [⟨.unknownCharacters, ⟨offset, stop⟩⟩] :=
    .singleton ⟨Nat.le_refl _, ahead⟩ ⟨Nat.le_of_lt ahead, inside⟩
  unfold Scanned.faults
  cases faults : Scanned.faults others with
  | nil => exact here.append .nil (Nat.le_of_lt ahead) onward
  | cons next more =>
    rw [faults] at found
    dsimp only
    split
    · next continued =>
      obtain ⟨proper, bounded⟩ := found.within next List.mem_cons_self
      have joined : LexicalFaults offset stop limit
          [⟨.unknownCharacters, ⟨offset, next.span.stop⟩⟩] :=
        .singleton ⟨Nat.le_refl _, ahead⟩
          ⟨Nat.le_trans (Nat.le_of_lt ahead) (continued.2 ▸ proper), bounded⟩
      have behind : LexicalFaults stop last limit more :=
        ⟨fun fault member => found.starts fault (List.mem_cons_of_mem _ member),
          fun fault member => found.within fault (List.mem_cons_of_mem _ member),
          (List.pairwise_cons.mp found.apart).2⟩
      exact joined.append behind (Nat.le_of_lt ahead) onward
    · exact here.append found (Nat.le_of_lt ahead) onward

/-- The faults of a text, each where it is found. -/
theorem Scanned.lexicalFaults_all {limit : Nat} (offset : Nat) (source : List Char)
    (inside : offset + byteLength source ≤ limit) :
    LexicalFaults offset (offset + byteLength source) limit (faults (all offset source)) := by
  have reach (offset extra : Nat) (first : Char) (rest : List Char) :
      offset < offset + byteLength (first :: rest.take extra) ∧
        offset + byteLength (first :: rest.take extra) + byteLength (rest.drop extra) =
          offset + byteLength (first :: rest) := by
    have parts := byteLength_take_add_drop extra rest
    have positive := Char.utf8Size_pos first
    rw [byteLength_cons, byteLength_cons]
    omega
  fun_induction Scanned.all offset source with
  | case1 => exact .nil
  | case2 offset first rest front extra stop others isBlank inductionHypothesis =>
    obtain ⟨ahead, total⟩ := reach offset extra first rest
    rw [total] at inductionHypothesis
    exact .append .nil (inductionHypothesis inside) (Nat.le_of_lt ahead) (by omega)
  | case3 offset first rest front extra stop others isUnknown inductionHypothesis =>
    obtain ⟨ahead, total⟩ := reach offset extra first rest
    rw [total] at inductionHypothesis
    exact (inductionHypothesis inside).unknown ahead (by omega) (by omega)
  | case4 offset first rest front extra stop others element length found isElement
      inductionHypothesis =>
    obtain ⟨ahead, total⟩ := reach offset extra first rest
    rw [total] at inductionHypothesis
    have own := Front.lexicalFaults isElement inside
    have taken : length - 1 = extra := by simp only [extra, front, isElement, Front.length]
    rw [taken] at own
    exact own.append (inductionHypothesis inside) (Nat.le_of_lt ahead) (by omega)

/-- The faults that keep a source from being cut into pieces lie in it. -/
theorem lexicalFaults_of_scan {source : List Char} {first : LexicalFault}
    {others : List LexicalFault} (scanned : scan source = .faulty first others) :
    LexicalFaults 0 (byteLength source) (byteLength source) (first :: others) := by
  have found := Scanned.lexicalFaults_all 0 source (Nat.le_of_eq (Nat.zero_add _))
  rw [Nat.zero_add] at found
  unfold scan at scanned
  dsimp only at scanned
  split at scanned
  · cases scanned
  · next faults =>
    obtain ⟨rfl, rfl⟩ := Scan.faulty.inj scanned
    exact faults ▸ found

end ProtoSchema
