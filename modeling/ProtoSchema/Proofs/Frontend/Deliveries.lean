/-
This file shows that what is read of a delivery depends on its bytes alone, and not
on the pieces that they come in. Up to the number of bytes that are asked for, pieces
are put together again; whatever would come behind, the end or a failure, is only
noticed if all of the delivery is asked for. One byte more than allowed is asked for,
so it is noticed just in case the delivery is not too long.
-/

import ProtoSchema.Frontend.Load
import ProtoSchema.Proofs.Frontend.Reports
import ProtoSchema.Proofs.Scanning.Literal

namespace ProtoSchema

/-! ### Bytes -/

namespace Delivery

/-- What is delivered before the end or the failure, however it is cut. -/
def bytes (delivery : Delivery) : Bytes := delivery.pieces.flatten

/-- No piece is taken for the end of a delivery before its last one. -/
def Flows (delivery : Delivery) : Prop := ∀ piece ∈ delivery.pieces, piece ≠ []

theorem takeFrom_cons {failure : Option String} {limit : Nat} {piece : Bytes}
    {rest : List Bytes} (some : piece ≠ []) :
    takeFrom failure (limit + 1) (piece :: rest) =
      (takeFrom failure (limit + 1 - (piece.take (limit + 1)).length) rest).map
        (piece.take (limit + 1) ++ ·) := by
  rw [takeFrom]
  · rfl
  · exact some

/-- What is taken is put together from the pieces; the end is only come to within the limit. -/
theorem takeFrom_eq (failure : Option String) {pieces : List Bytes}
    (some : ∀ piece ∈ pieces, piece ≠ []) (limit : Nat) :
    takeFrom failure limit pieces =
      if pieces.flatten.length < limit then failure.elim (.ok pieces.flatten) .error
      else .ok (pieces.flatten.take limit) := by
  induction pieces generalizing limit with
  | nil => cases limit <;> cases failure <;> rfl
  | cons piece rest inductionHypothesis =>
    obtain ⟨nonempty, others⟩ := List.forall_mem_cons.mp some
    cases limit with
    | zero => rfl
    | succ limit =>
      rw [takeFrom_cons nonempty, inductionHypothesis others, List.flatten_cons,
        List.length_append]
      by_cases within : piece.length ≤ limit + 1
      · -- The whole piece is taken, and the rest is asked for what is left of the limit.
        rw [List.take_of_length_le within, List.take_append, List.take_of_length_le within]
        by_cases ends : rest.flatten.length < limit + 1 - piece.length
        · rw [if_pos ends, if_pos (by omega)]
          cases failure <;> rfl
        · rw [if_neg ends, if_neg (by omega)]
          rfl
      · have long : limit + 1 < piece.length := Nat.not_le.mp within
        have none : limit + 1 - (piece.take (limit + 1)).length = 0 := by
          rw [List.length_take_of_le (Nat.le_of_lt long), Nat.sub_self]
        rw [none, if_neg (Nat.not_lt_zero _), if_neg (by omega), List.take_zero,
          List.take_append_of_le_length (Nat.le_of_lt long)]
        exact congrArg Except.ok (List.append_nil _)

theorem take_eq {delivery : Delivery} (flows : delivery.Flows) (limit : Nat) :
    delivery.take limit =
      if delivery.bytes.length < limit then delivery.failure.elim (.ok delivery.bytes) .error
      else .ok (delivery.bytes.take limit) :=
  takeFrom_eq delivery.failure flows limit

end Delivery

/-! ### Texts -/

/-- The bytes of a text are as many as its characters take. -/
theorem length_toUTF8 (text : String) :
    text.toUTF8.toList.length = byteLength text.toList := by
  rw [toList_toUTF8]
  induction text.toList with
  | nil => rfl
  | cons first rest inductionHypothesis =>
    rw [List.flatMap_cons, List.length_append, inductionHypothesis, String.length_utf8EncodeChar,
      byteLength_cons]

/-- Bytes are decoded as a text only if they are the bytes of that text. -/
theorem toUTF8_of_fromUTF8? {bytes : Bytes} {text : String}
    (decoded : String.fromUTF8? ⟨bytes.toArray⟩ = some text) : text.toUTF8.toList = bytes := by
  rw [String.fromUTF8?] at decoded
  split at decoded
  · obtain rfl := Option.some.inj decoded
    rw [toList_eq]
    rfl
  · cases decoded

/-- No text is longer than what it is asked for, unless it is too long. -/
theorem askedLength_le {maxLength length : Nat} (long : maxLength < length)
    (fits : min maxLength length < greatestLength) : askedLength maxLength = maxLength + 1 := by
  rw [askedLength]
  omega

theorem lt_askedLength {maxLength length : Nat} (short : length ≤ maxLength)
    (fits : min maxLength length < greatestLength) : length < askedLength maxLength := by
  rw [askedLength]
  omega

section Sources

variable {name : String} {maxLength : Nat} {delivery : Delivery}

/-- A delivery that is too long is recognized by one byte more than is allowed, whatever comes
behind that byte. -/
theorem readSource_of_long (flows : delivery.Flows)
    (fits : min maxLength delivery.bytes.length < greatestLength)
    (long : maxLength < delivery.bytes.length) :
    readSource name maxLength delivery = .error (.tooLarge name maxLength) := by
  rw [readSource, Delivery.take_eq flows, askedLength_le long fits,
    if_neg (Nat.not_lt.mpr long)]
  dsimp only
  rw [List.length_take_of_le long, if_pos (Nat.lt_succ_self _)]

/-- A delivery that is not too long is read up to its end or its failure. -/
theorem readSource_of_short (flows : delivery.Flows)
    (fits : min maxLength delivery.bytes.length < greatestLength)
    (short : delivery.bytes.length ≤ maxLength) :
    readSource name maxLength delivery =
      match delivery.failure with
      | some reason => .error (.cannotRead name reason)
      | none =>
        match String.fromUTF8? ⟨delivery.bytes.toArray⟩ with
        | some source => .ok source
        | none => .error (.notUtf8 name) := by
  rw [readSource, Delivery.take_eq flows, if_pos (lt_askedLength short fits)]
  cases delivery.failure with
  | some reason => rfl
  | none => exact if_neg (Nat.not_lt.mpr short)

end Sources

/-! ### Schemas -/

namespace ParseOptions

variable {options : ParseOptions} {source : String} {report : Report}

/-- A source of an allowed length is not refused for its length. -/
theorem no_limit_issue (fits : byteLength source.toList ≤ options.maxLength)
    (rejected : options.parse source = .error report) :
    ∀ issue ∈ report.issues, issue.category ≠ .limit := by
  obtain ⟨first, others, finds, rfl⟩ := exists_finds rejected
  have found : ∀ diagnostic ∈ first :: others, diagnostic.category ≠ .limit := by
    generalize first :: others = diagnostics at finds
    cases finds with
    | length long => exact absurd fits (Nat.not_le.mpr long)
    | tokens scanned => exact List.forall_mem_map.mpr fun _ _ => Category.noConfusion
    | declarations scanned =>
      refine List.forall_mem_append.mpr ⟨List.forall_mem_map.mpr fun _ _ => Category.noConfusion,
        List.forall_mem_map.mpr fun fault _ => ?_⟩
      obtain ⟨cause, span⟩ := fault
      cases cause <;> exact Category.noConfusion
  rw [issues_report, List.forall_mem_map]
  exact fun diagnostic member => found diagnostic (Diagnostic.mem_arrange.mp member)

/-- What comes of a delivery in pieces that are not empty is told by its bytes and by what comes
behind them. If they are more than allowed, the source is too large, and nothing behind them
matters. Otherwise a failure behind them is the result; and if there is none, the source is the text
that the bytes spell, which is parsed and not found too long, or they are no text. The greatest
length is that of no source that a memory holds; it may be the limit, but the end of a delivery is
noticed before it. -/
theorem parseDelivery_by_bytes {options : ParseOptions} {delivery : Delivery}
    (flows : delivery.Flows)
    (fits : min options.maxLength delivery.bytes.length < greatestLength) :
    (options.maxLength < delivery.bytes.length →
      options.parseDelivery delivery = .error (.tooLarge options.fileName options.maxLength)) ∧
    (delivery.bytes.length ≤ options.maxLength →
      (∀ reason, delivery.failure = some reason →
        options.parseDelivery delivery = .error (.cannotRead options.fileName reason)) ∧
      (delivery.failure = none →
        ((∀ source : String, source.toUTF8.toList ≠ delivery.bytes) →
          options.parseDelivery delivery = .error (.notUtf8 options.fileName)) ∧
        ∀ source : String, source.toUTF8.toList = delivery.bytes →
          options.parseDelivery delivery = (options.parse source).mapError .rejected ∧
            ∀ report, options.parse source = .error report →
              ∀ issue ∈ report.issues, issue.category ≠ .limit)) := by
  constructor
  · intro long
    rw [parseDelivery, readSource_of_long flows fits long]
    rfl
  · intro short
    have read := @readSource_of_short options.fileName _ _ flows fits short
    refine ⟨fun reason fails => ?_, fun ends => ⟨fun garbled => ?_, fun source spells => ⟨?_, ?_⟩⟩⟩
    · rw [parseDelivery, read, fails]
      rfl
    · have undecoded : String.fromUTF8? ⟨delivery.bytes.toArray⟩ = none :=
        Option.eq_none_iff_forall_ne_some.mpr fun text decoded =>
          garbled text (toUTF8_of_fromUTF8? decoded)
      rw [parseDelivery, read, ends]
      dsimp only
      rw [undecoded]
      rfl
    · rw [parseDelivery, read, ends, ← spells]
      dsimp only
      rw [fromUTF8?_toUTF8]
      rfl
    · rw [← spells, length_toUTF8] at short
      exact fun report rejected => no_limit_issue short rejected

/-- A character of two bytes comes in two pieces, and is read at the limit and cut above it. -/
theorem parseDelivery_by_bytes_sample :
    ({ maxLength := 4 } : ParseOptions).parseDelivery ⟨[[47, 47, 195], [169]], none⟩ =
      (({ maxLength := 4 } : ParseOptions).parse "//é").mapError .rejected ∧
    ({ maxLength := 4 } : ParseOptions).parseDelivery ⟨[[47, 47, 195], [169]], some "lost"⟩ =
      .error (.cannotRead "<input>" "lost") ∧
    ({ maxLength := 3 } : ParseOptions).parseDelivery ⟨[[47, 47, 195], [169]], some "lost"⟩ =
      .error (.tooLarge "<input>" 3) ∧
    ({ maxLength := greatestLength } : ParseOptions).parseDelivery ⟨[[47], [47, 195]], none⟩ =
      .error (.notUtf8 "<input>") := by
  have flows (failure : Option String) : Delivery.Flows ⟨[[47, 47, 195], [169]], failure⟩ := by
    simp [Delivery.Flows]
  have cut : Delivery.Flows ⟨[[47], [47, 195]], none⟩ := by simp [Delivery.Flows]
  have undecoded : String.fromUTF8? ⟨#[47, 47, 195]⟩ = none := by decide +kernel
  have garbled (source : String) : source.toUTF8.toList ≠ [47, 47, 195] := by
    intro spells
    have decoded := fromUTF8?_toUTF8 source
    rw [spells] at decoded
    cases undecoded.symm.trans decoded
  refine ⟨?_, ?_, ?_, ?_⟩
  · exact (((parseDelivery_by_bytes (flows none) (by decide)).2 (by decide)).2 rfl |>.2 "//é"
      (by decide +kernel)).1
  · exact ((parseDelivery_by_bytes (flows _) (by decide)).2 (by decide)).1 _ rfl
  · exact (parseDelivery_by_bytes (flows _) (by decide)).1 (by decide)
  · exact (((parseDelivery_by_bytes cut (by decide)).2 (by decide)).2 rfl).1 garbled

end ParseOptions

end ProtoSchema
