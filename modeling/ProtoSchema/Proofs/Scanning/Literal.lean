/-
This file proves that bytes written as a string literal are read back as they
are, and relates a text to the bytes of its encoding. Every byte is written on its
own and read on its own: printable characters as themselves, and all else as an
escape whose length does not depend on what follows. Decoding the bytes of a text
gives the text back, and a text that is an identifier is its own literal form, so
that it can be put between quotes as it is.
-/

import Mathlib.Data.List.Basic
import ProtoSchema.Proofs.Scanning.Spelling

namespace ProtoSchema

/-! ### Escapes of fixed length -/

/-- An octal digit starts no other kind of escape. -/
theorem ne_of_isOctalDigit {character other : Char} (octal : isOctalDigit character = true)
    (notOctal : isOctalDigit other = false) : character ≠ other := by
  rintro rfl
  rw [octal] at notOctal
  cases notOctal

/-- Three octal digits are one escape, whatever follows. -/
theorem Escape.read?_octal (first second third : Char) (rest : List Char) (code : Nat)
    (octal : [first, second, third].all isOctalDigit = true)
    (value : numeralValue 8 [first, second, third] = code) (small : code < 256) :
    Escape.read? (first :: second :: third :: rest) = some ⟨3, some [UInt8.ofNat code]⟩ := by
  have each := octal
  simp only [List.all_cons, List.all_nil, Bool.and_true, Bool.and_eq_true] at each
  have taken : (List.take 3 (first :: second :: third :: rest)).takeWhile isOctalDigit =
      [first, second, third] := by
    simp [each.1, each.2.1, each.2.2]
  have noX : first ≠ 'x' := ne_of_isOctalDigit each.1 rfl
  have noUpperX : first ≠ 'X' := ne_of_isOctalDigit each.1 rfl
  have noU : first ≠ 'u' := ne_of_isOctalDigit each.1 rfl
  have noUpperU : first ≠ 'U' := ne_of_isOctalDigit each.1 rfl
  simp only [Escape.read?, noX, noUpperX, noU, noUpperU, or_self, if_false, each.1, if_true,
    Escape.octal?, taken, value, small, List.length_cons, List.length_nil]

/-- A letter or mark that stands for a byte is one escape, whatever follows. -/
theorem Escape.read?_simple (character : Char) (rest : List Char) (byte : UInt8)
    (simple : Escape.simple? character = some byte)
    (noDigits : (character = 'x' ∨ character = 'X' ∨ character = 'u' ∨ character = 'U' ∨
      isOctalDigit character = true) → False) :
    Escape.read? (character :: rest) = some ⟨1, some [byte]⟩ := by
  simp only [not_or, imp_false] at noDigits
  simp [Escape.read?, noDigits, simple]

/-! ### Single bytes -/

/-- The escape of a byte outside printable ASCII has three digits. -/
theorem octal_of_byte : ∀ code < 256, ∃ first second third,
    paddedDigits 8 3 code = [first, second, third] ∧
      [first, second, third].all isOctalDigit = true ∧
      numeralValue 8 [first, second, third] = code := by
  have digits : ∀ code < 256, (paddedDigits 8 3 code).length = 3 ∧
      (paddedDigits 8 3 code).all isOctalDigit = true ∧
      numeralValue 8 (paddedDigits 8 3 code) = code := by decide +kernel
  intro code small
  obtain ⟨length, octal, value⟩ := digits code small
  obtain ⟨first, second, third, eq⟩ := List.length_eq_three.mp length
  rw [eq] at octal value
  exact ⟨first, second, third, eq, octal, value⟩

/-- A printable byte is the encoding of the character it is written as. -/
theorem utf8EncodeChar_printable : ∀ code < 127, 32 ≤ code →
    String.utf8EncodeChar (Char.ofNat code) = [UInt8.ofNat code] := by
  decide +kernel

/-- The character a printable byte is written as has no meaning of its own in a literal. -/
theorem printable_ne : ∀ code < 127, 32 ≤ code → ¬ (code = 34 ∨ code = 39 ∨ code = 92) →
    Char.ofNat code ∉ ['"', '\n', '\x00', '\\'] := by
  decide +kernel

namespace StringBody

/-- A backslash and an escape with a value are read as the bytes of the escape. -/
theorem read_escape (opening offset length : Nat) (following : List Char) (bytes : Bytes)
    (escape : Escape.read? following = some ⟨length, some bytes⟩) :
    read opening '"' offset ('\\' :: following) =
      (read opening '"' (offset + (length + 1)) (following.drop length)).prepend (length + 1)
        bytes := by
  rw [read]
  simp only [show '\\' ≠ '"' by decide, show '\\' ≠ '\n' by decide, show '\\' ≠ '\x00' by decide,
    if_false, if_true, escape]

/-- A written byte is read as the byte. -/
theorem read_write (opening offset : Nat) (byte : UInt8) (rest : List Char) :
    ∃ next, read opening '"' offset (Escape.write byte ++ rest) =
      (read opening '"' next rest).prepend (Escape.write byte).length [byte] := by
  have small : byte.toNat < 256 := byte.toNat_lt
  have whole : UInt8.ofNat byte.toNat = byte := UInt8.ofNat_toNat
  have simple (character : Char) (value : UInt8) (eq : value = byte)
      (found : Escape.simple? character = some value)
      (noDigits : (character = 'x' ∨ character = 'X' ∨ character = 'u' ∨ character = 'U' ∨
        isOctalDigit character = true) → False) :
      ∃ next, read opening '"' offset (['\\', character] ++ rest) =
        (read opening '"' next rest).prepend 2 [byte] := by
    refine ⟨offset + 2, ?_⟩
    have escape := Escape.read?_simple character rest value found noDigits
    rw [← eq]
    exact read_escape opening offset 1 (character :: rest) [value] escape
  simp only [Escape.write]
  split
  · next code => exact simple 't' 9 (by rw [← whole, code]; rfl) rfl (by decide)
  split
  · next code => exact simple 'r' 13 (by rw [← whole, code]; rfl) rfl (by decide)
  split
  · next code => exact simple 'n' 10 (by rw [← whole, code]; rfl) rfl (by decide)
  split
  · next code =>
    rcases code with code | code | code
    · exact code ▸ simple '"' 34 (by rw [← whole, code]; rfl) rfl (by decide)
    · exact code ▸ simple '\'' 39 (by rw [← whole, code]; rfl) rfl (by decide)
    · exact code ▸ simple '\\' 92 (by rw [← whole, code]; rfl) rfl (by decide)
  split
  · next noMark printable =>
    have encoded := utf8EncodeChar_printable byte.toNat printable.2 printable.1
    have plain := printable_ne byte.toNat printable.2 printable.1 noMark
    simp only [List.mem_cons, List.not_mem_nil, or_false, not_or] at plain
    obtain ⟨noQuote, noNewline, noNull, noBackslash⟩ := plain
    refine ⟨offset + (Char.ofNat byte.toNat).utf8Size, ?_⟩
    rw [List.singleton_append, read]
    simp only [noQuote, noNewline, noNull, noBackslash, if_false, encoded, whole,
      List.length_singleton]
  · obtain ⟨first, second, third, eq, octal, value⟩ := octal_of_byte byte.toNat small
    refine ⟨offset + 4, ?_⟩
    have escape := Escape.read?_octal first second third rest byte.toNat octal value small
    rw [whole] at escape
    rw [eq]
    exact read_escape opening offset 3 (first :: second :: third :: rest) [byte] escape

/-! ### Literals -/

/-- Written bytes up to the closing quote are read as the bytes. -/
theorem read_flatMap_write (opening offset : Nat) (bytes : Bytes) (rest : List Char) :
    read opening '"' offset (bytes.flatMap Escape.write ++ '"' :: rest) =
      ⟨bytes, (bytes.flatMap Escape.write).length + 1, []⟩ := by
  induction bytes generalizing offset with
  | nil => rw [List.flatMap_nil, List.nil_append, read, if_pos rfl]; rfl
  | cons byte others inductionHypothesis =>
    rw [List.flatMap_cons, List.append_assoc]
    obtain ⟨next, step⟩ := read_write opening offset byte (others.flatMap Escape.write ++ '"' :: rest)
    rw [step, inductionHypothesis next]
    simp [prepend, Nat.add_assoc]

end StringBody

/-- The literal that bytes are written as is scanned as one token, wherever it stands. -/
theorem Scanned.all_literal (bytes : Bytes) (offset : Nat) (rest : List Char) :
    all offset ((Escape.literal bytes).toList ++ rest) =
      piece ⟨.token (.string bytes),
        ⟨offset, offset + byteLength (Escape.literal bytes).toList⟩⟩ [] ::
          all (offset + byteLength (Escape.literal bytes).toList) rest := by
  have text : (Escape.literal bytes).toList = '"' :: (bytes.flatMap Escape.write ++ ['"']) := by
    simp [Escape.literal]
  have front : Front.read offset '"' (bytes.flatMap Escape.write ++ ['"'] ++ rest) =
      .element (.token (.string bytes)) ((bytes.flatMap Escape.write ++ ['"']).length + 1) [] := by
    show Front.string offset '"' _ = _
    rw [List.append_assoc, List.singleton_append, Front.string, StringBody.read_flatMap_write]
    simp [Nat.add_comm]
  rw [text]
  exact all_element front

/-- A literal spells the bytes that it was written for. -/
theorem spells_literal (bytes : Bytes) :
    Spells (Escape.literal bytes).toList [.string bytes] Anything :=
  fun offset rest _ => ⟨[_], Scanned.all_literal bytes offset rest, rfl⟩

/-! ### Bytes of a text -/

theorem toList_loop (bytes : ByteArray) (index : Nat) (found : List UInt8) :
    ByteArray.toList.loop bytes index found = found.reverse ++ bytes.data.toList.drop index := by
  fun_induction ByteArray.toList.loop bytes index found with
  | case1 index found inside inductionHypothesis =>
    have inBounds : index < bytes.data.toList.length := by
      rw [Array.length_toList]
      exact inside
    rw [inductionHypothesis, List.drop_eq_getElem_cons inBounds]
    simp [ByteArray.get!, getElem!_pos bytes.data index (by simpa using inBounds)]
  | case2 index found outside =>
    have beyond : bytes.data.toList.length ≤ index := by
      rw [Array.length_toList]
      exact Nat.not_lt.mp outside
    rw [List.drop_eq_nil_of_le beyond, List.append_nil]

/-- The list of the bytes of an array. -/
theorem toList_eq (bytes : ByteArray) : bytes.toList = bytes.data.toList :=
  toList_loop bytes 0 []

/-- The bytes of a text are decoded as the text. -/
theorem fromUTF8?_toUTF8 (text : String) :
    String.fromUTF8? ⟨text.toUTF8.toList.toArray⟩ = some text := by
  have bytes : (⟨text.toUTF8.toList.toArray⟩ : ByteArray) = text.toByteArray := by
    rw [toList_eq, String.toUTF8_eq_toByteArray, Array.toArray_toList]
  rw [bytes, String.fromUTF8?, dif_pos text.isValidUTF8]
  rfl

/-- The bytes of a text are those of its characters. -/
theorem toList_toUTF8 (text : String) :
    text.toUTF8.toList = text.toList.flatMap String.utf8EncodeChar := by
  rw [toList_eq, String.toUTF8_eq_toByteArray, ← String.utf8Encode_toList, List.utf8Encode,
    List.toList_data_toByteArray]

/-! ### Identifiers in quotes -/

theorem toNat_of_isIdentifierPart {character : Char}
    (part : isIdentifierPart character = true) : character.toNat < 128 := by
  simp only [isIdentifierPart, Char.isAlphanum, Bool.or_eq_true, decide_eq_true_eq] at part
  rcases part with (alpha | digit) | rfl
  · exact Nat.lt_of_le_of_lt (toNat_of_isAlpha alpha).2 (by decide)
  · exact Nat.lt_of_le_of_lt (toNat_of_isDigit digit).2 (by decide)
  · decide

theorem write_of_isIdentifierPart_ofNat : ∀ code < 128,
    isIdentifierPart (Char.ofNat code) = true →
      (String.utf8EncodeChar (Char.ofNat code)).flatMap Escape.write = [Char.ofNat code] := by
  decide +kernel

/-- A character of an identifier is a byte that is written as it is. -/
theorem write_of_isIdentifierPart {character : Char}
    (part : isIdentifierPart character = true) :
    (String.utf8EncodeChar character).flatMap Escape.write = [character] := by
  have written := write_of_isIdentifierPart_ofNat character.toNat (toNat_of_isIdentifierPart part)
  rw [Char.ofNat_toNat] at written
  exact written part

/-- An identifier in quotes is the literal form of its bytes. -/
theorem literal_of_isIdentifier {word : String} (identifier : isIdentifier word = true) :
    Escape.literal word.toUTF8.toList = "\"" ++ word ++ "\"" := by
  obtain ⟨first, rest, eq, start, parts⟩ := isIdentifier_cons identifier
  have all : ∀ character ∈ word.toList, isIdentifierPart character = true := by
    rw [eq, List.forall_mem_cons]
    exact ⟨isIdentifierPart_of_isIdentifierStart start, List.all_eq_true.mp parts⟩
  have written : word.toUTF8.toList.flatMap Escape.write = word.toList := by
    rw [toList_toUTF8, List.flatMap_assoc]
    calc word.toList.flatMap _ = word.toList.flatMap fun character => [character] :=
          List.flatMap_congr fun character member => write_of_isIdentifierPart (all _ member)
      _ = word.toList := List.flatMap_singleton' _
  rw [Escape.literal, written, String.ofList_toList]

end ProtoSchema
