import EpcisDigest.Proofs.Json.Spelling

namespace EpcisDigest.Json

section Steps

variable {out rest : List UInt8} {length : Nat}

theorem scanFrom_raw {b : UInt8} (raw : IsRaw b) :
    scanFrom .plain out length (b :: rest) = scanFrom .plain (b :: out) (length + 1) rest := by
  obtain ⟨quote, backslash, control⟩ := raw
  simp only [scanFrom, StringMode.step, quote, and_false, backslash, control, ite_false]

theorem scanFrom_raws {bytes : List UInt8} (raw : ∀ b ∈ bytes, IsRaw b) :
    scanFrom .plain out length (bytes ++ rest) =
      scanFrom .plain (bytes.reverse ++ out) (length + bytes.length) rest := by
  induction bytes generalizing out length with
  | nil => rfl
  | cons b bytes ih =>
    have tail : ∀ b ∈ bytes, IsRaw b := fun b member => raw b (List.mem_cons_of_mem _ member)
    rw [List.cons_append, scanFrom_raw (raw b List.mem_cons_self), ih tail]
    simp only [List.reverse_cons, List.append_assoc, List.singleton_append, List.length_cons,
      Nat.add_assoc, Nat.add_comm 1]

theorem scanFrom_digit {high : Option Nat} {left code : Nat} (digit : HexDigit) :
    scanFrom (.digits high left code) out length (digit.byte :: rest) =
      if left ≤ 1 then
        match closeCode high (code * 16 + digit.value.val) out with
        | .ok (mode, out) => scanFrom mode out (length + 1) rest
        | .error fault => .refused fault (length + 1)
      else scanFrom (.digits high (left - 1) (code * 16 + digit.value.val)) out (length + 1) rest := by
  by_cases final : left ≤ 1
  · cases closed : closeCode high (code * 16 + digit.value.val) out <;>
      simp only [scanFrom, reduceCtorEq, false_and, ite_false, ite_true, StringMode.step, digit.hexValue?_byte, final,
        closed]
  · simp only [scanFrom, reduceCtorEq, false_and, ite_false, StringMode.step, digit.hexValue?_byte, final]

theorem scanFrom_code (high : Option Nat) (code : HexCode) :
    scanFrom (.digits high 4 0) out length (code.bytes ++ rest) =
      match closeCode high code.value out with
      | .ok (mode, out) => scanFrom mode out (length + 4) rest
      | .error fault => .refused fault (length + 4) := by
  simp only [HexCode.bytes, List.cons_append, List.nil_append, scanFrom_digit, Nat.reduceLeDiff,
    Nat.reduceSub, ite_false, ite_true, Nat.le_refl, Nat.zero_mul, Nat.zero_add, Nat.add_assoc,
    Nat.reduceAdd]
  rfl

theorem scanFrom_backslash :
    scanFrom .plain out length (0x5C :: rest) = scanFrom .escape out (length + 1) rest := by
  simp [scanFrom, StringMode.step]

theorem scanFrom_unicode :
    scanFrom .escape out length (0x75 :: rest) = scanFrom (.digits none 4 0) out (length + 1) rest := by
  simp [scanFrom, StringMode.step]

theorem scanFrom_pair {high : Nat} :
    scanFrom (.pairSlash high) out length (0x5C :: 0x75 :: rest) =
      scanFrom (.digits (some high) 4 0) out (length + 2) rest := by
  simp [scanFrom, StringMode.step]

theorem scanFrom_short (escape : ShortEscape) :
    scanFrom .escape out length (escape.letter :: rest) =
      scanFrom .plain ((String.utf8EncodeChar escape.meaning).reverse ++ out) (length + 1) rest := by
  obtain ⟨meant, found, encoded⟩ := escape.shortEscape?_letter
  have notUnicode : escape.letter ≠ 0x75 := by cases escape <;> decide
  simp only [scanFrom, reduceCtorEq, false_and, ite_false, StringMode.step, notUnicode, found, encoded,
    List.reverse_singleton, List.singleton_append]

theorem scanFrom_writtenChar (c : WrittenChar) :
    scanFrom .plain out length (c.bytes ++ rest) =
      scanFrom .plain ((String.utf8EncodeChar c.char).reverse ++ out) (length + c.bytes.length) rest := by
  cases c with
  | plain c allowed => exact scanFrom_raws fun b member => isRaw_of_allowed allowed member
  | short escape =>
    simp only [WrittenChar.bytes, List.cons_append, List.nil_append, scanFrom_backslash, scanFrom_short]
    rfl
  | coded code single =>
    simp only [WrittenChar.bytes, List.cons_append, scanFrom_backslash, scanFrom_unicode, scanFrom_code,
      closeCode, single.1, single.2, Bool.false_eq_true, ite_false]
    rfl
  | paired high low surrogates =>
    simp only [WrittenChar.bytes, List.cons_append, List.append_assoc, scanFrom_backslash,
      scanFrom_unicode, scanFrom_code, scanFrom_pair, closeCode, surrogates.1, surrogates.2, ite_true]
    rfl

end Steps

theorem scanFrom_writtenString (string : WrittenString) (out rest : List UInt8) (length : Nat) :
    scanFrom .plain out length (string.bytes ++ rest) =
      scanFrom .plain (((string.map WrittenChar.char).flatMap String.utf8EncodeChar).reverse ++ out)
        (length + string.bytes.length) rest := by
  induction string generalizing out length with
  | nil => rfl
  | cons c string ih =>
    have bytes : WrittenString.bytes (c :: string) = c.bytes ++ WrittenString.bytes string := rfl
    rw [bytes, List.append_assoc, scanFrom_writtenChar, ih]
    simp only [List.map_cons, List.flatMap_cons, List.reverse_append, List.append_assoc,
      List.length_append, Nat.add_assoc]

/-- A written string is read as its text, up to the quote behind it. -/
theorem scanString_writtenString (string : WrittenString) (rest : List UInt8) :
    scanString (string.bytes ++ 0x22 :: rest) = .closed string.text (string.bytes.length + 1) := by
  have decoded : Text.ofBytes? ((string.map WrittenChar.char).flatMap String.utf8EncodeChar) =
      some string.text := Text.ofBytes?_eq_some_iff.mpr (Text.bytesOf_ofList _)
  rw [scanString, scanFrom_writtenString]
  simp only [scanFrom, and_self, ite_true, List.append_nil, List.reverse_reverse, decoded, Nat.zero_add]

/-- Bytes of a string, with the bytes that they stand for. Raw bytes are not yet put together to
    characters. -/
inductive Spelled : List UInt8 → List UInt8 → Prop where
  | nil : Spelled [] []
  | raw {b : UInt8} {bytes decoded : List UInt8} (raw : IsRaw b) (others : Spelled bytes decoded) :
      Spelled (b :: bytes) (b :: decoded)
  | escaped {c : WrittenChar} {bytes decoded : List UInt8} (escape : c.isEscape = true)
      (others : Spelled bytes decoded) :
      Spelled (c.bytes ++ bytes) (String.utf8EncodeChar c.char ++ decoded)

theorem Spelled.following {bytes more decoded : List UInt8} (spelled : Spelled bytes (more ++ decoded))
    (follow : ∀ b ∈ more, ¬ b.IsUTF8FirstByte) :
    ∃ others, bytes = more ++ others ∧ Spelled others decoded := by
  induction more generalizing bytes with
  | nil => exact ⟨bytes, rfl, spelled⟩
  | cons m more ih =>
    rw [List.cons_append] at spelled
    generalize written : m :: (more ++ decoded) = all at spelled
    cases spelled with
    | nil => cases written
    | raw raw others =>
      obtain ⟨rfl, rfl⟩ := List.cons.inj written
      obtain ⟨others', rfl, spelled'⟩ := ih others fun b member => follow b (List.mem_cons_of_mem _ member)
      exact ⟨others', rfl, spelled'⟩
    | @escaped c bytes' decoded' escape others =>
      obtain ⟨first, others', encoded, leads, _⟩ := Text.encodeChar_eq_cons c.char
      rw [encoded, List.cons_append] at written
      obtain ⟨rfl, _⟩ := List.cons.inj written
      exact absurd leads (follow _ List.mem_cons_self)

/-- Bytes that stand for the bytes of some characters write these characters. -/
theorem Spelled.string {bytes : List UInt8} {cs : List Char}
    (spelled : Spelled bytes (cs.flatMap String.utf8EncodeChar)) :
    ∃ string : WrittenString, string.bytes = bytes ∧ string.map WrittenChar.char = cs := by
  induction cs generalizing bytes with
  | nil =>
    generalize written : ([] : List Char).flatMap String.utf8EncodeChar = all at spelled
    cases spelled with
    | nil => exact ⟨[], rfl, rfl⟩
    | raw raw others => cases written
    | escaped escape others =>
      exact absurd (List.append_eq_nil_iff.mp written.symm).1 String.utf8EncodeChar_ne_nil
  | cons c cs ih =>
    rw [List.flatMap_cons] at spelled
    obtain ⟨first, more, encoded, leads, follow⟩ := Text.encodeChar_eq_cons c
    generalize written : String.utf8EncodeChar c ++ cs.flatMap String.utf8EncodeChar = all at spelled
    cases spelled with
    | nil => exact absurd (List.append_eq_nil_iff.mp written).1 String.utf8EncodeChar_ne_nil
    | @raw b bytes' decoded raw others =>
      rw [encoded, List.cons_append] at written
      obtain ⟨rfl, rfl⟩ := List.cons.inj written
      obtain ⟨others', rfl, spelled'⟩ := others.following follow
      obtain ⟨string, bytes_eq, chars⟩ := ih spelled'
      have member : first ∈ String.utf8EncodeChar c := encoded ▸ List.mem_cons_self
      refine ⟨.plain c (allowed_of_isRaw member raw) :: string, ?_, congrArg (c :: ·) chars⟩
      change String.utf8EncodeChar c ++ string.bytes = _
      rw [encoded, bytes_eq, List.cons_append]
    | @escaped d bytes' decoded escape others =>
      obtain ⟨same, rest⟩ := Text.encodeChar_append_inj written
      subst rest
      obtain ⟨string, bytes_eq, chars⟩ := ih others
      refine ⟨d :: string, ?_, ?_⟩
      · change d.bytes ++ string.bytes = _
        rw [bytes_eq]
      · rw [List.map_cons, chars, ← same]

theorem exists_digit_of_closed {high : Option Nat} {left code length : Nat} {out bytes : List UInt8}
    {text : String} {total : Nat}
    (closed : scanFrom (.digits high left code) out length bytes = .closed text total) :
    ∃ (digit : HexDigit) (rest : List UInt8), bytes = digit.byte :: rest := by
  cases bytes with
  | nil => cases closed
  | cons b rest =>
    simp only [scanFrom, reduceCtorEq, false_and, ite_false, StringMode.step] at closed
    cases found : hexValue? b with
    | none => simp only [found, reduceCtorEq] at closed
    | some n =>
      obtain ⟨digit, rfl⟩ := HexDigit.exists_byte_of_hexValue? found
      exact ⟨digit, rest, rfl⟩

theorem exists_code_of_closed {high : Option Nat} {length : Nat} {out bytes : List UInt8}
    {text : String} {total : Nat}
    (closed : scanFrom (.digits high 4 0) out length bytes = .closed text total) :
    ∃ (code : HexCode) (rest : List UInt8), bytes = code.bytes ++ rest := by
  obtain ⟨first, rest, rfl⟩ := exists_digit_of_closed closed
  rw [scanFrom_digit, if_neg (by decide)] at closed
  obtain ⟨second, rest, rfl⟩ := exists_digit_of_closed closed
  rw [scanFrom_digit, if_neg (by decide)] at closed
  obtain ⟨third, rest, rfl⟩ := exists_digit_of_closed closed
  rw [scanFrom_digit, if_neg (by decide)] at closed
  obtain ⟨fourth, rest, rfl⟩ := exists_digit_of_closed closed
  exact ⟨⟨first, second, third, fourth⟩, rest, rfl⟩

theorem exists_pair_of_closed {high length : Nat} {out bytes : List UInt8} {text : String} {total : Nat}
    (closed : scanFrom (.pairSlash high) out length bytes = .closed text total) :
    ∃ (low : HexCode) (rest : List UInt8), bytes = 0x5C :: 0x75 :: (low.bytes ++ rest) ∧
      isLowSurrogate low.value = true := by
  cases bytes with
  | nil => cases closed
  | cons slash bytes =>
    by_cases isSlash : slash = 0x5C
    · cases bytes with
      | nil => simp [scanFrom, StringMode.step, isSlash] at closed
      | cons letter bytes =>
        by_cases isLetter : letter = 0x75
        · subst isSlash isLetter
          rw [scanFrom_pair] at closed
          obtain ⟨low, rest, rfl⟩ := exists_code_of_closed closed
          refine ⟨low, rest, rfl, ?_⟩
          rw [scanFrom_code] at closed
          cases isLow : isLowSurrogate low.value with
          | true => rfl
          | false => simp [closeCode, isLow] at closed
        · simp [scanFrom, StringMode.step, isSlash, isLetter] at closed
    · simp [scanFrom, StringMode.step, isSlash] at closed

theorem exists_escape_of_closed {length : Nat} {out bytes : List UInt8} {text : String} {total : Nat}
    (closed : scanFrom .plain out length (0x5C :: bytes) = .closed text total) :
    ∃ (c : WrittenChar) (rest : List UInt8), c.isEscape = true ∧ 0x5C :: bytes = c.bytes ++ rest := by
  rw [scanFrom_backslash] at closed
  cases bytes with
  | nil => cases closed
  | cons letter bytes =>
    by_cases isUnicode : letter = 0x75
    · subst isUnicode
      rw [scanFrom_unicode] at closed
      obtain ⟨code, rest, rfl⟩ := exists_code_of_closed closed
      rw [scanFrom_code] at closed
      cases isHigh : isHighSurrogate code.value with
      | true =>
        simp only [closeCode, isHigh, ite_true] at closed
        obtain ⟨low, rest, rfl, isLow⟩ := exists_pair_of_closed closed
        refine ⟨.paired code low ⟨isHigh, isLow⟩, rest, rfl, ?_⟩
        simp only [WrittenChar.bytes, List.cons_append, List.append_assoc]
      | false =>
        cases isLow : isLowSurrogate code.value with
        | true => simp [closeCode, isHigh, isLow] at closed
        | false => exact ⟨.coded code ⟨isHigh, isLow⟩, rest, rfl, rfl⟩
    · simp only [scanFrom, reduceCtorEq, false_and, ite_false, StringMode.step, isUnicode] at closed
      cases found : shortEscape? letter with
      | none => simp only [found, reduceCtorEq] at closed
      | some meant =>
        obtain ⟨escape, rfl⟩ := ShortEscape.exists_letter_of_shortEscape? found
        exact ⟨.short escape, bytes, rfl, rfl⟩

theorem WrittenChar.bytes_ne_nil (c : WrittenChar) : c.bytes ≠ [] := by
  cases c with
  | plain c allowed => exact String.utf8EncodeChar_ne_nil
  | _ => exact List.cons_ne_nil _ _

/-- The bytes before the quote that closes a string spell the text. -/
theorem spelled_of_closed {bytes out : List UInt8} {length : Nat} {text : String} {total : Nat}
    (closed : scanFrom .plain out length bytes = .closed text total) :
    ∃ front rest decoded, bytes = front ++ 0x22 :: rest ∧ Spelled front decoded ∧
      total = length + front.length + 1 ∧ Text.bytesOf text = out.reverse ++ decoded := by
  induction size : bytes.length using Nat.strongRecOn generalizing bytes out length with
  | ind count ih =>
    cases bytes with
    | nil => cases closed
    | cons b rest =>
      by_cases isQuote : b = 0x22
      · subst isQuote
        simp only [scanFrom, and_self, ite_true] at closed
        cases found : Text.ofBytes? out.reverse with
        | none => simp only [found, reduceCtorEq] at closed
        | some read =>
          simp only [found, StringScan.closed.injEq] at closed
          obtain ⟨rfl, rfl⟩ := closed
          refine ⟨[], rest, [], rfl, .nil, rfl, ?_⟩
          rw [Text.ofBytes?_eq_some_iff.mp found, List.append_nil]
      · by_cases isSlash : b = 0x5C
        · subst isSlash
          obtain ⟨c, rest', escape, split⟩ := exists_escape_of_closed closed
          rw [split, scanFrom_writtenChar] at closed
          have shorter : rest'.length < count := by
            have lengths := congrArg List.length split
            have positive := List.length_pos_iff.mpr c.bytes_ne_nil
            simp only [List.length_append, List.length_cons] at lengths size
            omega
          obtain ⟨front, rest, decoded, rfl, spelled, rfl, same⟩ := ih _ shorter closed rfl
          refine ⟨c.bytes ++ front, rest, _, ?_, .escaped escape spelled, ?_, ?_⟩
          · rw [split, List.append_assoc]
          · simp only [List.length_append, Nat.add_assoc]
          · rw [same, List.reverse_append, List.reverse_reverse, List.append_assoc]
        · by_cases isControl : b < 0x20
          · simp only [scanFrom, isQuote, and_false, ite_false, StringMode.step, isSlash, isControl,
              ite_true, reduceCtorEq] at closed
          · have raw : IsRaw b := ⟨isQuote, isSlash, isControl⟩
            rw [scanFrom_raw raw] at closed
            have shorter : rest.length < count := by
              rw [← size, List.length_cons]
              exact Nat.lt_succ_self _
            obtain ⟨front, rest, decoded, rfl, spelled, rfl, same⟩ := ih _ shorter closed rfl
            refine ⟨b :: front, rest, b :: decoded, rfl, .raw raw spelled, ?_, ?_⟩
            · simp only [List.length_cons]
              omega
            · rw [same, List.reverse_cons, List.append_assoc, List.singleton_append]

theorem exists_writtenString_of_closed {bytes : List UInt8} {text : String} {length : Nat}
    (closed : scanString bytes = .closed text length) :
    ∃ (string : WrittenString) (rest : List UInt8), bytes = string.bytes ++ 0x22 :: rest ∧
      string.text = text ∧ length = string.bytes.length + 1 := by
  obtain ⟨front, rest, decoded, rfl, spelled, rfl, same⟩ := spelled_of_closed closed
  rw [List.reverse_nil, List.nil_append] at same
  rw [← same] at spelled
  obtain ⟨string, rfl, chars⟩ := spelled.string
  refine ⟨string, rest, rfl, ?_, by rw [Nat.zero_add]⟩
  rw [WrittenString.text, chars, String.ofList_toList]

end EpcisDigest.Json
