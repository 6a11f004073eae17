import Cfgd.JsonRoundTrip
import Mathlib.Tactic.IntervalCases

/-!
# What the escapes of a string stand for

A text between two quotes may have bytes, escapes of one letter and characters in hexadecimal
digits, the high ones as a pair of surrogates. The parser makes UTF-8 of the characters.
-/

namespace JsonEscapes

open CText JsonText JsonBounds JsonRoundTrip Reading

section Coding

/-- Four hexadecimal digits and what they stand for. -/
def Digits (d : Bytes) (u : Nat) : Prop :=
  ∃ c₁ c₂ c₃ c₄ v₁ v₂ v₃ v₄, d = [c₁, c₂, c₃, c₄] ∧ hexValue c₁ = some v₁ ∧
    hexValue c₂ = some v₂ ∧ hexValue c₃ = some v₃ ∧ hexValue c₄ = some v₄ ∧
      u = ((v₁ * 16 + v₂) * 16 + v₃) * 16 + v₄

/-- A text between two quotes, and the bytes that it stands for. -/
inductive Spelled : Bytes → Bytes → Prop where
  | nil : Spelled [] []
  | plain {c : UInt8} {text bytes : Bytes} (quote : c ≠ 34) (escape : c ≠ 92)
      (rest : Spelled text bytes) : Spelled (c :: text) (c :: bytes)
  | letter {l b : UInt8} {text bytes : Bytes} (escaped : escapedByte l = some b)
      (rest : Spelled text bytes) : Spelled (92 :: l :: text) (b :: bytes)
  | basic {c : Char} {d text bytes : Bytes} (digits : Digits d c.toNat)
      (rest : Spelled text bytes) :
      Spelled (92 :: 117 :: (d ++ text)) (String.utf8EncodeChar c ++ bytes)
  | pair {c : Char} {d d' text bytes : Bytes} (high : 0x10000 ≤ c.toNat)
      (first : Digits d (0xD800 + (c.toNat - 0x10000) / 0x400))
      (second : Digits d' (0xDC00 + (c.toNat - 0x10000) % 0x400)) (rest : Spelled text bytes) :
      Spelled (92 :: 117 :: (d ++ 92 :: 117 :: (d' ++ text))) (String.utf8EncodeChar c ++ bytes)

theorem low_bits (x : Nat) : (x ||| 0x80) &&& 0xBF = x % 0x40 + 0x80 := by
  have masked : (x ||| 0x80) &&& 0xBF = 2 ^ 7 * 1 ||| x % 2 ^ 6 := by
    refine Nat.eq_of_testBit_eq fun i => ?_
    rw [Nat.testBit_and, Nat.testBit_or, Nat.testBit_or, Nat.testBit_mod_two_pow]
    by_cases low : i < 8
    · interval_cases i
      all_goals
        generalize x.testBit _ = bit
        cases bit <;> decide
    · have wide : (0xBF : Nat).testBit i = false :=
        Nat.testBit_lt_two_pow (Nat.lt_of_lt_of_le (by decide : 0xBF < 2 ^ 8)
          (Nat.pow_le_pow_right (by decide) (by omega)))
      have wide' : (2 ^ 7 * 1 : Nat).testBit i = false :=
        Nat.testBit_lt_two_pow (Nat.lt_of_lt_of_le (by decide : 2 ^ 7 * 1 < 2 ^ 8)
          (Nat.pow_le_pow_right (by decide) (by omega)))
      rw [wide, wide']
      simp
      omega
  have small : x % 2 ^ 6 < 2 ^ 7 := Nat.lt_trans (Nat.mod_lt _ (by decide)) (by decide)
  rw [masked, ← Nat.two_pow_add_eq_or_of_lt small]
  omega

/-- The mark of the first byte has its own bits. -/
theorem first_bits {x k m : Nat} (small : x < 2 ^ k) (room : x + 2 ^ k * m < 256) :
    (x ||| 2 ^ k * m) &&& 0xFF = x + 2 ^ k * m := by
  rw [Nat.or_comm, ← Nat.two_pow_add_eq_or_of_lt small, show (0xFF : Nat) = 2 ^ 8 - 1 from rfl,
    Nat.and_two_pow_sub_one_eq_mod]
  omega

theorem continuation_low (left codepoint : Nat) (output : Bytes) :
    continuation (left + 1) codepoint output =
      continuation left (codepoint / 0x40) ((codepoint % 0x40 + 0x80).toUInt8 :: output) := by
  rw [continuation, low_bits, Nat.shiftRight_eq_div_pow]

theorem encodeUtf8_char (c : Char) : encodeUtf8 c.toNat = .done (String.utf8EncodeChar c) := by
  have valid : c.toNat < 0x110000 := by
    rcases c.valid with low | ⟨_, high⟩
    · exact Nat.lt_trans low (by decide)
    · exact high
  rw [encodeUtf8, String.utf8EncodeChar]
  change c.val.toNat < 0x110000 at valid
  rw [show c.toNat = c.val.toNat from rfl]
  generalize c.val.toNat = v at valid
  dsimp only
  simp only [continuation_low]
  simp only [continuation]
  split
  · rw [if_pos (by omega), show (0x7F : Nat) = 2 ^ 7 - 1 from rfl, Nat.and_two_pow_sub_one_eq_mod,
      Nat.mod_eq_of_lt (by omega)]
  · split
    · have mark : (v / 0x40 ||| 0xC0) &&& 0xFF = v / 64 % 0x20 + 0xC0 := by
        rw [Nat.mod_eq_of_lt (by omega)]
        exact first_bits (k := 5) (m := 6) (by omega) (by omega)
      rw [if_neg (by omega), if_pos (by omega), mark]
    · split
      · have mark : (v / 0x40 / 0x40 ||| 0xE0) &&& 0xFF = v / 4096 % 0x10 + 0xE0 := by
          rw [Nat.div_div_eq_div_mul, Nat.mod_eq_of_lt (by omega)]
          exact first_bits (k := 4) (m := 14) (by omega) (by omega)
        rw [if_neg (by omega), if_neg (by omega), if_pos (by omega), mark]
      · have mark : (v / 0x40 / 0x40 / 0x40 ||| 0xF0) &&& 0xFF = v / 262144 % 0x08 + 0xF0 := by
          rw [Nat.div_div_eq_div_mul, Nat.div_div_eq_div_mul, Nat.mod_eq_of_lt (by omega)]
          exact first_bits (k := 3) (m := 30) (by omega) (by omega)
        rw [if_pos (by omega), if_neg (by omega), if_neg (by omega), if_neg (by omega), mark,
          Nat.div_div_eq_div_mul]

end Coding

section Reading
variable {content : Bytes}

theorem parseHex4_digits {d tail : Bytes} {u i : Nat} (digits : Digits d u)
    (start : content.drop i = d ++ tail) : parseHex4 content i = .done u := by
  obtain ⟨c₁, c₂, c₃, c₄, v₁, v₂, v₃, v₄, rfl, h₁, h₂, h₃, h₄, rfl⟩ := digits
  have second := drop_succ start
  have third := drop_succ second
  have fourth := drop_succ third
  rw [parseHex4, parseHex_digit start h₁, parseHex_digit second h₂, parseHex_digit third h₃,
    parseHex_digit fourth h₄, parseHex]
  simp only [Nat.shiftLeft_eq, Nat.succ_ne_zero, if_true, if_false]
  exact congrArg Reading.done (by omega)

theorem length_digits {d : Bytes} {u : Nat} (digits : Digits d u) : d.length = 4 := by
  obtain ⟨c₁, c₂, c₃, c₄, v₁, v₂, v₃, v₄, rfl, _⟩ := digits
  rfl

theorem digits_small {d : Bytes} {u : Nat} (digits : Digits d u) : u < 0x10000 := by
  obtain ⟨c₁, c₂, c₃, c₄, v₁, v₂, v₃, v₄, rfl, h₁, h₂, h₃, h₄, rfl⟩ := digits
  have := (hexValue_other h₁).2
  have := (hexValue_other h₂).2
  have := (hexValue_other h₃).2
  have := (hexValue_other h₄).2
  omega

theorem utf16_basic {c : Char} {d tail : Bytes} {p e : Nat} (digits : Digits d c.toNat)
    (start : content.drop p = 92 :: 117 :: (d ++ tail)) (inside : p + 6 ≤ e) :
    utf16LiteralToUtf8 content p e = .done (String.utf8EncodeChar c, 6) := by
  have scalar : c.toNat < 0xD800 ∨ 0xDFFF < c.toNat := c.valid.imp id And.left
  rw [utf16LiteralToUtf8, if_neg (by omega), parseHex4_digits digits (drop_succ (drop_succ start)),
    done_bind, if_neg (by omega), if_neg (by omega), encodeUtf8_char, done_bind]

/-- The two halves of a high character. -/
theorem surrogates {v : Nat} (high : 0x10000 ≤ v) (valid : v < 0x110000) :
    0x10000 + ((((0xD800 + (v - 0x10000) / 0x400) &&& 0x3FF) <<< 10) |||
      ((0xDC00 + (v - 0x10000) % 0x400) &&& 0x3FF)) = v := by
  rw [show (0x3FF : Nat) = 2 ^ 10 - 1 from rfl, Nat.and_two_pow_sub_one_eq_mod,
    Nat.and_two_pow_sub_one_eq_mod, Nat.shiftLeft_eq, Nat.mul_comm,
    ← Nat.two_pow_add_eq_or_of_lt (Nat.mod_lt _ (by decide))]
  omega

theorem utf16_pair {c : Char} {d d' tail : Bytes} {p e : Nat} (high : 0x10000 ≤ c.toNat)
    (first : Digits d (0xD800 + (c.toNat - 0x10000) / 0x400))
    (second : Digits d' (0xDC00 + (c.toNat - 0x10000) % 0x400))
    (start : content.drop p = 92 :: 117 :: (d ++ 92 :: 117 :: (d' ++ tail))) (inside : p + 12 ≤ e) :
    utf16LiteralToUtf8 content p e = .done (String.utf8EncodeChar c, 12) := by
  have valid : c.toNat < 0x110000 := by
    rcases c.valid with low | ⟨_, valid⟩
    · exact Nat.lt_trans low (by decide)
    · exact valid
  have behind := drop_succ (drop_succ start)
  have next : content.drop (p + 6) = 92 :: 117 :: (d' ++ tail) := by
    rw [show p + 6 = p + 1 + 1 + d.length by rw [length_digits first], ← List.drop_drop, behind,
      List.drop_left]
  have letter := drop_succ next
  rw [utf16LiteralToUtf8, if_neg (by omega), parseHex4_digits first behind, done_bind,
    if_neg (by omega), if_pos (by omega)]
  dsimp only
  rw [if_neg (by omega), byteAt_eq (getElem?_of_drop next), done_bind, if_neg (by simp),
    byteAt_eq (getElem?_of_drop letter), done_bind, if_neg (by simp),
    parseHex4_digits second (drop_succ letter), done_bind, if_neg (by omega),
    surrogates high valid, encodeUtf8_char, done_bind]

theorem utf8_length (c : Char) : (String.utf8EncodeChar c).length ≤ 4 ∧
    (c.toNat < 0x10000 → (String.utf8EncodeChar c).length ≤ 3) := by
  have encoded := sound_encodeUtf8 c.toNat
  rw [encodeUtf8_char] at encoded
  exact ⟨encoded.1, encoded.2.1⟩

/-- The scan passes a text, and skips no more than what its meaning is shorter. -/
theorem scanString_spelled {text bytes : Bytes} (h : Spelled text bytes) (tail : Bytes)
    (inputEnd skippedBytes : Nat) :
    ∃ skipped, scanString (text ++ 34 :: tail) inputEnd skippedBytes =
      some (inputEnd + text.length, skippedBytes + skipped) ∧
        skipped + bytes.length ≤ text.length := by
  have plain : ∀ {d : Bytes} {u : Nat} (rest : Bytes) (e s : Nat), Digits d u →
      scanString (d ++ rest) e s = scanString rest (e + 4) s := by
    intro d u rest e s digits
    obtain ⟨c₁, c₂, c₃, c₄, v₁, v₂, v₃, v₄, rfl, h₁, h₂, h₃, h₄, _⟩ := digits
    have quote : ∀ {c : UInt8} {v : Nat}, hexValue c = some v → c ≠ 34 := by
      rintro c v value rfl
      exact absurd value (by simp [show hexValue 34 = none by decide])
    simp only [List.cons_append, List.nil_append]
    rw [scanString_plain (quote h₁) (hexValue_other h₁).1, scanString_plain (quote h₂)
      (hexValue_other h₂).1, scanString_plain (quote h₃) (hexValue_other h₃).1,
      scanString_plain (quote h₄) (hexValue_other h₄).1]
  induction h generalizing inputEnd skippedBytes with
  | nil => exact ⟨0, scanString_quote tail _ _, Nat.le_refl 0⟩
  | @plain c text bytes quote escape rest ih =>
    obtain ⟨skipped, scanned, few⟩ := ih (inputEnd + 1) skippedBytes
    refine ⟨skipped, ?_, by simp only [List.length_cons]; omega⟩
    rw [List.cons_append, scanString_plain quote escape, scanned, List.length_cons]
    simp only [Nat.add_assoc, Nat.add_comm 1]
  | @letter l b text bytes escaped rest ih =>
    obtain ⟨skipped, scanned, few⟩ := ih (inputEnd + 2) (skippedBytes + 1)
    refine ⟨1 + skipped, ?_, by simp only [List.length_cons]; omega⟩
    rw [List.cons_append, List.cons_append, scanString_pair, scanned, List.length_cons,
      List.length_cons]
    simp only [Nat.add_assoc, Nat.add_comm 2]
  | @basic c d text bytes digits rest ih =>
    obtain ⟨skipped, scanned, few⟩ := ih (inputEnd + 2 + 4) (skippedBytes + 1)
    have size := length_digits digits
    have short := (utf8_length c).2 (digits_small digits)
    refine ⟨1 + skipped, ?_, by simp only [List.length_cons, List.length_append]; omega⟩
    rw [List.cons_append, List.cons_append, scanString_pair, List.append_assoc, plain _ _ _ digits,
      scanned]
    simp only [List.length_cons, List.length_append, size]
    exact congrArg some (Prod.ext (by simp only; omega) (by simp only; omega))
  | @pair c d d' text bytes high first second rest ih =>
    obtain ⟨skipped, scanned, few⟩ := ih (inputEnd + 2 + 4 + 2 + 4) (skippedBytes + 1 + 1)
    have size := length_digits first
    have size' := length_digits second
    have short := (utf8_length c).1
    refine ⟨2 + skipped, ?_, by simp only [List.length_cons, List.length_append]; omega⟩
    rw [List.cons_append, List.cons_append, scanString_pair, List.append_assoc, plain _ _ _ first,
      List.cons_append, List.cons_append, scanString_pair, List.append_assoc, plain _ _ _ second,
      scanned]
    simp only [List.length_cons, List.length_append, size, size']
    exact congrArg some (Prod.ext (by simp only; omega) (by simp only; omega))

/-- One turn of the loop for each part of the text. -/
theorem decodeLoop_spelled {text bytes : Bytes} (h : Spelled text bytes) {p e room fuel : Nat}
    {output tail : Bytes} (start : content.drop p = text ++ tail) (ends : e = p + text.length)
    (space : output.length + bytes.length ≤ room) (turns : text.length + 1 ≤ fuel) :
    decodeLoop content e room fuel p output = .done (output ++ bytes) := by
  induction h generalizing p fuel output with
  | nil =>
    obtain ⟨fuel, rfl⟩ := Nat.exists_eq_add_of_le' (Nat.le_trans (Nat.le_add_left 1 _) turns)
    have done : e ≤ p := Nat.le_of_eq ends
    rw [decodeLoop, if_pos done, List.append_nil]
  | @plain c text bytes quote escape rest ih =>
    simp only [List.length_cons] at ends space turns
    obtain ⟨fuel, rfl⟩ := Nat.exists_eq_add_of_le' (show 1 ≤ fuel by omega)
    rw [decodeLoop, if_neg (by omega), byteAt_eq (getElem?_of_drop start), done_bind, if_pos escape,
      sound_put (by rw [List.length_singleton]; omega), done_bind,
      ih (drop_succ start) (by omega) (by rw [List.length_append, List.length_singleton]; omega)
        (by omega), List.append_assoc, List.singleton_append]
  | @letter l b text bytes escaped rest ih =>
    simp only [List.length_cons] at ends space turns
    obtain ⟨fuel, rfl⟩ := Nat.exists_eq_add_of_le' (show 1 ≤ fuel by omega)
    have behind := drop_succ start
    rw [decodeLoop, if_neg (by omega), byteAt_eq (getElem?_of_drop start), done_bind,
      if_neg (by simp), byteAt_eq (getElem?_of_drop behind), done_bind, escaped]
    dsimp only
    rw [sound_put (by rw [List.length_singleton]; omega), done_bind,
      ih (drop_succ behind) (by omega) (by rw [List.length_append, List.length_singleton]; omega)
        (by omega), List.append_assoc, List.singleton_append]
  | @basic c d text bytes digits rest ih =>
    have size := length_digits digits
    simp only [List.length_cons, List.length_append, size] at ends space turns
    obtain ⟨fuel, rfl⟩ := Nat.exists_eq_add_of_le' (show 1 ≤ fuel by omega)
    have here : content.drop p = 92 :: 117 :: (d ++ (text ++ tail)) := by
      rw [start, ← List.append_assoc]
      rfl
    have next : content.drop (p + 6) = text ++ tail := by
      rw [show p + 6 = p + 1 + 1 + d.length by omega, ← List.drop_drop, drop_succ (drop_succ here),
        List.drop_left]
    rw [decodeLoop, if_neg (by omega), byteAt_eq (getElem?_of_drop here), done_bind,
      if_neg (by simp), byteAt_eq (getElem?_of_drop (drop_succ here)), done_bind,
      show escapedByte 117 = none by decide]
    dsimp only
    rw [if_pos rfl, utf16_basic digits here (by omega), done_bind]
    dsimp only
    rw [sound_put (by omega), done_bind,
      ih next (by omega) (by rw [List.length_append]; omega) (by omega), List.append_assoc]
  | @pair c d d' text bytes high first second rest ih =>
    have size := length_digits first
    have size' := length_digits second
    simp only [List.length_cons, List.length_append, size, size'] at ends space turns
    obtain ⟨fuel, rfl⟩ := Nat.exists_eq_add_of_le' (show 1 ≤ fuel by omega)
    have here : content.drop p = 92 :: 117 :: (d ++ 92 :: 117 :: (d' ++ (text ++ tail))) := by
      rw [start]
      simp
    have low : content.drop (p + 6) = 92 :: 117 :: (d' ++ (text ++ tail)) := by
      rw [show p + 6 = p + 1 + 1 + d.length by omega, ← List.drop_drop, drop_succ (drop_succ here),
        List.drop_left]
    have next : content.drop (p + 12) = text ++ tail := by
      rw [show p + 12 = p + 6 + 1 + 1 + d'.length by omega, ← List.drop_drop,
        drop_succ (drop_succ low), List.drop_left]
    rw [decodeLoop, if_neg (by omega), byteAt_eq (getElem?_of_drop here), done_bind,
      if_neg (by simp), byteAt_eq (getElem?_of_drop (drop_succ here)), done_bind,
      show escapedByte 117 = none by decide]
    dsimp only
    rw [if_pos rfl, utf16_pair high first second here (by omega), done_bind]
    dsimp only
    rw [sound_put (by omega), done_bind,
      ih next (by omega) (by rw [List.length_append]; omega) (by omega), List.append_assoc]

/-- `parse_string` on a text between quotes, wherever it stands: what the text stands for, up to
the first NUL character in it. -/
theorem parseString_spelled {text bytes : Bytes} (h : Spelled text bytes) (front tail : Bytes) :
    parseString (front ++ 34 :: (text ++ 34 :: tail)) front.length =
      .done (cString bytes, front.length + text.length + 2) := by
  have start : (front ++ 34 :: (text ++ 34 :: tail)).drop front.length =
      34 :: (text ++ 34 :: tail) := List.drop_left
  have behind := drop_succ start
  obtain ⟨skipped, scanned, few⟩ := scanString_spelled h tail (front.length + 1) 0
  rw [parseString, byteAt_eq (getElem?_of_drop start), done_bind, if_neg (by simp), behind, scanned]
  dsimp only
  rw [decodeLoop_spelled h behind rfl (by rw [List.length_nil]; omega) (by omega), done_bind,
    sound_put (by rw [List.nil_append, List.length_singleton]; omega), done_bind, List.nil_append]
  have same : cString (bytes ++ [0]) = cString bytes := by
    rw [cString, cString, List.takeWhile_append]
    split
    · rename_i whole
      rw [List.takeWhile_cons, if_neg (by decide), List.append_nil]
      exact ((List.takeWhile_sublist _).eq_of_length whole).symm
    · rfl
  rw [same]
  exact congrArg (fun i => Reading.done (cString bytes, i)) (by omega)

/-- `\u00e9\ud83d\ude00x\n` -/
theorem parseString_spelled_face :
    parseString
      ([32] ++ 34 :: (ofChars ['\\', 'u', '0', '0', 'e', '9', '\\', 'u', 'd', '8', '3', 'd',
      '\\', 'u', 'd', 'e', '0', '0', 'x', '\\', 'n'] ++ 34 :: [44])) 1 =
        .done ([0xC3, 0xA9, 0xF0, 0x9F, 0x98, 0x80, 120, 10], 24) := by
  have first : Digits (ofChars ['0', '0', 'e', '9']) 0xE9 :=
    ⟨_, _, _, _, 0, 0, 14, 9, rfl, by decide, by decide, by decide, by decide, rfl⟩
  have high : Digits (ofChars ['d', '8', '3', 'd']) 0xD83D :=
    ⟨_, _, _, _, 13, 8, 3, 13, rfl, by decide, by decide, by decide, by decide, rfl⟩
  have low : Digits (ofChars ['d', 'e', '0', '0']) 0xDE00 :=
    ⟨_, _, _, _, 13, 14, 0, 0, rfl, by decide, by decide, by decide, by decide, rfl⟩
  exact parseString_spelled (.basic (c := 'é') first (.pair (c := '😀') (by decide) high low
    (.plain (c := 120) (by decide) (by decide)
      (.letter (l := 110) (b := 10) (by decide) .nil)))) [32] [44]

end Reading

end JsonEscapes
