import Cfgd.JsonAccepted

/-!
# A printed document is read again

The parser reads the text that `cJSON_PrintUnformatted` makes of a document, and builds the
document anew: the same values under the same names, at fresh addresses. It refuses the text
of a document with more levels than `CJSON_NESTING_LIMIT`.
-/

namespace JsonRoundTrip

open CText CJson Item JsonText JsonBounds JsonAccepted Reading

section Copies
variable {ν : Type}

mutual
/-- The document at the addresses from `a` on, and the address behind them. -/
def numbered (a : Nat) : Item ν → Item ν × Nat
  | .mk _ string kind child =>
    (.mk a string kind (numberedList (a + 1) child).1, (numberedList (a + 1) child).2)
def numberedList (a : Nat) : List (Item ν) → List (Item ν) × Nat
  | [] => ([], a)
  | c :: rest =>
    ((numbered a c).1 :: (numberedList (numbered a c).2 rest).1,
      (numberedList (numbered a c).2 rest).2)
end

end Copies

section Numbers
variable {ν : Type} [NumberFormat ν]

/-- The text that `print_number` makes. -/
def numberText (n : ν) : Bytes :=
  if NumberFormat.finite n = false then nullWord
  else
    let text := NumberFormat.percentG 15 n
    match (NumberFormat.strtod text : ν × Nat) with
    | (test, taken) =>
      if taken = 0 ∨ NumberFormat.differ test n = true then NumberFormat.percentG 17 n else text

variable (ν)

/-- What the code relies on: `%1.<n>g` makes a number of few bytes which `strtod` takes as a
whole, seventeen digits tell every number, and numbers of which one is printed with fifteen
digits are the same when they compare equal. -/
structure NumberLaws : Prop where
  byte : ∀ (p : Nat) (n : ν), NumberFormat.finite n = true →
    ∀ c ∈ NumberFormat.percentG p n, numberByte c = true
  first : ∀ (p : Nat) (n : ν), NumberFormat.finite n = true →
    ∃ c, (NumberFormat.percentG p n).head? = some c ∧ (c = 45 ∨ (48 ≤ c ∧ c ≤ 57))
  short : ∀ (p : Nat) (n : ν), NumberFormat.finite n = true → p ≤ 17 →
    (NumberFormat.percentG p n).length ≤ 25
  whole : ∀ (p : Nat) (n : ν), NumberFormat.finite n = true →
    (NumberFormat.strtod (NumberFormat.percentG p n) : ν × Nat).2 =
      (NumberFormat.percentG p n).length
  equal : ∀ n : ν, NumberFormat.finite n = true →
    NumberFormat.differ (NumberFormat.strtod (NumberFormat.percentG 15 n)).1 n = false →
      (NumberFormat.strtod (NumberFormat.percentG 15 n)).1 = n
  exact : ∀ n : ν, NumberFormat.finite n = true →
    (NumberFormat.strtod (NumberFormat.percentG 17 n)).1 = n

variable {ν}

theorem numberText_spec (laws : NumberLaws ν) {n : ν} (finite : NumberFormat.finite n = true) :
    ∃ p, p ≤ 17 ∧ numberText n = NumberFormat.percentG p n ∧
      NumberFormat.strtod (numberText n) = (n, (numberText n).length) := by
  rw [numberText, if_neg (by simp [finite])]
  dsimp only
  split
  · refine ⟨17, Nat.le_refl _, rfl, ?_⟩
    exact Prod.ext (laws.exact n finite) (laws.whole 17 n finite)
  · rename_i same
    obtain ⟨_, same⟩ := not_or.mp same
    refine ⟨15, by decide, rfl, ?_⟩
    exact Prod.ext (laws.equal n finite (by simpa using same)) (laws.whole 15 n finite)

variable {content : Bytes}

theorem takeWhile_numberByte {text tail : Bytes} (byte : ∀ c ∈ text, numberByte c = true)
    (stops : ∀ c ∈ tail.head?, numberByte c = false) (short : text.length < 63) :
    ((text ++ tail).take 63).takeWhile numberByte = text := by
  have here : List.take 63 text = text := List.take_of_length_le (by omega)
  rw [List.take_append, here, List.takeWhile_append_of_pos byte]
  cases tail with
  | nil => rw [List.take_nil, List.takeWhile_nil, List.append_nil]
  | cons c tail =>
    obtain ⟨k, more⟩ := Nat.exists_eq_add_of_lt (Nat.sub_pos_of_lt short)
    have stop := stops c (by simp)
    rw [more, Nat.zero_add, List.take_succ_cons, List.takeWhile_cons, stop]
    exact List.append_nil text

theorem parseNumber_text (laws : NumberLaws ν) {n : ν} (finite : NumberFormat.finite n = true)
    {offset : Nat} {tail : Bytes} (start : content.drop offset = numberText n ++ tail)
    (stops : ∀ c ∈ tail.head?, numberByte c = false) :
    parseNumber content offset = .done (n, offset + (numberText n).length) := by
  obtain ⟨p, few, text, strtod⟩ := numberText_spec laws finite
  obtain ⟨c, first, _⟩ := laws.first p n finite
  have short := laws.short p n finite few
  have byte := laws.byte p n finite
  rw [← text] at first short byte
  rw [parseNumber, start]
  dsimp only
  rw [takeWhile_numberByte byte stops (by omega), strtod]
  refine if_neg fun none => ?_
  rw [List.eq_nil_of_length_eq_zero none] at first
  cases first

end Numbers

section Strings
variable {content : Bytes}

theorem hexValue_hexDigit {n : Nat} (small : n < 16) : hexValue (hexDigit n) = some n := by
  have all : ∀ n : Fin 16, hexValue (hexDigit n) = some n.val := by decide
  exact all ⟨n, small⟩

/-- A byte is printed as it is, as an escape of one letter, or as the number of its code. -/
theorem printByte_cases (c : UInt8) :
    (c ≠ 34 ∧ c ≠ 92 ∧ printByte c = [c]) ∨
    (∃ letter, printByte c = [92, letter] ∧ escapedByte letter = some c) ∨
    (c.toNat < 32 ∧
      printByte c = [92, 117, 48, 48, hexDigit (c.toNat / 16), hexDigit (c.toNat % 16)]) := by
  have code : ∀ {n : Nat} {d : UInt8}, c.toNat = n → d.toNat = n → d = c := fun same same' =>
    UInt8.toNat_inj.mp (same'.trans same.symm)
  rw [printByte]
  split
  · rename_i plain
    exact Or.inl ⟨plain.2.1, plain.2.2, rfl⟩
  · rename_i other
    right
    split
    · rename_i eq
      exact Or.inl ⟨92, rfl, congrArg some (code eq rfl)⟩
    · rename_i eq
      exact Or.inl ⟨34, rfl, congrArg some (code eq rfl)⟩
    · rename_i eq
      exact Or.inl ⟨98, rfl, congrArg some (code (d := 8) eq rfl)⟩
    · rename_i eq
      exact Or.inl ⟨102, rfl, congrArg some (code (d := 12) eq rfl)⟩
    · rename_i eq
      exact Or.inl ⟨110, rfl, congrArg some (code (d := 10) eq rfl)⟩
    · rename_i eq
      exact Or.inl ⟨114, rfl, congrArg some (code (d := 13) eq rfl)⟩
    · rename_i eq
      exact Or.inl ⟨116, rfl, congrArg some (code (d := 9) eq rfl)⟩
    · rename_i slash quote _ _ _ _ _
      refine Or.inr ⟨?_, rfl⟩
      have notQuote : c ≠ 34 := fun same => quote (by rw [same]; rfl)
      have notSlash : c ≠ 92 := fun same => slash (by rw [same]; rfl)
      have low : ¬ 31 < c := fun high => other ⟨high, notQuote, notSlash⟩
      exact Nat.lt_succ_of_le (Nat.le_of_not_lt fun high => low (UInt8.lt_iff_toNat_lt.mpr high))

theorem scanString_quote (rest : Bytes) (inputEnd skippedBytes : Nat) :
    scanString (34 :: rest) inputEnd skippedBytes = some (inputEnd, skippedBytes) := by
  rw [scanString.eq_def]
  exact if_pos rfl

theorem scanString_plain {c : UInt8} (quote : c ≠ 34) (escape : c ≠ 92) (rest : Bytes)
    (inputEnd skippedBytes : Nat) : scanString (c :: rest) inputEnd skippedBytes =
      scanString rest (inputEnd + 1) skippedBytes := by
  rw [scanString.eq_def]
  exact (if_neg quote).trans (if_neg escape)

theorem scanString_pair (c : UInt8) (rest : Bytes) (inputEnd skippedBytes : Nat) :
    scanString (92 :: c :: rest) inputEnd skippedBytes =
      scanString rest (inputEnd + 2) (skippedBytes + 1) := by
  rw [scanString.eq_def]
  exact (if_neg (by decide)).trans (if_pos rfl)

/-- The scan passes the printed bytes; it skips at most what they are longer than the string. -/
theorem scanString_printed (s tail : Bytes) (inputEnd skippedBytes : Nat) :
    ∃ skipped, scanString (s.flatMap printByte ++ 34 :: tail) inputEnd skippedBytes =
      some (inputEnd + (s.flatMap printByte).length, skippedBytes + skipped) ∧
        skipped + s.length ≤ (s.flatMap printByte).length := by
  induction s generalizing inputEnd skippedBytes with
  | nil =>
    refine ⟨0, ?_, Nat.le_refl 0⟩
    rw [List.flatMap_nil, List.nil_append, scanString_quote]
    rfl
  | cons c s ih =>
    rw [List.flatMap_cons, List.append_assoc, List.length_append]
    rcases printByte_cases c with ⟨quote, slash, printed⟩ | ⟨letter, printed, _⟩ | ⟨_, printed⟩
    · obtain ⟨skipped, scanned, few⟩ := ih (inputEnd + 1) skippedBytes
      refine ⟨skipped, ?_, ?_⟩
      · rw [printed, List.singleton_append, scanString_plain quote slash, scanned,
          List.length_singleton, Nat.add_assoc]
      · rw [printed, List.length_singleton, List.length_cons]
        omega
    · obtain ⟨skipped, scanned, few⟩ := ih (inputEnd + 2) (skippedBytes + 1)
      refine ⟨1 + skipped, ?_, ?_⟩
      · rw [printed, List.cons_append, List.singleton_append, scanString_pair, scanned,
          Nat.add_assoc, Nat.add_assoc]
        rfl
      · rw [printed, List.length_cons]
        simp only [List.length_cons, List.length_nil]
        omega
    · have plain : ∀ n < 16, hexDigit n ≠ 34 ∧ hexDigit n ≠ 92 := by decide
      obtain ⟨skipped, scanned, few⟩ := ih (inputEnd + 2 + 1 + 1 + 1 + 1) (skippedBytes + 1)
      have high := plain (c.toNat / 16) (by omega)
      have low := plain (c.toNat % 16) (by omega)
      refine ⟨1 + skipped, ?_, ?_⟩
      · simp only [printed, List.cons_append, List.nil_append]
        rw [scanString_pair, scanString_plain (by decide) (by decide),
          scanString_plain (by decide) (by decide), scanString_plain high.1 high.2,
          scanString_plain low.1 low.2, scanned]
        simp only [List.length_cons, List.length_nil, Nat.add_assoc, Nat.zero_add]
        simp only [← Nat.add_assoc]
      · simp only [printed, List.length_cons, List.length_nil]
        omega

theorem parseHex_digit {i left h digit : Nat} {d : UInt8} {rest : Bytes}
    (start : content.drop i = d :: rest) (value : hexValue d = some digit) :
    parseHex content i (left + 1) h =
      parseHex content (i + 1) left (if left = 0 then h + digit else (h + digit) <<< 4) := by
  rw [parseHex, byteAt_eq (getElem?_of_drop start), done_bind, value]

theorem encodeUtf8_ascii {c : UInt8} (ascii : c.toNat < 128) : encodeUtf8 c.toNat = .done [c] := by
  rw [encodeUtf8]
  dsimp only
  rw [if_pos ascii, show (0x7F : Nat) = 2 ^ 7 - 1 from rfl, Nat.and_two_pow_sub_one_eq_mod,
    Nat.mod_eq_of_lt ascii]
  exact congrArg (fun c => Reading.done [c]) (UInt8.ofNat_toNat)

/-- The escape of a control byte stands for this byte. -/
theorem utf16_control {c : UInt8} (low : c.toNat < 32) {p e : Nat} {tail : Bytes}
    (start : content.drop p =
      92 :: 117 :: 48 :: 48 :: hexDigit (c.toNat / 16) :: hexDigit (c.toNat % 16) :: tail)
    (inside : p + 6 ≤ e) : utf16LiteralToUtf8 content p e = .done ([c], 6) := by
  have digits : parseHex4 content (p + 2) = .done c.toNat := by
    have third := drop_succ (drop_succ start)
    have fourth := drop_succ third
    have fifth := drop_succ fourth
    have sixth := drop_succ fifth
    have high : c.toNat / 16 < 16 := by omega
    have below : c.toNat % 16 < 16 := by omega
    have zero : hexValue 48 = some 0 := by decide
    rw [parseHex4, parseHex_digit third zero, parseHex_digit fourth zero,
      parseHex_digit fifth (hexValue_hexDigit high), parseHex_digit sixth (hexValue_hexDigit below),
      parseHex]
    simp only [Nat.shiftLeft_eq, Nat.succ_ne_zero, if_true, if_false]
    exact congrArg Reading.done (by omega)
  rw [utf16LiteralToUtf8, if_neg (by omega), digits, done_bind, if_neg (by omega),
    if_neg (by omega), encodeUtf8_ascii (by omega), done_bind]

theorem decodeLoop_byte {c : UInt8} {p e room fuel : Nat} {output tail : Bytes}
    (start : content.drop p = printByte c ++ tail) (inside : p + (printByte c).length ≤ e)
    (space : output.length + 1 ≤ room) :
    decodeLoop content e room (fuel + 1) p output =
      decodeLoop content e room fuel (p + (printByte c).length) (output ++ [c]) := by
  have fits : put room output [c] = .done (output ++ [c]) := sound_put space
  rw [decodeLoop]
  rcases printByte_cases c with ⟨_, slash, printed⟩ | ⟨letter, printed, escape⟩ | ⟨low, printed⟩
  · rw [printed] at start inside ⊢
    rw [List.length_singleton] at inside
    rw [if_neg (by omega), byteAt_eq (getElem?_of_drop start), done_bind, if_pos slash, fits]
    rfl
  · rw [printed] at start inside ⊢
    simp only [List.length_cons, List.length_nil] at inside
    rw [if_neg (by omega), byteAt_eq (getElem?_of_drop start), done_bind, if_neg (by decide),
      byteAt_eq (getElem?_of_drop (drop_succ start)), done_bind, escape]
    dsimp only
    rw [fits]
    rfl
  · rw [printed] at start inside ⊢
    simp only [List.length_cons, List.length_nil] at inside
    rw [if_neg (by omega), byteAt_eq (getElem?_of_drop start), done_bind, if_neg (by decide),
      byteAt_eq (getElem?_of_drop (drop_succ start)), done_bind,
      show escapedByte 117 = none by decide]
    dsimp only
    rw [if_pos rfl, utf16_control low start (by omega), done_bind]
    dsimp only
    rw [fits]
    rfl

theorem decodeLoop_printed (s : Bytes) {p e room fuel : Nat} {output tail : Bytes}
    (start : content.drop p = s.flatMap printByte ++ tail)
    (ends : e = p + (s.flatMap printByte).length) (space : output.length + s.length ≤ room)
    (turns : s.length + 1 ≤ fuel) :
    decodeLoop content e room fuel p output = .done (output ++ s) := by
  induction s generalizing p fuel output with
  | nil =>
    obtain ⟨fuel, rfl⟩ := Nat.exists_eq_add_of_le' (Nat.le_trans (Nat.le_add_left 1 _) turns)
    have done : e ≤ p := Nat.le_of_eq ends
    rw [decodeLoop, if_pos done, List.append_nil]
  | cons c s ih =>
    obtain ⟨fuel, rfl⟩ := Nat.exists_eq_add_of_le' (Nat.le_trans (Nat.le_add_left 1 _) turns)
    rw [List.flatMap_cons, List.length_append] at ends
    rw [List.flatMap_cons, List.append_assoc] at start
    rw [List.length_cons] at space turns
    have behind : content.drop (p + (printByte c).length) = s.flatMap printByte ++ tail := by
      rw [← List.drop_drop, start, List.drop_left]
    rw [decodeLoop_byte start (by omega) (by omega),
      ih behind (by omega) (by rw [List.length_append, List.length_singleton]; omega) (by omega),
      List.append_assoc, List.singleton_append]

theorem cString_terminated {s : Bytes} (clean : 0 ∉ s) (tail : Bytes) :
    cString (s ++ 0 :: tail) = s := by
  have whole : ∀ c ∈ s, decide (c ≠ 0) = true := fun c mem => decide_eq_true fun zero =>
    clean (zero ▸ mem)
  rw [cString, List.takeWhile_append_of_pos whole, List.takeWhile_cons, if_neg (by decide),
    List.append_nil]

theorem parseString_printed {s : Bytes} (clean : 0 ∉ s) {offset : Nat} {tail : Bytes}
    (start : content.drop offset = printStringPtr (some s) ++ tail) :
    parseString content offset = .done (s, offset + (printStringPtr (some s)).length) := by
  have text : printStringPtr (some s) ++ tail = 34 :: (s.flatMap printByte ++ 34 :: tail) := by
    simp [printStringPtr]
  have size : (printStringPtr (some s)).length = (s.flatMap printByte).length + 2 := by
    simp [printStringPtr]
  rw [text] at start
  have behind := drop_succ start
  obtain ⟨skipped, scanned, few⟩ := scanString_printed s tail (offset + 1) 0
  rw [parseString, byteAt_eq (getElem?_of_drop start), done_bind, if_neg (by decide), behind,
    scanned]
  dsimp only
  rw [decodeLoop_printed s behind rfl (by rw [List.length_nil]; omega) (by omega), done_bind,
    sound_put (by rw [List.nil_append, List.length_singleton]; omega), done_bind, List.nil_append,
    cString_terminated clean, size]
  exact congrArg (fun i => Reading.done (s, i)) (by omega)

end Strings

section Texts
variable {content : Bytes}

theorem bufferSkipWhitespace_plain {offset : Nat} {c : UInt8} {rest : Bytes}
    (start : content.drop offset = c :: rest) (high : 32 < c) :
    bufferSkipWhitespace content offset = offset := by
  have inside := lt_of_drop start
  have stops : (c :: rest).takeWhile (· ≤ 32) = [] := by
    rw [List.takeWhile_cons, if_neg (by simpa using high)]
  rw [bufferSkipWhitespace, start, stops]
  exact if_neg (Nat.ne_of_lt inside)

theorem spells_here {offset : Nat} {d : UInt8} {word tail : Bytes}
    (start : content.drop offset = d :: word ++ tail) :
    spells content offset (d :: word) = true := by
  have size := congrArg List.length start
  rw [List.length_drop, List.length_append, List.length_cons] at size
  rw [spells, Bool.and_eq_true, decide_eq_true_eq, beq_iff_eq, start, List.take_left,
    List.length_cons]
  exact ⟨by omega, rfl⟩

theorem spells_other {offset : Nat} {c d : UInt8} {rest word : Bytes}
    (start : content.drop offset = c :: rest) (apart : c ≠ d) :
    spells content offset (d :: word) = false := by
  refine Bool.eq_false_iff.mpr fun h => ?_
  have byte := spells_byte h (k := 0) (Nat.succ_pos _)
  rw [Nat.add_zero, getElem?_of_drop start] at byte
  exact apart (Option.some.inj byte)

/-- The first text is followed by the others, with a comma in front of each. -/
theorem intercalate_cons (text : Bytes) (rest : List Bytes) :
    [44].intercalate (text :: rest) =
      text ++ if rest = [] then [] else (44 : UInt8) :: [44].intercalate rest := by
  cases rest with
  | nil => simp [List.intercalate]
  | cons next rest => simp [List.intercalate]

end Texts

section Documents
variable {ν : Type} [NumberFormat ν]

/-- `cJSON_PrintUnformatted` with its text of the numbers. -/
abbrev printed : Item ν → Bytes := cjsonPrintUnformatted numberText

theorem printElements_eq (l : List (Item ν)) : printElements numberText l = l.map printed := by
  induction l with
  | nil => rfl
  | cons c l ih => rw [printElements, ih, List.map_cons]

/-- A name and its value. -/
def member (c : Item ν) : Bytes := printStringPtr c.string ++ 58 :: printed c

theorem printMembers_eq (l : List (Item ν)) : printMembers numberText l = l.map member := by
  induction l with
  | nil => rfl
  | cons c l ih => rw [printMembers, ih, List.map_cons, member]

/-- The documents whose text says what they are. -/
structure Printable (j : Item ν) : Prop where
  made : Producible j
  clean : ∀ x ∈ j.items, clean x
  finite : ∀ x ∈ j.items, ∀ n, x.kind = .cjsonNumber n → NumberFormat.finite n = true

theorem Printable.below {j c : Item ν} (h : Printable j) (hc : c ∈ j.child) : Printable c where
  made := by
    cases h.made with
    | object _ below => exact below c hc
    | array _ below => exact below c hc
    | leaf => cases hc
  clean x hx := h.clean x (mem_items_of_child hc hx)
  finite x hx := h.finite x (mem_items_of_child hc hx)

theorem first_printed (laws : NumberLaws ν) {j : Item ν} (h : Printable j) :
    ∃ c rest, printed j = c :: rest ∧ 32 < c ∧ c ≠ 93 ∧ c ≠ 0xEF := by
  have self := self_mem_items j
  have finite := h.finite j self
  cases j with
  | mk a string kind child =>
    cases kind with
    | cjsonNumber n =>
      obtain ⟨p, _, text, _⟩ := numberText_spec laws (finite n rfl)
      obtain ⟨c, first, digit⟩ := laws.first p n (finite n rfl)
      rw [← text] at first
      obtain ⟨rest, whole⟩ := List.head?_eq_some_iff.mp first
      have shown : printed (.mk a string (.cjsonNumber n) child) = numberText n := rfl
      refine ⟨c, rest, shown.trans whole, ?_⟩
      rcases digit with rfl | ⟨low, high⟩
      · decide
      · refine ⟨UInt8.lt_of_lt_of_le (by decide) low, ?_, ?_⟩
        · rintro rfl
          exact absurd high (by decide)
        · rintro rfl
          exact absurd high (by decide)
    | _ => exact ⟨_, _, rfl, by decide, by decide, by decide⟩

omit [NumberFormat ν] in
theorem numbered_eq (a : Nat) (j : Item ν) : numbered a j =
    (.mk a j.string j.kind (numberedList (a + 1) j.child).1, (numberedList (a + 1) j.child).2) := by
  cases j
  rw [numbered]
  rfl

/-- The cursor behind a text. -/
def behindText (before : Cursor) (text : Bytes) (nextAddr : Nat) : Cursor :=
  ⟨before.offset + text.length, before.depth, nextAddr⟩

/-- `parse_value` makes a document of its text, unless there are too many levels. -/
def Reparsed (j : Item ν) : Prop :=
  ∀ (content tail : Bytes) (before : Cursor) (fuel : Nat),
    content.drop before.offset = printed j ++ tail →
    (∀ c ∈ tail.head?, numberByte c = false) → before.depth ≤ cjsonNestingLimit →
    3 * (printed j).length + 1 ≤ fuel →
      parseValue content fuel before =
        if before.depth + nesting j ≤ cjsonNestingLimit then
          .done (j.kind, (numberedList before.nextAddr j.child).1,
            behindText before (printed j) (numberedList before.nextAddr j.child).2)
        else .refused

/-- What follows an item of a list: a comma and the next one, or the closing bracket. -/
theorem drop_item {content text tail : Bytes} {rest : List Bytes} {offset : Nat} {close : UInt8}
    (start : content.drop offset = [44].intercalate (text :: rest) ++ close :: tail) :
    content.drop offset =
      text ++ ((if rest = [] then [] else 44 :: [44].intercalate rest) ++ close :: tail) ∧
    content.drop (offset + text.length) =
      (if rest = [] then [] else 44 :: [44].intercalate rest) ++ close :: tail := by
  rw [intercalate_cons, List.append_assoc] at start
  refine ⟨start, ?_⟩
  rw [← List.drop_drop, start, List.drop_left]

/-- The byte behind an item is no byte of a number. -/
theorem stops_item {tail : Bytes} {rest : List Bytes} {close : UInt8}
    (stop : numberByte close = false) :
    ∀ c ∈ ((if rest = [] then [] else 44 :: [44].intercalate rest) ++ close :: tail).head?,
      numberByte c = false := by
  intro c first
  split at first
  · obtain rfl := Option.some.inj first
    exact stop
  · obtain rfl := Option.some.inj first
    decide

theorem elements_printed (laws : NumberLaws ν) {l : List (Item ν)}
    (below : ∀ c ∈ l, Printable c ∧ Reparsed c) (names : ∀ c ∈ l, c.string = none)
    (some : l ≠ []) {content tail : Bytes} (before : Cursor) {fuel : Nat} {head : List (Item ν)}
    (start : content.drop (before.offset + 1) = [44].intercalate (l.map printed) ++ 93 :: tail)
    (limit : before.depth ≤ cjsonNestingLimit)
    (turns : 3 * (([44].intercalate (l.map printed)).length + 1) ≤ fuel) :
    parseElements content fuel before head =
      if before.depth + nestingList l ≤ cjsonNestingLimit then
        .done (head ++ (numberedList before.nextAddr l).1,
          behindText { before with offset := before.offset + 1 } ([44].intercalate (l.map printed))
            (numberedList before.nextAddr l).2)
      else .refused := by
  induction l generalizing before fuel head with
  | nil => exact absurd rfl some
  | cons c rest ih =>
    obtain ⟨⟨printable, reparsed⟩, later⟩ := List.forall_mem_cons.mp below
    obtain ⟨name, unnamed⟩ := List.forall_mem_cons.mp names
    obtain ⟨fuel, rfl⟩ := Nat.exists_eq_add_of_le' (show 1 ≤ fuel by omega)
    obtain ⟨first, _, shown, high, _⟩ := first_printed laws printable
    rw [List.map_cons] at start turns ⊢
    obtain ⟨here, next⟩ := drop_item start
    have size : (printed c).length ≤ ([44].intercalate (printed c :: rest.map printed)).length := by
      rw [intercalate_cons, List.length_append]
      omega
    rw [parseElements, bufferSkipWhitespace_plain (by rw [here, shown]; rfl) high]
    dsimp only
    rw [reparsed content _ ⟨before.offset + 1, before.depth, before.nextAddr + 1⟩ fuel here
      (stops_item (by decide)) limit (by omega), nestingList]
    dsimp only
    by_cases fits : before.depth + nesting c ≤ cjsonNestingLimit
    · rw [if_pos fits, done_bind]
      dsimp only [behindText]
      have item : numbered before.nextAddr c = (.mk before.nextAddr none c.kind
          (numberedList (before.nextAddr + 1) c.child).1,
          (numberedList (before.nextAddr + 1) c.child).2) := by
        rw [numbered_eq, name]
      cases rest with
      | nil =>
        rw [List.map_nil, if_pos rfl, List.nil_append] at next
        simp only [bufferSkipWhitespace_plain next (by decide), getElem?_of_drop next]
        rw [if_neg (by decide), if_pos trivial, nestingList, Nat.max_zero, if_pos fits]
        simp only [numberedList, item, List.map_nil, List.intercalate_singleton]
      | cons d rest =>
        rw [List.map_cons, if_neg (by simp), List.cons_append] at next
        simp only [bufferSkipWhitespace_plain next (by decide), getElem?_of_drop next]
        rw [if_pos trivial]
        have long : ([44].intercalate (printed c :: (d :: rest).map printed)).length =
            (printed c).length + 1 + ([44].intercalate ((d :: rest).map printed)).length := by
          rw [intercalate_cons, if_neg (by simp), List.length_append, List.length_cons]
          omega
        rw [long] at turns ⊢
        rw [ih later unnamed (by simp) ⟨before.offset + 1 + (printed c).length, before.depth,
          (numberedList (before.nextAddr + 1) c.child).2⟩ (drop_succ next) limit (by omega)]
        dsimp only
        by_cases deep : before.depth + nestingList (d :: rest) ≤ cjsonNestingLimit
        · rw [if_pos deep, if_pos (by omega), List.append_assoc, List.singleton_append]
          simp only [numberedList, item, behindText, Nat.add_assoc]
        · rw [if_neg deep, if_neg (by omega)]
    · rw [if_neg fits, refused_bind, if_neg (by omega)]

theorem members_printed (laws : NumberLaws ν) {l : List (Item ν)}
    (below : ∀ c ∈ l, Printable c ∧ Reparsed c) (names : ∀ c ∈ l, c.string ≠ none)
    (some : l ≠ []) {content tail : Bytes} (before : Cursor) {fuel : Nat} {head : List (Item ν)}
    (start : content.drop (before.offset + 1) = [44].intercalate (l.map member) ++ 125 :: tail)
    (limit : before.depth ≤ cjsonNestingLimit)
    (turns : 3 * (([44].intercalate (l.map member)).length + 1) ≤ fuel) :
    parseMembers content fuel before head =
      if before.depth + nestingList l ≤ cjsonNestingLimit then
        .done (head ++ (numberedList before.nextAddr l).1,
          behindText { before with offset := before.offset + 1 } ([44].intercalate (l.map member))
            (numberedList before.nextAddr l).2)
      else .refused := by
  induction l generalizing before fuel head with
  | nil => exact absurd rfl some
  | cons c rest ih =>
    obtain ⟨⟨printable, reparsed⟩, later⟩ := List.forall_mem_cons.mp below
    obtain ⟨name, named⟩ := List.forall_mem_cons.mp names
    obtain ⟨name, isName⟩ := Option.ne_none_iff_exists'.mp name
    have plain := (printable.clean c (self_mem_items c)).1 name isName
    obtain ⟨fuel, rfl⟩ := Nat.exists_eq_add_of_le' (show 1 ≤ fuel by omega)
    obtain ⟨first, _, shown, high, _⟩ := first_printed laws printable
    rw [List.map_cons] at start turns ⊢
    obtain ⟨here, next⟩ := drop_item start
    have size : (member c).length ≤ ([44].intercalate (member c :: rest.map member)).length := by
      rw [intercalate_cons, List.length_append]
      omega
    have parts : (member c).length =
        (printStringPtr (Option.some name)).length + 1 + (printed c).length := by
      rw [member, isName, List.length_append, List.length_cons]
      omega
    rw [show member c = printStringPtr (Option.some name) ++ 58 :: printed c by
      rw [member, isName], List.append_assoc, List.cons_append] at here
    have colon : content.drop (before.offset + 1 + (printStringPtr (Option.some name)).length) =
        58 :: (printed c ++ ((if rest.map member = [] then []
          else 44 :: [44].intercalate (rest.map member)) ++ 125 :: tail)) := by
      rw [← List.drop_drop, here, List.drop_left]
    have value := drop_succ colon
    rw [parseMembers, bufferSkipWhitespace_plain (c := 34) (by rw [here]; rfl) (by decide)]
    dsimp only
    rw [parseString_printed plain here, done_bind]
    dsimp only
    simp only [bufferSkipWhitespace_plain colon (by decide), getElem?_of_drop colon]
    rw [if_neg (by simp), bufferSkipWhitespace_plain (by rw [value, shown]; rfl) high]
    rw [reparsed content _ ⟨before.offset + 1 + (printStringPtr (Option.some name)).length + 1,
      before.depth, before.nextAddr + 1⟩ fuel value (stops_item (by decide)) limit (by omega),
        nestingList]
    dsimp only
    by_cases fits : before.depth + nesting c ≤ cjsonNestingLimit
    · rw [if_pos fits, done_bind]
      dsimp only [behindText]
      have item : numbered before.nextAddr c = (.mk before.nextAddr (Option.some name) c.kind
          (numberedList (before.nextAddr + 1) c.child).1,
          (numberedList (before.nextAddr + 1) c.child).2) := by
        rw [numbered_eq, isName]
      have place : before.offset + 1 + (printStringPtr (Option.some name)).length + 1 +
          (printed c).length = before.offset + 1 + (member c).length := by
        omega
      simp only [place]
      cases rest with
      | nil =>
        rw [List.map_nil, if_pos rfl, List.nil_append] at next
        simp only [bufferSkipWhitespace_plain next (by decide), getElem?_of_drop next]
        rw [if_neg (by decide), if_pos trivial, nestingList, Nat.max_zero, if_pos fits]
        simp only [numberedList, item, List.map_nil, List.intercalate_singleton]
      | cons d rest =>
        rw [List.map_cons, if_neg (by simp), List.cons_append] at next
        simp only [bufferSkipWhitespace_plain next (by decide), getElem?_of_drop next]
        rw [if_pos trivial]
        have long : ([44].intercalate (member c :: (d :: rest).map member)).length =
            (member c).length + 1 + ([44].intercalate ((d :: rest).map member)).length := by
          rw [intercalate_cons, if_neg (by simp), List.length_append, List.length_cons]
          omega
        rw [long] at turns ⊢
        rw [ih later named (by simp) ⟨before.offset + 1 + (member c).length, before.depth,
          (numberedList (before.nextAddr + 1) c.child).2⟩ (drop_succ next) limit (by omega)]
        dsimp only
        by_cases deep : before.depth + nestingList (d :: rest) ≤ cjsonNestingLimit
        · rw [if_pos deep, if_pos (by omega), List.append_assoc, List.singleton_append]
          simp only [numberedList, item, behindText, Nat.add_assoc]
        · rw [if_neg deep, if_neg (by omega)]
    · rw [if_neg fits, refused_bind, if_neg (by omega)]

section Value
variable {content tail rest : Bytes} {before : Cursor} {fuel : Nat}

/-- A value that starts with none of the letters of a word. -/
theorem parseValue_first {c : UInt8} (start : content.drop before.offset = c :: rest)
    (notNull : c ≠ 110) (notFalse : c ≠ 102) (notTrue : c ≠ 116) :
    (parseValue content (fuel + 1) before : Reading (Kind ν × _)) =
      if c = 34 then do
        let (text, offset) ← parseString content before.offset
        .done (.cjsonString text, [], { before with offset := offset })
      else if c = 45 ∨ (48 ≤ c ∧ c ≤ 57) then do
        let (number, offset) ← parseNumber content before.offset
        .done (.cjsonNumber number, [], { before with offset := offset })
      else if c = 91 then do
        let (child, buffer) ← parseArray content fuel before
        .done (.cjsonArray, child, buffer)
      else if c = 123 then do
        let (child, buffer) ← parseObject content fuel before
        .done (.cjsonObject, child, buffer)
      else .refused := by
  have null : spells content before.offset nullWord = false := spells_other start notNull
  have no : spells content before.offset falseWord = false := spells_other start notFalse
  have yes : spells content before.offset trueWord = false := spells_other start notTrue
  rw [parseValue, null, no, yes, getElem?_of_drop start]
  rfl

theorem reparsed_array (laws : NumberLaws ν) {a : Nat} {string : Option Bytes} {l : List (Item ν)}
    (below : ∀ c ∈ l, Printable c ∧ Reparsed c) (names : ∀ c ∈ l, c.string = none) :
    Reparsed (.mk a string .cjsonArray l) := by
  intro content tail before fuel start stops limit turns
  have text : printed (.mk a string .cjsonArray l) =
      91 :: ([44].intercalate (l.map printed) ++ [93]) := by
    rw [printed, cjsonPrintUnformatted, printElements_eq]
    rfl
  have size : (printed (.mk a string .cjsonArray l)).length =
      ([44].intercalate (l.map printed)).length + 2 := by
    rw [text, List.length_cons, List.length_append, List.length_singleton]
  rw [text, List.cons_append, List.append_assoc, List.singleton_append] at start
  obtain ⟨fuel, rfl⟩ := Nat.exists_eq_add_of_le' (show 2 ≤ fuel by omega)
  have within := drop_succ start
  rw [parseValue_first start (by decide) (by decide) (by decide), if_neg (by decide),
    if_neg (by decide), if_pos rfl, parseArray, show nesting (.mk a string .cjsonArray l) =
      nestingList l + 1 by rw [nesting], kind_mk, child_mk]
  by_cases deep : cjsonNestingLimit ≤ before.depth
  · rw [if_pos deep, refused_bind, if_neg (by omega)]
  · rw [if_neg deep, byteAt_eq (getElem?_of_drop start), done_bind, if_neg (by simp)]
    cases l with
    | nil =>
      rw [List.map_nil, List.intercalate_nil, List.nil_append] at within
      simp only [bufferSkipWhitespace_plain within (by decide), getElem?_of_drop within]
      rw [if_pos trivial, done_bind, if_pos (by rw [nestingList]; omega)]
      simp only [numberedList, behindText, size, List.map_nil, List.intercalate_nil,
        List.length_nil, Nat.zero_add]
    | cons c rest =>
      obtain ⟨first, _, shown, high, notClose, _⟩ := first_printed laws (below c (by simp)).1
      have here := (drop_item within).1
      rw [shown, List.cons_append] at here
      simp only [bufferSkipWhitespace_plain here high, getElem?_of_drop here]
      rw [if_neg (by simpa using notClose), if_neg (Nat.not_le.mpr (lt_of_drop here)),
        Nat.add_sub_cancel, elements_printed laws below names (by simp)
          ⟨before.offset, before.depth + 1, before.nextAddr⟩ within (by simp only; omega)
          (by omega)]
      dsimp only
      by_cases fits : before.depth + 1 + nestingList (c :: rest) ≤ cjsonNestingLimit
      · rw [if_pos fits, if_pos (by omega), done_bind, done_bind]
        simp only [List.nil_append, behindText, size, Nat.add_sub_cancel]
        congr 4
        omega
      · rw [if_neg fits, if_neg (by omega), refused_bind, refused_bind]

theorem reparsed_object (laws : NumberLaws ν) {a : Nat} {string : Option Bytes} {l : List (Item ν)}
    (below : ∀ c ∈ l, Printable c ∧ Reparsed c) (names : ∀ c ∈ l, c.string ≠ none) :
    Reparsed (.mk a string .cjsonObject l) := by
  intro content tail before fuel start stops limit turns
  have text : printed (.mk a string .cjsonObject l) =
      123 :: ([44].intercalate (l.map member) ++ [125]) := by
    rw [printed, cjsonPrintUnformatted, printMembers_eq]
    rfl
  have size : (printed (.mk a string .cjsonObject l)).length =
      ([44].intercalate (l.map member)).length + 2 := by
    rw [text, List.length_cons, List.length_append, List.length_singleton]
  rw [text, List.cons_append, List.append_assoc, List.singleton_append] at start
  obtain ⟨fuel, rfl⟩ := Nat.exists_eq_add_of_le' (show 2 ≤ fuel by omega)
  have within := drop_succ start
  rw [parseValue_first start (by decide) (by decide) (by decide), if_neg (by decide),
    if_neg (by decide), if_neg (by decide), if_pos rfl, parseObject,
    show nesting (.mk a string .cjsonObject l) = nestingList l + 1 by
      rw [nesting], kind_mk, child_mk]
  by_cases deep : cjsonNestingLimit ≤ before.depth
  · rw [if_pos deep, refused_bind, if_neg (by omega)]
  · rw [if_neg deep, if_neg (by simp [getElem?_of_drop start])]
    cases l with
    | nil =>
      rw [List.map_nil, List.intercalate_nil, List.nil_append] at within
      simp only [bufferSkipWhitespace_plain within (by decide), getElem?_of_drop within]
      rw [if_pos trivial, done_bind, if_pos (by rw [nestingList]; omega)]
      simp only [numberedList, behindText, size, List.map_nil, List.intercalate_nil,
        List.length_nil, Nat.zero_add]
    | cons c rest =>
      obtain ⟨w, shown⟩ : ∃ w, member c = 34 :: w := ⟨_, rfl⟩
      have here := (drop_item within).1
      rw [shown, List.cons_append] at here
      simp only [bufferSkipWhitespace_plain here (by decide), getElem?_of_drop here]
      rw [if_neg (by simp), if_neg (Nat.not_le.mpr (lt_of_drop here)), Nat.add_sub_cancel,
        members_printed laws below names (by simp)
          ⟨before.offset, before.depth + 1, before.nextAddr⟩ within (by simp only; omega)
          (by omega)]
      dsimp only
      by_cases fits : before.depth + 1 + nestingList (c :: rest) ≤ cjsonNestingLimit
      · rw [if_pos fits, if_pos (by omega), done_bind, done_bind]
        simp only [List.nil_append, behindText, size, Nat.add_sub_cancel]
        congr 4
        omega
      · rw [if_neg fits, if_neg (by omega), refused_bind, refused_bind]

theorem spells_word {word : Bytes} {d : UInt8} {text : Bytes} (start : content.drop before.offset =
    text ++ tail) (h : text = d :: word) : spells content before.offset (d :: word) = true :=
  spells_here (h ▸ start)

theorem reparsed_leaf (laws : NumberLaws ν) {a : Nat} {string : Option Bytes} {kind : Kind ν}
    (h : Printable (.mk a string kind [])) (notObject : kind ≠ .cjsonObject)
    (notArray : kind ≠ .cjsonArray) : Reparsed (.mk a string kind []) := by
  intro content tail before fuel start stops limit turns
  have self := self_mem_items (Item.mk a string kind [])
  have flat : nesting (.mk a string kind []) = 0 := nesting_leaf notObject notArray
  obtain ⟨fuel, rfl⟩ := Nat.exists_eq_add_of_le' (show 1 ≤ fuel by omega)
  have shallow : before.depth + 0 ≤ cjsonNestingLimit := limit
  rw [flat, if_pos shallow, kind_mk, child_mk, numberedList]
  cases kind with
  | cjsonObject => exact absurd rfl notObject
  | cjsonArray => exact absurd rfl notArray
  | cjsonNull =>
    have word : spells content before.offset nullWord = true := spells_word start rfl
    rw [parseValue, if_pos word]
    rfl
  | cjsonFalse =>
    have other : spells content before.offset nullWord = false := spells_other start (by decide)
    have word : spells content before.offset falseWord = true := spells_word start rfl
    rw [parseValue, other, if_neg (by decide), if_pos word]
    rfl
  | cjsonTrue =>
    have other : spells content before.offset nullWord = false := spells_other start (by decide)
    have other' : spells content before.offset falseWord = false := spells_other start (by decide)
    have word : spells content before.offset trueWord = true := spells_word start rfl
    rw [parseValue, other, other', if_neg (by decide), if_neg (by decide), if_pos word]
    rfl
  | cjsonString text =>
    have plain : 0 ∉ text := (h.clean _ self).2 text rfl
    have here : content.drop before.offset = printStringPtr (some text) ++ tail := start
    rw [parseValue_first here (by decide) (by decide) (by decide), if_pos rfl,
      parseString_printed plain here]
    rfl
  | cjsonNumber n =>
    have finite := h.finite _ self n rfl
    have here : content.drop before.offset = numberText n ++ tail := start
    obtain ⟨p, _, text, _⟩ := numberText_spec laws finite
    obtain ⟨c, first, digit⟩ := laws.first p n finite
    rw [← text] at first
    obtain ⟨w, whole⟩ := List.head?_eq_some_iff.mp first
    have numeral := here
    rw [whole, List.cons_append] at here
    have apart : c ≠ 110 ∧ c ≠ 102 ∧ c ≠ 116 ∧ c ≠ 34 := by
      refine ⟨?_, ?_, ?_, ?_⟩
      all_goals
        rintro rfl
        exact absurd digit (by decide)
    obtain ⟨notNull, notFalse, notTrue, notQuote⟩ := apart
    rw [parseValue_first here notNull notFalse notTrue, if_neg notQuote, if_pos digit,
      parseNumber_text laws finite numeral stops]
    rfl

end Value

/-- By induction over the document. -/
theorem reparsed (laws : NumberLaws ν) (j : Item ν) : Printable j → Reparsed j := by
  induction j using induct with
  | step j ih =>
    intro h
    have below : ∀ c ∈ j.child, Printable c ∧ Reparsed c := fun c hc =>
      ⟨h.below hc, ih c hc (h.below hc)⟩
    cases h.made with
    | object names => exact reparsed_object laws below names
    | array names => exact reparsed_array laws below names
    | leaf notObject notArray => exact reparsed_leaf laws h notObject notArray

theorem printByte_clean {c : UInt8} (other : c ≠ 0) : 0 ∉ printByte c := by
  rcases printByte_cases c with ⟨_, _, printed⟩ | ⟨letter, printed, escape⟩ | ⟨low, printed⟩
  · rw [printed, List.mem_singleton]
    exact other.symm
  · rw [printed]
    have letters : letter ≠ 0 := by
      rintro rfl
      have none : escapedByte 0 = none := by decide
      rw [none] at escape
      cases escape
    simp [letters.symm]
  · rw [printed]
    have digits : ∀ n < 16, hexDigit n ≠ 0 := by decide
    have high := digits (c.toNat / 16) (by omega)
    have below := digits (c.toNat % 16) (by omega)
    simp [high.symm, below.symm]

theorem printStringPtr_clean {s : Bytes} (clean : 0 ∉ s) : 0 ∉ printStringPtr (some s) := by
  have bytes : ∀ c ∈ s, 0 ∉ printByte c := fun c mem => printByte_clean fun zero =>
    clean (zero ▸ mem)
  simpa [printStringPtr] using bytes

theorem intercalate_clean {l : List Bytes} (h : ∀ text ∈ l, 0 ∉ text) : 0 ∉ [44].intercalate l := by
  induction l with
  | nil => simp
  | cons text l ih =>
    obtain ⟨here, later⟩ := List.forall_mem_cons.mp h
    rw [intercalate_cons, List.mem_append, not_or]
    refine ⟨here, ?_⟩
    split
    · simp
    · simpa using ih later

theorem printed_clean (laws : NumberLaws ν) (j : Item ν) : Printable j → 0 ∉ printed j := by
  induction j using induct with
  | step j ih =>
    intro h
    have self := self_mem_items j
    have below : ∀ c ∈ j.child, 0 ∉ printed c := fun c hc => ih c hc (h.below hc)
    cases h.made with
    | @object a string child names =>
      have members : ∀ text ∈ child.map member, 0 ∉ text := by
        intro text mem
        obtain ⟨c, hc, rfl⟩ := List.mem_map.mp mem
        obtain ⟨name, named⟩ := Option.ne_none_iff_exists'.mp (names c hc)
        have plain := (h.clean c (mem_items_of_child hc (self_mem_items c))).1 name named
        have value := below c hc
        rw [member, named, List.mem_append, List.mem_cons]
        have key := printStringPtr_clean plain
        rintro (mem | zero | mem)
        · exact key mem
        · exact absurd zero (by decide)
        · exact value mem
      have inner := intercalate_clean members
      rw [printed, cjsonPrintUnformatted, printMembers_eq]
      simpa using inner
    | @array a string child names =>
      have elements : ∀ text ∈ child.map printed, 0 ∉ text := by
        intro text mem
        obtain ⟨c, hc, rfl⟩ := List.mem_map.mp mem
        exact below c hc
      have inner := intercalate_clean elements
      rw [printed, cjsonPrintUnformatted, printElements_eq]
      simpa using inner
    | @leaf a string kind notObject notArray =>
      cases kind with
      | cjsonObject => exact absurd rfl notObject
      | cjsonArray => exact absurd rfl notArray
      | cjsonNull => exact show 0 ∉ nullWord by decide
      | cjsonFalse => exact show 0 ∉ falseWord by decide
      | cjsonTrue => exact show 0 ∉ trueWord by decide
      | cjsonString text => exact printStringPtr_clean ((h.clean _ self).2 text rfl)
      | cjsonNumber n =>
        have finite := h.finite _ self n rfl
        obtain ⟨p, _, text, _⟩ := numberText_spec laws finite
        have bytes := laws.byte p n finite
        rw [← text] at bytes
        intro mem
        exact numberByte_nonzero (bytes 0 mem) rfl

/-- `cJSON_Parse` stops behind the document, if no byte of a number follows. -/
theorem cjsonParse_of_text (laws : NumberLaws ν) {D : Item ν} (h : Printable D)
    (root : D.string = none) (nextAddr : Nat) {value tail : Bytes}
    (text : bufferOf value = printed D ++ tail) (stops : ∀ c ∈ tail.head?, numberByte c = false) :
    (cjsonParse nextAddr value : Reading (Item ν × Addr)) =
      if nesting D ≤ cjsonNestingLimit then .done (numbered nextAddr D) else .refused := by
  obtain ⟨first, w, shown, high, _, notBom⟩ := first_printed laws h
  have bom : skipUtf8Bom (printed D ++ tail) = 0 := by
    rw [skipUtf8Bom, shown, if_neg]
    rintro ⟨_, same⟩
    exact notBom (List.cons.inj same).1
  have start : (printed D ++ tail).drop 0 = first :: (w ++ tail) := by
    rw [shown]
    rfl
  rw [cjsonParse, text, bom]
  dsimp only
  rw [bufferSkipWhitespace_plain start high, reparsed laws D h _ tail ⟨0, 0, nextAddr + 1⟩ _ rfl
    stops (Nat.zero_le _) (by rw [List.length_append]; omega), Nat.zero_add]
  by_cases shallow : nesting D ≤ cjsonNestingLimit
  · rw [if_pos shallow, if_pos shallow, done_bind, numbered_eq, root]
    rfl
  · rw [if_neg shallow, if_neg shallow, refused_bind]

theorem bufferOf_printed (laws : NumberLaws ν) {D : Item ν} (h : Printable D) (behind : Bytes) :
    bufferOf (printed D ++ 0 :: behind) = printed D ++ [0] := by
  rw [bufferOf, cString_terminated (printed_clean laws D h)]

/-- `cJSON_Parse` of the text that `cJSON_PrintUnformatted` made, whatever is behind it. -/
theorem cjsonParse_printed (laws : NumberLaws ν) {D : Item ν} (h : Printable D)
    (root : D.string = none) (nextAddr : Nat) (behind : Bytes) :
    (cjsonParse nextAddr (printed D ++ 0 :: behind) : Reading (Item ν × Addr)) =
      if nesting D ≤ cjsonNestingLimit then .done (numbered nextAddr D) else .refused :=
  cjsonParse_of_text laws h root nextAddr (bufferOf_printed laws h behind)
    (by rintro _ ⟨⟩; rfl)

end Documents

section Digits

theorem digit_laws : NumberLaws (Fin 10) where
  byte _ n _ := by
    have all : ∀ n : Fin 10, ∀ c ∈ NumberFormat.percentG 0 n, numberByte c = true := by
      decide +kernel
    exact all n
  first _ n _ := by
    have all : ∀ n : Fin 10, 48 ≤ (48 + n.val).toUInt8 ∧ (48 + n.val).toUInt8 ≤ 57 := by decide
    exact ⟨_, rfl, Or.inr (all n)⟩
  short _ _ _ _ := Nat.succ_le_succ (Nat.zero_le 24)
  whole _ n _ := by
    have all : ∀ n : Fin 10, (NumberFormat.strtod (NumberFormat.percentG 0 n) : Fin 10 × Nat).2 =
        (NumberFormat.percentG 0 n).length := by decide
    exact all n
  equal n _ same := by
    revert n
    decide
  exact n _ := by
    revert n
    decide

/-- `{"a":[9,"x\n",null]}` -/
def digitsDocument : Item (Fin 10) :=
  .mk 1 none .cjsonObject [.mk 2 (some (ofChars ['a'])) .cjsonArray
    [.mk 3 none (.cjsonNumber (Fin.last 9)) [], .mk 4 none (.cjsonString (ofChars ['x', '\n'])) [],
      .mk 5 none .cjsonNull []]]

theorem digitsDocument_printable : Printable digitsDocument where
  made := by
    refine .object (by simp) ?_
    simp only [List.forall_mem_singleton]
    refine .array (by simp) ?_
    simp only [List.forall_mem_cons]
    exact ⟨.leaf nofun nofun, .leaf nofun nofun, .leaf nofun nofun, nofun⟩
  clean := by
    simp [digitsDocument, items, itemsList, clean, ofChars]
  finite _ _ _ _ := rfl

theorem cjsonParse_printed_digits :
    (cjsonParse 7 (printed digitsDocument ++ [0, 93]) : Reading (Item (Fin 10) × Addr)) =
      .done (numbered 7 digitsDocument) := by
  have parsed := cjsonParse_printed digit_laws digitsDocument_printable rfl 7 [93]
  rwa [if_pos (by decide)] at parsed

end Digits

end JsonRoundTrip
