import Cfgd.JsonText
import Mathlib.Data.List.Nodup
import Mathlib.Data.List.Flatten

/-!
# The parser stays in its memory

On a text with its terminator the parser reads nothing behind the terminator, writes no
string behind the block that it allocates for it, and comes to an end. What it accepts is a
well-formed document.
-/

namespace JsonBounds

open CText CJson Item JsonText Reading

section Outcomes
variable {α β : Type}

/-- No wrong access and no lack of turns, and what comes out has a property. -/
def Sound (P : α → Prop) : Reading α → Prop
  | .outside => False
  | .starved => False
  | .refused => True
  | .done a => P a

theorem sound_done {P : α → Prop} {a : α} (h : P a) : Sound P (.done a) := h

theorem sound_refused {P : α → Prop} : Sound P (.refused : Reading α) := trivial

theorem sound_mono {P Q : α → Prop} (step : ∀ a, P a → Q a) {reading : Reading α}
    (h : Sound P reading) : Sound Q reading := by
  cases reading with
  | done a => exact step a h
  | refused => exact trivial
  | outside => exact h
  | starved => exact h

theorem sound_bind {P : α → Prop} {Q : β → Prop} {reading : Reading α} {next : α → Reading β}
    (h : Sound P reading) (step : ∀ a, P a → Sound Q (next a)) : Sound Q (reading >>= next) := by
  cases reading with
  | done a => exact step a h
  | refused => exact trivial
  | outside => exact h
  | starved => exact h

theorem sound_iff {P : α → Prop} {reading : Reading α} :
    Sound P reading ↔ reading = .refused ∨ ∃ a, reading = .done a ∧ P a := by
  cases reading <;> simp [Sound]

end Outcomes

section Buffers
variable {content : Bytes}

/-- The terminator is the last byte of the buffer, and the only one. -/
structure Terminated (content : Bytes) : Prop where
  ends : content ≠ []
  behind : ∀ i c, content[i]? = some c → c ≠ 0 → i + 1 < content.length

theorem terminated_bufferOf (value : Bytes) : Terminated (bufferOf value) where
  ends := by simp [bufferOf]
  behind i c found other := by
    rw [bufferOf, List.length_append, List.length_singleton]
    rw [bufferOf] at found
    by_cases inside : i < (cString value).length
    · omega
    · rw [List.getElem?_append_right (by omega)] at found
      obtain ⟨_, rfl⟩ := List.getElem?_eq_some_iff.mp found
      exact absurd (List.getElem_singleton ..) other

theorem byteAt_eq {i : Nat} {c : UInt8} (h : content[i]? = some c) :
    byteAt content i = .done c := by
  rw [byteAt, h]

theorem sound_byteAt {i : Nat} (inside : i < content.length) :
    Sound (fun c => content[i]? = some c) (byteAt content i) := by
  rw [byteAt, List.getElem?_eq_getElem inside]
  exact rfl

theorem getElem?_of_drop {p : Nat} {c : UInt8} {rest : Bytes} (h : content.drop p = c :: rest) :
    content[p]? = some c := by
  rw [← List.head?_drop, h, List.head?_cons]

theorem drop_succ {p : Nat} {c : UInt8} {rest : Bytes} (h : content.drop p = c :: rest) :
    content.drop (p + 1) = rest := by
  rw [← List.drop_drop, h, List.drop_one, List.tail_cons]

theorem lt_of_drop {p : Nat} {c : UInt8} {rest : Bytes} (h : content.drop p = c :: rest) :
    p < content.length := by
  have size := congrArg List.length h
  rw [List.length_drop, List.length_cons] at size
  omega

theorem bufferSkipWhitespace_bounds {offset : Nat} (inside : offset < content.length) :
    offset ≤ bufferSkipWhitespace content offset ∧
      bufferSkipWhitespace content offset < content.length := by
  have short := (List.takeWhile_sublist (l := content.drop offset) (· ≤ 32)).length_le
  rw [List.length_drop] at short
  rw [bufferSkipWhitespace]
  split <;> omega

end Buffers

section Escapes
variable {content : Bytes}

/-- The bytes of a string before its closing quote, made of single bytes and of escapes of two
bytes; `n` counts them. -/
inductive Paired : Bytes → Nat → Prop where
  | nil : Paired [] 0
  | plain {c : UInt8} {l : Bytes} {n : Nat} (quote : c ≠ 34) (escape : c ≠ 92)
      (rest : Paired l n) : Paired (c :: l) (n + 1)
  | pair {c : UInt8} {l : Bytes} {n : Nat} (rest : Paired l n) : Paired (92 :: c :: l) (n + 1)

theorem scanString_spec {rest : Bytes} {inputEnd skippedBytes e s : Nat}
    (found : scanString rest inputEnd skippedBytes = some (e, s)) :
    ∃ l n behind, rest = l ++ 34 :: behind ∧ Paired l n ∧ e = inputEnd + l.length ∧
      l.length + skippedBytes = n + s := by
  fun_induction scanString rest inputEnd skippedBytes with
  | case1 => cases found
  | case2 rest inputEnd skippedBytes =>
    obtain ⟨rfl, rfl⟩ := Prod.mk.inj (Option.some.inj found)
    exact ⟨[], 0, rest, rfl, .nil, rfl, rfl⟩
  | case3 => cases found
  | case4 inputEnd skippedBytes d rest quote ih =>
    obtain ⟨l, n, behind, rfl, paired, ends, count⟩ := ih found
    refine ⟨92 :: d :: l, n + 1, behind, rfl, .pair paired, ?_, ?_⟩
    · simp only [List.length_cons]
      omega
    · simp only [List.length_cons]
      omega
  | case5 c rest inputEnd skippedBytes quote escape ih =>
    obtain ⟨l, n, behind, rfl, paired, ends, count⟩ := ih found
    refine ⟨c :: l, n + 1, behind, rfl, .plain quote escape paired, ?_, ?_⟩
    · rw [List.length_cons]
      omega
    · rw [List.length_cons]
      omega

/-- What is left of a string from a byte on, be it the second one of an escape. -/
inductive Left : Bytes → Nat → Prop where
  | aligned {l : Bytes} {n : Nat} (rest : Paired l n) : Left l n
  | inside {c : UInt8} {l : Bytes} {n : Nat} (rest : Paired l n) : Left (c :: l) (n + 1)

theorem left_next {c : UInt8} {l : Bytes} {n : Nat} (h : Left (c :: l) n) :
    ∃ n', n' ≤ n ∧ Left l n' := by
  cases h with
  | aligned paired =>
    cases paired with
    | plain _ _ rest => exact ⟨_, Nat.le_succ _, .aligned rest⟩
    | pair rest => exact ⟨_, Nat.le_refl _, .inside rest⟩
  | inside rest => exact ⟨_, Nat.le_succ _, .aligned rest⟩

theorem left_plain {c : UInt8} {l : Bytes} {n : Nat} (h : Left (c :: l) n) (plain : c ≠ 92) :
    ∃ n', n' + 1 ≤ n ∧ Left l n' := by
  cases h with
  | aligned paired =>
    cases paired with
    | plain _ _ rest => exact ⟨_, Nat.le_refl _, .aligned rest⟩
    | pair rest => exact absurd rfl plain
  | inside rest => exact ⟨_, Nat.le_refl _, .aligned rest⟩

theorem left_escape {c : UInt8} {l : Bytes} {n : Nat} (h : Left (92 :: c :: l) n) :
    ∃ n', n' + 1 ≤ n ∧ Left l n' := by
  cases h with
  | aligned paired =>
    cases paired with
    | plain _ escape => exact absurd rfl escape
    | pair rest => exact ⟨_, Nat.le_refl _, .aligned rest⟩
  | inside rest =>
    obtain ⟨n', less, left⟩ := left_next (.aligned rest)
    exact ⟨n', by omega, left⟩

theorem left_drop {l : Bytes} {n : Nat} (h : Left l n) (m : Nat) (inside : m ≤ l.length) :
    ∃ n', n' ≤ n ∧ Left (l.drop m) n' := by
  induction m generalizing l n with
  | zero => exact ⟨n, Nat.le_refl _, h⟩
  | succ m ih =>
    cases l with
    | nil => exact absurd inside (by simp)
    | cons c l =>
      obtain ⟨n', less, left⟩ := left_next h
      obtain ⟨n'', less', left'⟩ := ih left (by simpa using inside)
      exact ⟨n'', less'.trans less, left'⟩

theorem left_drop_plain {l : Bytes} {n m : Nat} (h : Left l n) (inside : m ≤ l.length)
    (plain : ∀ k < m, l[k]? ≠ some 92) : ∃ n', n' + m ≤ n ∧ Left (l.drop m) n' := by
  induction m generalizing l n with
  | zero => exact ⟨n, Nat.le_refl _, h⟩
  | succ m ih =>
    cases l with
    | nil => exact absurd inside (by simp)
    | cons c l =>
      have first : c ≠ 92 := fun same => plain 0 (Nat.succ_pos m) (by simp [same])
      obtain ⟨n', less, left⟩ := left_plain h first
      obtain ⟨n'', less', left'⟩ := ih left (by simpa using inside)
        fun k hk => by simpa using plain (k + 1) (by omega)
      exact ⟨n'', by omega, left'⟩

theorem hexValue_other {c : UInt8} {digit : Nat} (h : hexValue c = some digit) :
    c ≠ 92 ∧ digit < 16 := by
  obtain ⟨small, range⟩ := hexValue_range h
  refine ⟨?_, small⟩
  rintro rfl
  revert range
  decide

/-- The digits that are read so far, with the last one moved up. -/
theorem sound_parseHex {i left h : Nat} (inside : i + left ≤ content.length) (few : left ≤ 4)
    (multiple : left ≠ 0 → 16 ∣ h) (small : h < 16 ^ (min (5 - left) 4)) :
    Sound (fun value => value < 65536 ∧
      (value ≠ 0 → ∀ k < left, content[i + k]? ≠ some 92)) (parseHex content i left h) := by
  induction left generalizing i h with
  | zero => exact ⟨small, fun _ k none => absurd none (Nat.not_lt_zero k)⟩
  | succ left ih =>
    rw [parseHex]
    refine sound_bind (sound_byteAt (by omega)) fun c read => ?_
    cases hex : hexValue c with
    | none => exact ⟨by decide, fun other => absurd rfl other⟩
    | some digit =>
      obtain ⟨plain, less⟩ := hexValue_other hex
      obtain ⟨q, rfl⟩ := multiple (Nat.succ_ne_zero left)
      dsimp only
      have next : ∀ value, left ≠ 0 ∧ value = (16 * q + digit) * 16 ∨
          left = 0 ∧ value = 16 * q + digit →
          Sound (fun value => value < 65536 ∧
            (value ≠ 0 → ∀ k < left + 1, content[i + k]? ≠ some 92))
            (parseHex content (i + 1) left value) := by
        intro value which
        refine sound_mono ?_ (ih (i := i + 1) (h := value) (by omega) (by omega) ?_ ?_)
        · rintro value ⟨bound, others⟩
          refine ⟨bound, fun nonzero k less => ?_⟩
          cases k with
          | zero =>
            rw [Nat.add_zero, read]
            simpa using plain
          | succ k =>
            have other := others nonzero k (by omega)
            rwa [Nat.add_assoc, Nat.add_comm 1 k] at other
        · intro more
          rcases which with ⟨_, rfl⟩ | ⟨none, _⟩
          · exact ⟨16 * q + digit, Nat.mul_comm _ _⟩
          · exact absurd none more
        · have cases : left = 0 ∨ left = 1 ∨ left = 2 ∨ left = 3 := by omega
          rcases cases with rfl | rfl | rfl | rfl
          · have bound : 16 * q < 65536 := small
            exact show value < 65536 by omega
          · have bound : 16 * q < 4096 := small
            exact show value < 65536 by omega
          · have bound : 16 * q < 256 := small
            exact show value < 4096 by omega
          · have bound : 16 * q < 16 := small
            exact show value < 256 by omega
      split
      · exact next _ (Or.inr ⟨‹_›, rfl⟩)
      · exact next _ (Or.inl ⟨‹_›, by rw [Nat.shiftLeft_eq]⟩)

theorem sound_parseHex4 {i : Nat} (inside : i + 4 ≤ content.length) :
    Sound (fun value => value < 65536 ∧
      (value ≠ 0 → ∀ k < 4, content[i + k]? ≠ some 92)) (parseHex4 content i) :=
  sound_parseHex inside (Nat.le_refl 4) (fun _ => ⟨0, rfl⟩) (by decide)

theorem length_continuation (left codepoint : Nat) (output : Bytes) :
    (continuation left codepoint output).2.length = output.length + left := by
  induction left generalizing codepoint output with
  | zero => rfl
  | succ left ih =>
    rw [continuation, ih, List.length_cons]
    omega

theorem sound_encodeUtf8 (codepoint : Nat) :
    Sound (fun output => output.length ≤ 4 ∧ (codepoint < 65536 → output.length ≤ 3) ∧
      (codepoint = 0 → output.length = 1)) (encodeUtf8 codepoint) := by
  rw [encodeUtf8]
  have size : ∀ left, (continuation left codepoint []).2.length = left := fun left => by
    rw [length_continuation, List.length_nil, Nat.zero_add]
  split
  · exact ⟨by simp, by simp, by simp⟩
  · split
    · exact ⟨by simp [size], by simp [size], by omega⟩
    · split
      · exact ⟨by simp [size], by simp [size], by omega⟩
      · split
        · exact ⟨by simp [size], by omega, by omega⟩
        · exact sound_refused

/-- A sequence of six or twelve bytes. Its output is not longer than the digits in it, of which
it has at least four unless it stands for zero. -/
theorem sound_utf16 {p e n : Nat} {l : Bytes} (behind : Bytes)
    (start : content.drop p = 92 :: 117 :: l ++ behind)
    (ends : e = p + (l.length + 2)) (left : Left (92 :: 117 :: l) n) :
    Sound (fun result => 0 < result.2 ∧ result.2 ≤ l.length + 2 ∧
      ∃ n', n' + result.1.length ≤ n ∧ Left ((92 :: 117 :: l).drop result.2) n')
      (utf16LiteralToUtf8 content p e) := by
  have size := congrArg List.length start
  simp only [List.length_drop, List.length_cons, List.length_append] at size
  have byte : ∀ k, (92 :: 117 :: l ++ behind)[k]? = content[p + k]? := by
    intro k
    rw [← start, List.getElem?_drop]
  rw [utf16LiteralToUtf8]
  split
  · exact sound_refused
  · rename_i long
    obtain ⟨n₁, less₁, left₁⟩ := left_escape left
    -- four digits without a backslash behind a position of `l`
    have digits : ∀ {m : Nat} {l' : Bytes} {n : Nat}, l' = l.drop m → m + 4 ≤ l.length →
        Left l' n → (∀ k < 4, content[p + 2 + m + k]? ≠ some 92) →
          ∃ n', n' + 4 ≤ n ∧ Left (l.drop (m + 4)) n' := by
      rintro m _ n rfl room left plain
      have others : ∀ k < 4, (l.drop m)[k]? ≠ some 92 := by
        intro k hk
        have same := byte (m + k + 2)
        rw [List.getElem?_append_left (by simp only [List.length_cons]; omega)] at same
        simp only [List.getElem?_cons_succ] at same
        rw [List.getElem?_drop, same, show p + (m + k + 2) = p + 2 + m + k by omega]
        exact plain k hk
      obtain ⟨n', less, left⟩ := left_drop_plain left (by rw [List.length_drop]; omega) others
      rw [List.drop_drop] at left
      exact ⟨n', less, left⟩
    refine sound_bind (sound_parseHex4 (by omega)) fun firstCode first => ?_
    obtain ⟨small, plain⟩ := first
    have short : 4 ≤ l.length := by omega
    split
    · exact sound_refused
    · split
      · rename_i high
        obtain ⟨n₂, less₂, left₂⟩ := digits (m := 0) rfl (by omega) left₁
          (plain (by omega))
        dsimp only
        split
        · exact sound_refused
        · rename_i long'
          refine sound_bind (sound_byteAt (by omega)) fun c read => ?_
          split
          · exact sound_refused
          · rename_i slash
            refine sound_bind (sound_byteAt (by omega)) fun c' read' => ?_
            split
            · exact sound_refused
            · rename_i letter
              refine sound_bind (sound_parseHex4 (by omega)) fun secondCode second => ?_
              split
              · exact sound_refused
              · rename_i low
                refine sound_mono ?_ (sound_bind (sound_encodeUtf8 _)
                  fun output encoded => sound_done (P := fun result : Bytes × Nat =>
                    result.1.length ≤ 4 ∧ result.2 = 12) ⟨encoded.1, rfl⟩)
                rintro ⟨output, _⟩ ⟨bound, rfl⟩
                obtain ⟨n₃, less₃, left₃⟩ := left_drop left₂ 6
                  (by rw [List.length_drop]; omega)
                refine ⟨Nat.succ_pos 11, by simp only; omega, n₃, ?_, ?_⟩
                · simp only at bound ⊢
                  omega
                · rwa [List.drop_drop] at left₃
      · refine sound_mono ?_ (sound_bind (sound_encodeUtf8 _)
          fun output encoded => sound_done (P := fun result : Bytes × Nat =>
            (result.1.length ≤ 3 ∧ (firstCode = 0 → result.1.length = 1)) ∧ result.2 = 6)
              ⟨⟨encoded.2.1 small, encoded.2.2⟩, rfl⟩)
        rintro ⟨output, _⟩ ⟨⟨bound, zero⟩, rfl⟩
        by_cases none : firstCode = 0
        · obtain ⟨n₂, less₂, left₂⟩ := left_drop left₁ 4 short
          have one := zero none
          exact ⟨Nat.succ_pos 5, by simp only; omega, n₂, by simp only at one ⊢; omega, left₂⟩
        · obtain ⟨n₂, less₂, left₂⟩ := digits (m := 0) rfl (by omega) left₁ (plain none)
          exact ⟨Nat.succ_pos 5, by simp only; omega, n₂, by simp only at bound ⊢; omega, left₂⟩

theorem sound_put {room : Nat} {output new : Bytes} (fits : output.length + new.length ≤ room) :
    put room output new = .done (output ++ new) :=
  if_pos fits

/-- `n` bytes of the block are kept for what is left, and one for the terminator. -/
theorem sound_decodeLoop {e room fuel p n : Nat} {output l behind : Bytes}
    (start : content.drop p = l ++ 34 :: behind) (ends : e = p + l.length) (left : Left l n)
    (space : output.length + n + 1 ≤ room) (turns : l.length + 1 ≤ fuel) :
    Sound (fun output => output.length + 1 ≤ room) (decodeLoop content e room fuel p output) := by
  induction fuel generalizing p n output l with
  | zero => exact absurd turns (Nat.not_succ_le_zero _)
  | succ fuel ih =>
    rw [decodeLoop]
    cases l with
    | nil =>
      rw [if_pos (by simp [ends])]
      exact (show output.length + 1 ≤ room by omega)
    | cons c l =>
      rw [List.length_cons] at ends turns
      rw [if_neg (by omega)]
      rw [List.cons_append] at start
      rw [byteAt_eq (getElem?_of_drop start)]
      have behindC := drop_succ start
      dsimp only [done_bind]
      split
      · rename_i plain
        obtain ⟨n', less, left'⟩ := left_plain left plain
        rw [sound_put (by rw [List.length_singleton]; omega), done_bind]
        refine ih behindC (by omega) left' ?_ (by omega)
        rw [List.length_append, List.length_singleton]
        omega
      · rename_i slash
        obtain rfl := Classical.not_not.mp slash
        cases l with
        | nil =>
          -- a backslash in front of the quote, inside of an escape
          rw [byteAt_eq (getElem?_of_drop behindC), done_bind]
          have one : 1 ≤ n := by
            cases left with
            | aligned paired => cases paired with
              | plain _ escape => exact absurd rfl escape
            | inside rest => exact Nat.succ_pos _
          have quote : escapedByte 34 = some 34 := by decide
          simp only [quote]
          rw [sound_put (by rw [List.length_singleton]; omega), done_bind]
          cases fuel with
          | zero => exact absurd turns (by simp)
          | succ fuel =>
            rw [decodeLoop, if_pos (by simp only [List.length_nil] at ends; omega)]
            exact (show (output ++ [34]).length + 1 ≤ room by
              rw [List.length_append, List.length_singleton]; omega)
        | cons letter l =>
          rw [List.length_cons] at ends turns
          rw [List.cons_append] at behindC
          rw [byteAt_eq (getElem?_of_drop behindC), done_bind]
          cases escape : escapedByte letter with
          | some byte =>
            obtain ⟨n', less, left'⟩ := left_escape left
            dsimp only
            rw [sound_put (by rw [List.length_singleton]; omega), done_bind]
            refine ih (drop_succ behindC) (by omega) left' ?_ (by omega)
            rw [List.length_append, List.length_singleton]
            omega
          | none =>
            dsimp only
            split
            · rename_i u
              obtain rfl := u
              refine sound_bind (sound_utf16 (l := l) (34 :: behind) start (by omega) left)
                fun result coded => ?_
              obtain ⟨advance, inside, n', less, left'⟩ := coded
              rw [sound_put (by omega), done_bind]
              refine ih (l := (92 :: 117 :: l).drop result.2) ?_ ?_ left' ?_ ?_
              · rw [← List.drop_drop, start, ← List.cons_append,
                  List.drop_append_of_le_length (by simp only [List.length_cons]; omega)]
              · simp only [List.length_drop, List.length_cons]
                omega
              · rw [List.length_append]
                omega
              · simp only [List.length_drop, List.length_cons]
                omega
            · exact sound_refused

theorem cString_clean (block : Bytes) : (0 : UInt8) ∉ cString block := by
  intro mem
  simpa using List.mem_takeWhile_imp mem

theorem sound_parseString (terminated : Terminated content) {offset : Nat}
    (inside : offset < content.length) :
    Sound (fun result => offset < result.2 ∧ result.2 < content.length ∧ 0 ∉ result.1)
      (parseString content offset) := by
  rw [parseString]
  refine sound_bind (sound_byteAt inside) fun c read => ?_
  split
  · exact sound_refused
  · cases scan : scanString (content.drop (offset + 1)) (offset + 1) 0 with
    | none => exact sound_refused
    | some found =>
      obtain ⟨inputEnd, skippedBytes⟩ := found
      obtain ⟨l, n, behind, start, paired, ends, count⟩ := scanString_spec scan
      have quote : content[inputEnd]? = some 34 := by
        rw [ends, ← List.getElem?_drop, start,
          List.getElem?_append_right (Nat.le_refl _), Nat.sub_self, List.getElem?_cons_zero]
      have room := terminated.behind inputEnd 34 quote (by decide)
      dsimp only
      refine sound_bind (sound_decodeLoop start ends (.aligned paired) ?_ (by omega))
        fun output fits => ?_
      · rw [List.length_nil]
        omega
      · rw [sound_put (by rwa [List.length_singleton]), done_bind]
        exact ⟨by omega, room, cString_clean _⟩

end Escapes

end JsonBounds
