import Cfgd.CText

/-!
# Base64

`base64_encode` and `base64_decode` work on `char`, which is signed, and on lengths and
positions of type `int`. A computation in `int` that overflows has no result, and neither has
one that reads outside the text.
-/

namespace Base64

open CText

section Source

def base64char : Bytes :=
  ofChars "ABCDEFGHIJKLMNOPQRSTUVWXYZabcdefghijklmnopqrstuvwxyz0123456789+/".toList

def base64EncodeLen (binlength : Int) : Option Int :=
  let cntSymbolAdd := if 0 ≠ binlength.tmod 3 then 3 - binlength.tmod 3 else 0
  (checked (binlength + cntSymbolAdd)).bind fun sum => checked (sum.tdiv 3 * 4)

/-- The bits of a character under a mask after a shift; what the shift makes is a `char`. -/
def up (c n mask : Int8) : Int8 := c <<< n &&& mask

def down (c n mask : Int8) : Int8 := c >>> n &&& mask

/-- `base64char[(int)current]` -/
def symbol (current : Int8) : UInt8 := base64char.getD current.toInt.toNat 0

/-- The characters of three bytes, and of the one or two at the end. -/
def encodeLoop : List Int8 → Bytes
  | [] => []
  | [a] => [symbol (down a 2 0x3F), symbol (up a 4 0x30), 61, 61]
  | [a, b] =>
    [symbol (down a 2 0x3F), symbol (up a 4 0x30 ||| down b 4 0x0F), symbol (up b 2 0x3C), 61]
  | a :: b :: c :: rest =>
    symbol (down a 2 0x3F) :: symbol (up a 4 0x30 ||| down b 4 0x0F) ::
      symbol (up b 2 0x3C ||| down c 6 0x03) :: symbol (c &&& (0x3F : Int8)) :: encodeLoop rest

/-- What is written; nothing where NULL is returned. The position `j` of the last character
has to be an `int`. -/
def base64Encode (bindata : Bytes) (binlength : Int) : Option Bytes :=
  if binlength ≤ 0 then some []
  else
    let base64 := encodeLoop ((bindata.take binlength.toNat).map UInt8.toInt8)
    (checked base64.length).map fun _ => base64

def charAt (s : Bytes) (i : Int) : Option UInt8 := if 0 ≤ i then s[i.toNat]? else none

def base64DecodeLen (base64 : Bytes) (base64Len : Int) : Option Int :=
  if base64Len ≤ 0 then some (-1)
  else do
    let last ← charAt base64 (base64Len - 1)
    let before ← charAt base64 (base64Len - 2)
    let len := base64Len.tdiv 4 * 3
    let len := if 61 = last then len - 1 else len
    return if 61 = before then len - 1 else len

/-- The search for a character in `base64char`; 0xFF where it is none of them. -/
def lookup (c : UInt8) : Int8 :=
  (List.range 64).foldl (fun temp k => if base64char.getD k 0 = c then Int8.ofNat k else temp) (-1)

/-- The bytes of four characters, until one with a '=' in its place. -/
def decodeLoop : Bytes → Option (List Int8)
  | [] => some []
  | c0 :: c1 :: c2 :: c3 :: rest =>
    let first := up (lookup c0) 2 0xFC ||| down (lookup c1) 4 0x03
    let second := up (lookup c1) 4 0xF0 ||| down (lookup c2) 2 0x0F
    let third := up (lookup c2) 6 0xF0 ||| (lookup c3 &&& (0x3F : Int8))
    if c2 = 61 then some [first]
    else if c3 = 61 then some [first, second]
    else (decodeLoop rest).map fun later => first :: second :: third :: later
  | _ => none

/-- The result and what is written. -/
def base64Decode (base64 : Bytes) (base64Len : Int) : Option (Int × Bytes) :=
  if base64Len ≤ 0 then some (-1, [])
  else (decodeLoop (base64.take base64Len.toNat)).map fun bindata =>
    (bindata.length, bindata.map Int8.toUInt8)

end Source

section Bits

theorem or_and (x y z : Int8) : (x ||| y) &&& z = (x &&& z) ||| (y &&& z) := by
  apply Int8.toBitVec_inj.mp
  simp only [Int8.toBitVec_and, Int8.toBitVec_or, BitVec.and_or_distrib_right]

theorem up_or (x y n mask : Int8) : up (x ||| y) n mask = up x n mask ||| up y n mask := by
  rw [up, Int8.shiftLeft_or, or_and, up, up]

theorem down_or (x y n mask : Int8) : down (x ||| y) n mask = down x n mask ||| down y n mask := by
  rw [down, Int8.shiftRight_or, or_and, down, down]

/-- The parts of a byte in the characters, and what the decoder makes of them. -/
structure Parts (x : Int8) : Prop where
  first : up (down x 2 0x3F) 2 0xFC ||| down (up x 4 0x30) 4 0x03 = x
  firstGone : up (up x 4 0x30) 4 0xF0 = 0
  second : up (down x 4 0x0F) 4 0xF0 ||| down (up x 2 0x3C) 2 0x0F = x
  secondGone : down (down x 4 0x0F) 4 0x03 = 0 ∧ up (up x 2 0x3C) 6 0xF0 = 0
  third : up (down x 6 0x03) 6 0xF0 ||| (x &&& (0x3F : Int8) &&& (0x3F : Int8)) = x
  thirdGone : down (down x 6 0x03) 2 0x0F = 0
  sextets : down x 2 0x3F &&& (0x3F : Int8) = down x 2 0x3F ∧
    up x 4 0x30 &&& (0x3F : Int8) = up x 4 0x30 ∧ down x 4 0x0F &&& (0x3F : Int8) = down x 4 0x0F ∧
    up x 2 0x3C &&& (0x3F : Int8) = up x 2 0x3C ∧ down x 6 0x03 &&& (0x3F : Int8) = down x 6 0x03

instance (x : Int8) : Decidable (Parts x) :=
  decidable_of_iff (_ ∧ _ ∧ _ ∧ _ ∧ _ ∧ _ ∧ _)
    ⟨fun ⟨a, b, c, d, e, f, g⟩ => ⟨a, b, c, d, e, f, g⟩,
      fun ⟨a, b, c, d, e, f, g⟩ => ⟨a, b, c, d, e, f, g⟩⟩

theorem parts (x : Int8) : Parts x := by
  have table : ∀ k : Fin 256, Parts (UInt8.ofFin k).toInt8 := by decide +kernel
  exact table x.toUInt8.toFin

/-- The search finds the six bits of which a character was made, and never takes it for
the padding. -/
theorem lookup_symbol {x : Int8} (sextet : x &&& (0x3F : Int8) = x) :
    lookup (symbol x) = x ∧ symbol x ≠ 61 := by
  have table : ∀ k : Fin 256, let x := (UInt8.ofFin k).toInt8
      x &&& (0x3F : Int8) = x → lookup (symbol x) = x ∧ symbol x ≠ 61 := by decide +kernel
  exact table x.toUInt8.toFin sextet

end Bits

section Loops

/-- One character of the text, as the decoder sees it. -/
theorem lookup_or {x y : Int8} (hx : x &&& (0x3F : Int8) = x) (hy : y &&& (0x3F : Int8) = y) :
    lookup (symbol (x ||| y)) = x ||| y ∧ symbol (x ||| y) ≠ 61 := by
  apply lookup_symbol
  rw [or_and, hx, hy]

/-- The decoder undoes a whole group and goes on behind it. -/
theorem decodeLoop_group (a b c : Int8) (rest : Bytes) :
    decodeLoop (symbol (down a 2 0x3F) :: symbol (up a 4 0x30 ||| down b 4 0x0F) ::
      symbol (up b 2 0x3C ||| down c 6 0x03) :: symbol (c &&& (0x3F : Int8)) :: rest) =
      (decodeLoop rest).map fun later => a :: b :: c :: later := by
  have pa := parts a
  have pb := parts b
  have pc := parts c
  have low : c &&& (0x3F : Int8) &&& (0x3F : Int8) = c &&& (0x3F : Int8) := by
    rw [Int8.and_assoc, Int8.and_self]
  obtain ⟨t0, _⟩ := lookup_symbol pa.sextets.1
  obtain ⟨t1, _⟩ := lookup_or pa.sextets.2.1 pb.sextets.2.2.1
  obtain ⟨t2, some2⟩ := lookup_or pb.sextets.2.2.2.1 pc.sextets.2.2.2.2
  obtain ⟨t3, some3⟩ := lookup_symbol low
  rw [decodeLoop, if_neg some2, if_neg some3, t0, t1, t2, t3]
  simp only [up_or, down_or, pa.firstGone, pb.secondGone, pc.thirdGone, Int8.or_zero,
    Int8.zero_or, pa.first, pb.second, pc.third]

theorem decode_encode (s : List Int8) : decodeLoop (encodeLoop s) = some s := by
  fun_induction encodeLoop s with
  | case1 => rfl
  | case2 a =>
    have pa := parts a
    obtain ⟨t0, _⟩ := lookup_symbol pa.sextets.1
    obtain ⟨t1, _⟩ := lookup_symbol pa.sextets.2.1
    rw [decodeLoop, if_pos rfl, t0, t1, pa.first]
  | case3 a b =>
    have pa := parts a
    have pb := parts b
    obtain ⟨t0, _⟩ := lookup_symbol pa.sextets.1
    obtain ⟨t1, _⟩ := lookup_or pa.sextets.2.1 pb.sextets.2.2.1
    obtain ⟨t2, some2⟩ := lookup_symbol pb.sextets.2.2.2.1
    rw [decodeLoop, if_neg some2, if_pos rfl, t0, t1, t2]
    simp only [up_or, down_or, pa.firstGone, pb.secondGone, Int8.or_zero, Int8.zero_or,
      pa.first, pb.second]
  | case4 a b c rest ih => rw [decodeLoop_group, ih, Option.map_some]

theorem length_encodeLoop (s : List Int8) : (encodeLoop s).length = (s.length + 2) / 3 * 4 := by
  fun_induction encodeLoop s with
  | case1 => rfl
  | case2 a => simp
  | case3 a b => simp
  | case4 a b c rest ih =>
    simp only [List.length_cons, ih]
    omega

/-- The padding at the end of a text tells the length of the last group. -/
theorem ending {s : List Int8} (some : s ≠ []) : ∃ front before last,
    encodeLoop s = front ++ [before, last] ∧ (61 = last ↔ s.length % 3 ≠ 0) ∧
      (61 = before ↔ s.length % 3 = 1) := by
  fun_induction encodeLoop s with
  | case1 => exact absurd rfl some
  | case2 a => exact ⟨[_, _], 61, 61, rfl, by simp, by simp⟩
  | case3 a b =>
    have kept := (lookup_symbol (parts b).sextets.2.2.2.1).2
    exact ⟨[_, _], _, 61, rfl, by simp, iff_of_false (Ne.symm kept) (by simp)⟩
  | case4 a b c rest ih =>
    by_cases none : rest = []
    · subst none
      have low : c &&& (0x3F : Int8) &&& (0x3F : Int8) = c &&& (0x3F : Int8) := by
        rw [Int8.and_assoc, Int8.and_self]
      have kept := (lookup_or (parts b).sextets.2.2.2.1 (parts c).sextets.2.2.2.2).2
      have last := (lookup_symbol low).2
      exact ⟨[_, _], _, _, rfl, iff_of_false (Ne.symm last) (by simp),
        iff_of_false (Ne.symm kept) (by simp)⟩
    · obtain ⟨front, before, last, text, padded⟩ := ih none
      refine ⟨_ :: _ :: _ :: _ :: front, before, last, by rw [text]; rfl, ?_⟩
      simp only [List.length_cons, Nat.add_assoc, Nat.reduceAdd, Nat.add_mod_right]
      exact padded

end Loops

section Law

/-- The longest input of which the length of the text is an `int`. -/
def longest : Nat := 1610612733

/-- What the four functions make of a byte string. -/
def RoundTrips (b : Bytes) : Prop :=
  ∃ (text : Bytes) (length : Int), base64EncodeLen (intOfLong b.length) = some length ∧
    base64Encode b (intOfLong b.length) = some text ∧ text.length = length ∧
    base64DecodeLen text (intOfLong text.length) = some (b.length : Int) ∧
    base64Decode text (intOfLong text.length) = some ((b.length : Int), b)

theorem base64EncodeLen_eq {n : Nat} (h : n ≤ longest) :
    base64EncodeLen n = some (((n + 2) / 3 * 4 : Nat) : Int) := by
  have bound : longest = 1610612733 := rfl
  have rest : (n : Int).tmod 3 = ((n % 3 : Nat) : Int) := (Int.ofNat_tmod n 3).symm
  have rounded : (n : Int) + (if 0 ≠ (n : Int).tmod 3 then 3 - (n : Int).tmod 3 else 0) =
      (((n + 2) / 3 * 3 : Nat) : Int) := by
    rw [rest]
    split <;> omega
  have groups : ((((n + 2) / 3 * 3 : Nat) : Int).tdiv 3) = (((n + 2) / 3 : Nat) : Int) := by
    rw [Int.tdiv_eq_ediv_of_nonneg (by omega)]
    omega
  have first := checked_eq (n := (((n + 2) / 3 * 3 : Nat) : Int)) (by omega) (by omega)
  have second := checked_eq (n := (((n + 2) / 3 : Nat) : Int) * 4) (by omega) (by omega)
  rw [base64EncodeLen, rounded, first, Option.bind_some, groups, second]
  rfl

/-- Where the length of the text is an `int`, the input is not too long. -/
theorem le_longest {n : Nat} (small : n < 2 ^ 31) {length : Int}
    (h : base64EncodeLen n = some length) : n ≤ longest := by
  have bound : longest = 1610612733 := rfl
  have rest : (n : Int).tmod 3 = ((n % 3 : Nat) : Int) := (Int.ofNat_tmod n 3).symm
  obtain ⟨sum, rounded, product⟩ := Option.bind_eq_some_iff.mp h
  obtain ⟨same, _⟩ := checked_some rounded
  obtain ⟨_, fits⟩ := checked_some product
  rw [rest] at same
  have lower : (n : Int) ≤ sum := by
    rw [← same]
    split <;> omega
  rw [Int.tdiv_eq_ediv_of_nonneg (by omega)] at fits
  omega

theorem base64DecodeLen_encode {s : List Int8} (some : s ≠ []) :
    base64DecodeLen (encodeLoop s) ((encodeLoop s).length : Int) =
      Option.some (s.length : Int) := by
  obtain ⟨front, before, last, text, isLast, isBefore⟩ := ending some
  have length := length_encodeLoop s
  have positive := List.length_pos_iff.mpr some
  have split : (encodeLoop s).length = front.length + 2 := by
    rw [text, List.length_append]
    rfl
  have readLast : charAt (encodeLoop s) ((encodeLoop s).length - 1 : Int) = Option.some last := by
    rw [charAt, if_pos (by omega)]
    have index : ((encodeLoop s).length - 1 : Int).toNat = front.length + 1 := by omega
    rw [index, text]
    simp
  have readBefore : charAt (encodeLoop s) ((encodeLoop s).length - 2 : Int) =
      Option.some before := by
    rw [charAt, if_pos (by omega)]
    have index : ((encodeLoop s).length - 2 : Int).toNat = front.length := by omega
    rw [index, text]
    simp
  rw [base64DecodeLen, if_neg (by omega), readLast, readBefore]
  simp only [isLast, isBefore, Option.bind_eq_bind, Option.bind_some, Option.pure_def,
    Option.some.injEq]
  rw [Int.tdiv_eq_ediv_of_nonneg (by omega)]
  split <;> split <;> omega

/-- The length that the text tells is an `int`. -/
theorem base64DecodeLen_lt {text : Bytes} {n : Nat} {length : Int}
    (h : base64DecodeLen text (intOfLong n) = Option.some length) : length < 2 ^ 31 := by
  have upper := intOfLong_lt n
  rw [base64DecodeLen] at h
  split at h
  · rw [← Option.some.inj h]
    decide
  · rename_i positive
    obtain ⟨last, _, h⟩ := Option.bind_eq_some_iff.mp h
    obtain ⟨before, _, h⟩ := Option.bind_eq_some_iff.mp h
    have value := Option.some.inj h
    rw [Int.tdiv_eq_ediv_of_nonneg (by omega)] at value
    rw [← value]
    split <;> split <;> omega

/-- The four functions agree exactly on the inputs of which the text has a length that is an
`int`. -/
theorem base64_round_trip (b : Bytes) (some : b ≠ []) : RoundTrips b ↔ b.length ≤ longest := by
  have bound : longest = 1610612733 := rfl
  have positive := List.length_pos_iff.mpr some
  constructor
  · rintro ⟨text, length, encodeLen, _, _, decodeLen, _⟩
    have small : b.length < 2 ^ 31 := by
      have upper := base64DecodeLen_lt decodeLen
      omega
    rw [intOfLong_nat small] at encodeLen
    exact le_longest small encodeLen
  · intro short
    have inside := intOfLong_nat (n := b.length) (by omega)
    have signed : b.map UInt8.toInt8 ≠ [] := by simpa using some
    have text := length_encodeLoop (b.map UInt8.toInt8)
    rw [List.length_map] at text
    have outside := intOfLong_nat (n := (encodeLoop (b.map UInt8.toInt8)).length) (by omega)
    refine ⟨encodeLoop (b.map UInt8.toInt8), ((b.length + 2) / 3 * 4 : Nat), ?_, ?_, ?_, ?_, ?_⟩
    · rw [inside]
      exact base64EncodeLen_eq short
    · have fits := checked_eq (n := ((encodeLoop (b.map UInt8.toInt8)).length : Int)) (by omega)
        (by omega)
      rw [inside, base64Encode, if_neg (by omega), Int.toNat_natCast, List.take_length]
      exact congrArg (Option.map fun _ => encodeLoop (b.map UInt8.toInt8)) fits
    · rw [text]
    · rw [outside, base64DecodeLen_encode signed, List.length_map]
    · have back : b.map (Int8.toUInt8 ∘ UInt8.toInt8) = b := List.map_id b
      rw [outside, base64Decode, if_neg (by omega), Int.toNat_natCast, List.take_length,
        decode_encode, Option.map_some, List.length_map, List.map_map, back]

theorem base64_round_trip_abc : RoundTrips [97, 98, 99, 255] :=
  (base64_round_trip [97, 98, 99, 255] (List.cons_ne_nil _ _)).mpr (by decide)

/-- Of an input of one byte more than the longest the length of the text overflows. -/
theorem base64_overflow : ¬ RoundTrips (List.replicate 1610612734 0) := by
  rintro ⟨text, length, encodeLen, _⟩
  rw [List.length_replicate, intOfLong_nat (by decide)] at encodeLen
  exact absurd (le_longest (by decide) encodeLen) (by decide)

end Law

end Base64
