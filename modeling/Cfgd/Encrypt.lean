import Cfgd.CText
import Mathlib.Data.List.GetD

/-!
# Keyed text

`encrypt` doubles every byte with the bits of the key between its own, writes six bits a
character and pads with '~'; `decrypt` takes the characters apart again and compares the
bits of the key. Both compute their sizes in `int`.
-/

namespace Encrypt

open CText

section Source

def encodeTable : Bytes :=
  [0x32, 0x31, 0x30, 0x36, 0x46, 0x34, 0x35, 0x33, 0x45, 0x38, 0x37, 0x39, 0x43, 0x41, 0x42, 0x44,
    0x49, 0x48, 0x47, 0x4D, 0x56, 0x4B, 0x4C, 0x4A, 0x55, 0x4F, 0x4E, 0x50, 0x53, 0x51, 0x52, 0x54,
    0x59, 0x58, 0x57, 0x63, 0x6C, 0x61, 0x62, 0x5A, 0x6B, 0x65, 0x64, 0x66, 0x69, 0x67, 0x68, 0x6A,
    0x6F, 0x6E, 0x6D, 0x73, 0x28, 0x71, 0x72, 0x70, 0x27, 0x75, 0x74, 0x76, 0x79, 0x77, 0x78, 0x7A]

/-- The rows of the table for 32 to 127; all the others are -1. -/
def decodeRows : List Int :=
  [-1, -1, -1, -1, -1, -1, -1, 56, 52, -1, -1, -1, -1, -1, -1, -1,
    2, 1, 0, 7, 5, 6, 3, 10, 9, 11, -1, -1, -1, -1, -1, -1,
    -1, 13, 14, 12, 15, 8, 4, 18, 17, 16, 23, 21, 22, 19, 26, 25,
    27, 29, 30, 28, 31, 24, 20, 34, 33, 32, 39, -1, -1, -1, -1, -1,
    -1, 37, 38, 35, 42, 41, 43, 45, 46, 44, 47, 40, 36, 50, 49, 48,
    55, 53, 54, 51, 58, 57, 59, 61, 62, 60, 63, -1, -1, -1, -1, -1]

def decodeTable (c : UInt8) : Int :=
  if 32 ≤ c.toNat ∧ c.toNat < 128 then decodeRows.getD (c.toNat - 32) (-1) else -1

/-- What a call ends with: -1, or 0 and the output. A computation that overflows has no
outcome. -/
inductive Outcome
  | undefined
  | failed
  | output (bytes : Bytes)
  deriving DecidableEq

/-- The bits of one byte and of the byte of the key, in two bytes. -/
def firstCh (c k : UInt8) : UInt8 := (c &&& 0xAA) ||| (k &&& 0x55)

def secondCh (c k : UInt8) : UInt8 := (c &&& 0x55) ||| (k &&& 0xAA)

/-- `blend` from the byte `i` on. -/
def blend (key : Bytes) (keycb : Nat) : Nat → Bytes → Bytes
  | _, [] => []
  | i, c :: ori =>
    firstCh c (key.getD (i % keycb) 0) :: secondCh c (key.getD (i % keycb) 0) ::
      blend key keycb (i + 1) ori

/-- The four characters of three bytes. -/
def desTmp (a b c : UInt8) : Bytes :=
  [a >>> 2, ((a &&& 0x03) <<< 4) ||| (b >>> 4), ((b &&& 0x0F) <<< 2) ||| (c >>> 6), c &&& 0x3F].map
    fun v => encodeTable.getD v.toNat 0

/-- The loop over the pages of `src_buffer`. -/
def pages : Bytes → Bytes
  | a :: b :: c :: rest => desTmp a b c ++ pages rest
  | _ => []

/-- The bytes that `blend_len` lacks to a multiple of three. -/
def symbolAdd (blendLen : Int) : Int := if 0 = blendLen.tmod 3 then 0 else 3 - blendLen.tmod 3

/-- `encrypt`, given the lengths as the `int`s that the caller passes. -/
def encryptCb (ori : Bytes) (oricb : Int) (key : Bytes) (keycb : Int) : Outcome :=
  -- `blend_len` is computed before the arguments are looked at
  match checked (2 * oricb) with
  | none => .undefined
  | some blendLen =>
    if oricb ≤ 0 ∨ keycb < 8 then .failed
    else
      let add := symbolAdd blendLen
      match (checked (blendLen + add)).bind fun srcLen => checked (srcLen.tdiv 3 * 4) with
      | none => .undefined
      | some dstlen =>
        let src := blend key keycb.toNat 0 (ori.take oricb.toNat) ++ List.replicate add.toNat 0
        .output ((pages src).take (dstlen - add).toNat ++ List.replicate add.toNat 0x7E)

/-- The lookup of one character. The value is stored in an `unsigned char` before the test. -/
def lookup (c : UInt8) : Option UInt8 :=
  if c ≠ 0x7E then
    let value := UInt8.ofInt (decodeTable c)
    if -1 = (value.toNat : Int) then none else some value
  else some c

/-- The bytes of a page, and by how many `dstlen` is made less. What `des[2]` holds before
it is written is not known. -/
def des (stale s0 s1 s2 s3 : UInt8) : Bytes × Nat :=
  let des0 := (s0 <<< 2) ||| ((s1 &&& 0x30) >>> 4)
  let des1 := (s1 &&& 0x0F) <<< 4
  let (des1, des2, less) :=
    if 0x7E ≠ s2 then (des1 ||| ((s2 &&& 0x3C) >>> 2), s2 <<< 6, 0) else (des1, stale, 1)
  let (des2, less) := if 0x7E ≠ s3 then (des2 ||| s3, less) else (des2, less + 1)
  ([des0, des1, des2], less)

/-- The loop over the pages of `crypt` from page `i` on: `des_buffer` and by how much
`dstlen` is made less. -/
def desBuffer (stale : Nat → UInt8) : Nat → Bytes → Option (Bytes × Nat)
  | i, c0 :: c1 :: c2 :: c3 :: rest => do
    let s0 ← lookup c0
    let s1 ← lookup c1
    let s2 ← lookup c2
    let s3 ← lookup c3
    let (later, less) ← desBuffer stale (i + 1) rest
    let (page, here) := des (stale i) s0 s1 s2 s3
    return (page ++ later, here + less)
  | _, _ => some ([], 0)

def outCtr (a b : UInt8) : UInt8 := (a &&& 0xAA) ||| (b &&& 0x55)

def keyCtr (a b : UInt8) : UInt8 := (a &&& 0x55) ||| (b &&& 0xAA)

/-- The loop over the output from the byte `i` on. -/
def unblend (key : Bytes) (keycb : Nat) : Nat → Bytes → Option Bytes
  | i, a :: b :: rest =>
    if keyCtr a b ≠ key.getD (i % keycb) 0 then none
    else (unblend key keycb (i + 1) rest).map (outCtr a b :: ·)
  | _, _ => some []

/-- `decrypt`, given the lengths as the `int`s that the caller passes. A negative size cannot
be allocated. -/
def decryptCb (stale : Nat → UInt8) (crypt : Bytes) (oricb : Int) (key : Bytes) (keycb : Int) :
    Outcome :=
  let dstlen := oricb.tdiv 4 * 3
  if oricb = 0 ∨ oricb.tmod 4 ≠ 0 ∨ keycb < 8 then .failed
  else if dstlen < 0 then .failed
  else
    match desBuffer stale 0 (crypt.take oricb.toNat) with
    | none => .failed
    | some (buffer, less) =>
      if 0 ≠ (dstlen - less).tmod 2 then .failed
      else
        match unblend key keycb.toNat 0 (buffer.take (dstlen - less).toNat) with
        | none => .failed
        | some bytes => .output bytes

def encrypt (ori key : Bytes) : Outcome :=
  encryptCb ori (intOfLong ori.length) key (intOfLong key.length)

def decrypt (stale : Nat → UInt8) (crypt key : Bytes) : Outcome :=
  decryptCb stale crypt (intOfLong crypt.length) key (intOfLong key.length)

end Source

section Bits

theorem or_and (x y z : UInt8) : (x ||| y) &&& z = (x &&& z) ||| (y &&& z) := by
  apply UInt8.toBitVec_inj.mp
  simp only [UInt8.toBitVec_and, UInt8.toBitVec_or, BitVec.and_or_distrib_right]

/-- Every other bit of a byte. -/
theorem bits_apart (x : UInt8) : (x &&& 0xAA) &&& 0xAA = x &&& 0xAA ∧ (x &&& 0x55) &&& 0xAA = 0 ∧
    (x &&& 0x55) &&& 0x55 = x &&& 0x55 ∧ (x &&& 0xAA) &&& 0x55 = 0 ∧
    (x &&& 0xAA) ||| (x &&& 0x55) = x ∧ (x &&& 0x55) ||| (x &&& 0xAA) = x := by
  have table : ∀ k : Fin 256, let x := UInt8.ofFin k
      (x &&& 0xAA) &&& 0xAA = x &&& 0xAA ∧ (x &&& 0x55) &&& 0xAA = 0 ∧
      (x &&& 0x55) &&& 0x55 = x &&& 0x55 ∧ (x &&& 0xAA) &&& 0x55 = 0 ∧
      (x &&& 0xAA) ||| (x &&& 0x55) = x ∧ (x &&& 0x55) ||| (x &&& 0xAA) = x := by decide +kernel
  exact table x.toFin

/-- The byte and the byte of the key come out of their two bytes. -/
theorem ctr_ch (c k : UInt8) : outCtr (firstCh c k) (secondCh c k) = c ∧
    keyCtr (firstCh c k) (secondCh c k) = k := by
  obtain ⟨cAA, cGone, c55, cGone', cBoth, cBoth'⟩ := bits_apart c
  obtain ⟨kAA, kGone, k55, kGone', kBoth, kBoth'⟩ := bits_apart k
  constructor
  · rw [outCtr, firstCh, secondCh, or_and, or_and, cAA, kGone, c55, kGone', UInt8.or_zero,
      UInt8.or_zero, cBoth]
  · rw [keyCtr, firstCh, secondCh, or_and, or_and, cGone', k55, cGone, kAA, UInt8.zero_or,
      UInt8.zero_or, kBoth']

/-- A value of six bits. -/
def Sextet (v : UInt8) : Prop := v &&& 0x3F = v

instance (v : UInt8) : Decidable (Sextet v) := inferInstanceAs (Decidable (_ = _))

/-- The parts of a byte in the characters, and what `decrypt` makes of them. -/
structure Parts (x : UInt8) : Prop where
  first : ((x >>> 2) <<< 2) ||| ((((x &&& 0x03) <<< 4) &&& 0x30) >>> 4) = x
  firstGone : ((x &&& 0x03) <<< 4) &&& 0x0F = 0
  second : (((x >>> 4) &&& 0x0F) <<< 4) ||| ((((x &&& 0x0F) <<< 2) &&& 0x3C) >>> 2) = x
  secondGone : (x >>> 4) &&& 0x30 = 0 ∧ ((x &&& 0x0F) <<< 2) <<< 6 = 0
  third : ((x >>> 6) <<< 6) ||| (x &&& 0x3F) = x
  thirdGone : (x >>> 6) &&& 0x3C = 0
  sextets : Sextet (x >>> 2) ∧ Sextet ((x &&& 0x03) <<< 4) ∧ Sextet (x >>> 4) ∧
    Sextet ((x &&& 0x0F) <<< 2) ∧ Sextet (x >>> 6) ∧ Sextet (x &&& 0x3F)

instance (x : UInt8) : Decidable (Parts x) :=
  decidable_of_iff (_ ∧ _ ∧ _ ∧ _ ∧ _ ∧ _ ∧ _)
    ⟨fun ⟨a, b, c, d, e, f, g⟩ => ⟨a, b, c, d, e, f, g⟩,
      fun ⟨a, b, c, d, e, f, g⟩ => ⟨a, b, c, d, e, f, g⟩⟩

theorem parts (x : UInt8) : Parts x := by
  have table : ∀ k : Fin 256, Parts (UInt8.ofFin k) := by decide +kernel
  exact table x.toFin

/-- The two tables are mutually inverse, and no six bits are taken for the padding. -/
theorem lookup_encodeTable {v : UInt8} (sextet : Sextet v) :
    lookup (encodeTable.getD v.toNat 0) = some v ∧ 0x7E ≠ v := by
  have table : ∀ k : Fin 256, let v := UInt8.ofFin k
      Sextet v → lookup (encodeTable.getD v.toNat 0) = some v ∧ 0x7E ≠ v := by
    decide +kernel
  exact table v.toFin sextet

theorem Sextet.or {x y : UInt8} (hx : Sextet x) (hy : Sextet y) : Sextet (x ||| y) := by
  rw [Sextet, or_and, hx, hy]

end Bits

section Loops
variable (key key' : Bytes) (keycb : Nat)

theorem length_blend (i : Nat) (x : Bytes) : (blend key keycb i x).length = 2 * x.length := by
  induction x generalizing i with
  | nil => rfl
  | cons c x ih =>
    rw [blend, List.length_cons, List.length_cons, ih, List.length_cons]
    omega

/-- Under a key that agrees wherever it is used the bytes come back. -/
theorem unblend_blend (i : Nat) (x : Bytes)
    (agree : ∀ j < x.length, key'.getD ((i + j) % keycb) 0 = key.getD ((i + j) % keycb) 0) :
    unblend key' keycb i (blend key keycb i x) = some x := by
  induction x generalizing i with
  | nil => rfl
  | cons c x ih =>
    obtain ⟨out, keyed⟩ := ctr_ch c (key.getD (i % keycb) 0)
    have here : key'.getD (i % keycb) 0 = key.getD (i % keycb) 0 :=
      agree 0 (Nat.zero_lt_succ _)
    have later : ∀ j < x.length,
        key'.getD ((i + 1 + j) % keycb) 0 = key.getD ((i + 1 + j) % keycb) 0 := by
      intro j small
      have next := agree (j + 1) (Nat.succ_lt_succ small)
      rwa [Nat.add_comm j 1, ← Nat.add_assoc] at next
    rw [blend, unblend, keyed, if_neg (not_not.mpr here.symm), ih _ later, Option.map_some, out]

/-- A byte of the key that differs where it is used is noticed. -/
theorem unblend_none (i : Nat) (x : Bytes) {j : Nat} (small : j < x.length)
    (differ : key'.getD ((i + j) % keycb) 0 ≠ key.getD ((i + j) % keycb) 0) :
    unblend key' keycb i (blend key keycb i x) = none := by
  induction x generalizing i j with
  | nil => exact absurd small (Nat.not_lt_zero j)
  | cons c x ih =>
    obtain ⟨_, keyed⟩ := ctr_ch c (key.getD (i % keycb) 0)
    rw [blend, unblend, keyed]
    split
    · rfl
    · rename_i same
      have passed : j ≠ 0 := by
        rintro rfl
        exact differ (not_not.mp same).symm
      obtain ⟨j, rfl⟩ := Nat.exists_eq_succ_of_ne_zero passed
      have next : i + 1 + j = i + (j + 1) := by omega
      rw [ih (i + 1) (j := j) (Nat.lt_of_succ_lt_succ small) (next ▸ differ), Option.map_none]

end Loops

section Text

/-- The text of a byte string, with its padding. -/
def chars : Bytes → Bytes
  | [] => []
  | [a] => (desTmp a 0 0).take 2 ++ [0x7E, 0x7E]
  | [a, b] => (desTmp a b 0).take 3 ++ [0x7E]
  | a :: b :: c :: rest => desTmp a b c ++ chars rest

theorem length_chars (b : Bytes) : (chars b).length = (b.length + 2) / 3 * 4 := by
  fun_induction chars b with
  | case1 => rfl
  | case2 a => simp [desTmp]
  | case3 a b => simp [desTmp]
  | case4 a b c rest ih =>
    rw [List.length_append, ih]
    simp only [desTmp, List.map_cons, List.map_nil, List.length_cons, List.length_nil]
    omega

/-- What is written over the end of the pages makes the text of the bytes. -/
theorem pages_padded (b : Bytes) {add : Nat} (lack : add = (3 - b.length % 3) % 3) :
    (pages (b ++ List.replicate add 0)).take ((b.length + 2) / 3 * 4 - add) ++
      List.replicate add 0x7E = chars b := by
  fun_induction chars b with
  | case1 => subst lack; rfl
  | case2 a => simp [lack, pages, desTmp]
  | case3 a b => simp [lack, pages, desTmp]
  | case4 a b c rest ih =>
    simp only [List.length_cons] at lack ⊢
    have same : add = (3 - rest.length % 3) % 3 := by omega
    have four : (desTmp a b c).length = 4 := rfl
    have count : (rest.length + 1 + 1 + 1 + 2) / 3 * 4 - add =
        (desTmp a b c).length + ((rest.length + 2) / 3 * 4 - add) := by omega
    rw [← ih same, count, List.cons_append, List.cons_append, List.cons_append, pages,
      List.take_length_add_append, List.append_assoc]

/-- The bytes of a page come out of its characters, whatever the padding leaves over. -/
theorem desTmp_sextets (a b c : UInt8) : ∃ c0 c1 c2 c3 t0 t1 t2 t3,
    desTmp a b c = [c0, c1, c2, c3] ∧
      (lookup c0 = some t0 ∧ lookup c1 = some t1 ∧ lookup c2 = some t2 ∧ lookup c3 = some t3) ∧
      0x7E ≠ t2 ∧ 0x7E ≠ t3 ∧ (t0 <<< 2) ||| ((t1 &&& 0x30) >>> 4) = a ∧
      ((t1 &&& 0x0F) <<< 4) ||| ((t2 &&& 0x3C) >>> 2) = b ∧ (t2 <<< 6) ||| t3 = c := by
  have pa := parts a
  have pb := parts b
  have pc := parts c
  obtain ⟨a2, a4, _⟩ := pa.sextets
  obtain ⟨_, _, b4, b2, _⟩ := pb.sextets
  obtain ⟨_, _, _, _, c6, c0⟩ := pc.sextets
  obtain ⟨l0, _⟩ := lookup_encodeTable a2
  obtain ⟨l1, _⟩ := lookup_encodeTable (a4.or b4)
  obtain ⟨l2, some2⟩ := lookup_encodeTable (b2.or c6)
  obtain ⟨l3, some3⟩ := lookup_encodeTable c0
  refine ⟨_, _, _, _, _, _, _, _, rfl, ⟨l0, l1, l2, l3⟩, some2, some3, ?_, ?_, ?_⟩
  · rw [or_and, pb.secondGone.1, UInt8.or_zero, pa.first]
  · rw [or_and, pa.firstGone, UInt8.zero_or, or_and, pc.thirdGone, UInt8.or_zero, pb.second]
  · rw [UInt8.shiftLeft_or, pb.secondGone.2, UInt8.zero_or, pc.third]

/-- What `decrypt` makes of a text: the bytes, and behind them as many as the padding tells. -/
theorem desBuffer_chars (stale : Nat → UInt8) (i : Nat) (b : Bytes) : ∃ buffer,
    desBuffer stale i (chars b) = some (buffer, (3 - b.length % 3) % 3) ∧
      buffer.take b.length = b := by
  have pad : lookup 0x7E = some 0x7E := rfl
  fun_induction chars b generalizing i with
  | case1 => exact ⟨[], rfl, rfl⟩
  | case2 a =>
    obtain ⟨c0, c1, c2, c3, t0, t1, t2, t3, text, ⟨l0, l1, l2, l3⟩, some2, some3, first, second,
      third⟩ := desTmp_sextets a 0 0
    refine ⟨[a, (t1 &&& 0x0F) <<< 4, stale i], ?_, rfl⟩
    simp [text, desBuffer, l0, l1, pad, des, first]
  | case3 a b =>
    obtain ⟨c0, c1, c2, c3, t0, t1, t2, t3, text, ⟨l0, l1, l2, l3⟩, some2, some3, first, second,
      third⟩ := desTmp_sextets a b 0
    refine ⟨[a, b, t2 <<< 6], ?_, rfl⟩
    simp [text, desBuffer, l0, l1, l2, pad, des, first, second, some2]
  | case4 a b c rest ih =>
    obtain ⟨c0, c1, c2, c3, t0, t1, t2, t3, text, ⟨l0, l1, l2, l3⟩, some2, some3, first, second,
      third⟩ := desTmp_sextets a b c
    obtain ⟨buffer, later, front⟩ := ih (i + 1)
    refine ⟨a :: b :: c :: buffer, ?_, ?_⟩
    · have same : (3 - (a :: b :: c :: rest).length % 3) % 3 = (3 - rest.length % 3) % 3 := by
        simp only [List.length_cons]
        omega
      rw [same]
      simp [text, desBuffer, l0, l1, l2, l3, later, des, first, second, third, some2, some3]
    · rw [List.length_cons, List.length_cons, List.length_cons, List.take_succ_cons,
        List.take_succ_cons, List.take_succ_cons, front]

end Text

section Law
variable {x key key' crypt : Bytes} {m kc : Nat}

/-- The longest input of which the length of the text is an `int`. -/
def longest : Nat := 805306366

/-- The sizes that `encrypt` computes, as far as they are of type `int`. -/
theorem sizes_eq (short : m ≤ longest) : checked (2 * (m : Int)) = some (2 * m : Int) ∧
    symbolAdd (2 * m : Int) = (((3 - 2 * m % 3) % 3 : Nat) : Int) ∧
    (checked ((2 * m : Int) + (((3 - 2 * m % 3) % 3 : Nat) : Int))).bind
      (fun srcLen => checked (srcLen.tdiv 3 * 4)) =
      some (((2 * m + 2) / 3 * 4 : Nat) : Int) := by
  have bound : longest = 805306366 := rfl
  have rest : (2 * m : Int).tmod 3 = ((2 * m % 3 : Nat) : Int) := (Int.ofNat_tmod (2 * m) 3).symm
  have srcLen : (2 * m : Int) + (((3 - 2 * m % 3) % 3 : Nat) : Int) =
      (((2 * m + 2) / 3 * 3 : Nat) : Int) := by omega
  have groups : (((2 * m + 2) / 3 * 3 : Nat) : Int).tdiv 3 = (((2 * m + 2) / 3 : Nat) : Int) := by
    rw [Int.tdiv_eq_ediv_of_nonneg (by omega)]
    omega
  refine ⟨checked_eq (by omega) (by omega), ?_, ?_⟩
  · rw [symbolAdd, rest]
    split <;> omega
  · rw [srcLen, checked_eq (by omega) (by omega), Option.bind_some, groups,
      checked_eq (by omega) (by omega)]
    rfl

theorem encryptCb_eq (positive : 0 < m) (inside : m ≤ x.length) (short : m ≤ longest)
    (wide : 8 ≤ kc) :
    encryptCb x m key kc = .output (chars (blend key kc 0 (x.take m))) := by
  obtain ⟨first, lack, size⟩ := sizes_eq short
  have doubled : (blend key kc 0 (x.take m)).length = 2 * m := by
    rw [length_blend, List.length_take, Nat.min_eq_left inside]
  have padded := @pages_padded (blend key kc 0 (x.take m)) ((3 - 2 * m % 3) % 3) (by rw [doubled])
  rw [doubled] at padded
  have room : ((((2 * m + 2) / 3 * 4 : Nat) : Int) - (((3 - 2 * m % 3) % 3 : Nat) : Int)).toNat =
      (2 * m + 2) / 3 * 4 - (3 - 2 * m % 3) % 3 := by omega
  have valid : ¬ ((m : Int) ≤ 0 ∨ (kc : Int) < 8) := by omega
  rw [encryptCb, first]
  dsimp only
  rw [if_neg valid, lack, size]
  dsimp only
  rw [room, Int.toNat_natCast, Int.toNat_natCast, Int.toNat_natCast, padded]

/-- Where there is a text, its sizes are of type `int`. -/
theorem encryptCb_output {oricb keycb : Int} (h : encryptCb x oricb key keycb = .output crypt) :
    0 < oricb ∧ oricb ≤ longest ∧ 8 ≤ keycb := by
  have bound : longest = 805306366 := rfl
  rw [encryptCb] at h
  split at h
  · cases h
  · rename_i blendLen doubled
    split at h
    · cases h
    · rename_i valid
      dsimp only at h
      split at h
      · cases h
      · rename_i dstlen size
        obtain ⟨rfl, _⟩ := checked_some doubled
        obtain ⟨srcLen, sum, product⟩ := Option.bind_eq_some_iff.mp size
        obtain ⟨rfl, _⟩ := checked_some sum
        obtain ⟨_, fits⟩ := checked_some product
        have positive : 0 < oricb := by omega
        have rest : (2 * oricb).tmod 3 = 2 * oricb % 3 := Int.tmod_eq_emod_of_nonneg (by omega)
        rw [symbolAdd, rest] at fits
        have nonneg : 0 ≤ 2 * oricb + (if 0 = 2 * oricb % 3 then 0 else 3 - 2 * oricb % 3) := by
          split <;> omega
        rw [Int.tdiv_eq_ediv_of_nonneg nonneg] at fits
        refine ⟨positive, ?_, by omega⟩
        split at fits <;> omega

/-- A text that was written under one key, read under another. -/
theorem decrypt_chars (stale : Nat → UInt8) (positive : 0 < x.length) (short : x.length ≤ longest)
    (wide : 8 ≤ intOfLong key'.length) : decrypt stale (chars (blend key kc 0 x)) key' =
      match unblend key' (intOfLong key'.length).toNat 0 (blend key kc 0 x) with
      | none => .failed
      | some bytes => .output bytes := by
  have bound : longest = 805306366 := rfl
  have doubled := length_blend key kc 0 x
  have long := length_chars (blend key kc 0 x)
  obtain ⟨buffer, read, front⟩ := desBuffer_chars stale 0 (blend key kc 0 x)
  rw [doubled] at long read front
  have size : intOfLong (chars (blend key kc 0 x)).length =
      (((2 * x.length + 2) / 3 * 4 : Nat) : Int) := by
    rw [long]
    exact intOfLong_nat (by omega)
  have whole : (((2 * x.length + 2) / 3 * 4 : Nat) : Int).tmod 4 = 0 := by
    rw [Int.tmod_eq_emod_of_nonneg (by omega)]
    omega
  have groups : (((2 * x.length + 2) / 3 * 4 : Nat) : Int).tdiv 4 * 3 =
      (((2 * x.length + 2) / 3 * 3 : Nat) : Int) := by
    rw [Int.tdiv_eq_ediv_of_nonneg (by omega)]
    omega
  have left : (((2 * x.length + 2) / 3 * 3 : Nat) : Int) -
      (((3 - 2 * x.length % 3) % 3 : Nat) : Int) = ((2 * x.length : Nat) : Int) := by omega
  have even : ¬ 0 ≠ ((2 * x.length : Nat) : Int).tmod 2 := by
    rw [Int.tmod_eq_emod_of_nonneg (by omega)]
    omega
  rw [decrypt, decryptCb, size, whole, groups, if_neg (by omega), if_neg (by omega),
    Int.toNat_natCast, ← long, List.take_length, read]
  dsimp only
  rw [left, if_neg even, Int.toNat_natCast, front]

/-- What is promised of a byte string and a key: the text comes back under the key, and under
no key that differs where the bytes reach it. -/
def Keyed (x key : Bytes) : Prop :=
  ∃ crypt, encrypt x key = .output crypt ∧ (∀ stale, decrypt stale crypt key = .output x) ∧
    ∀ key' : Bytes, key'.length = key.length →
      (∃ i < x.length, key'.getD (i % key.length) 0 ≠ key.getD (i % key.length) 0) →
        ∀ stale, decrypt stale crypt key' = .failed

/-- The length of the key as an `int` is at least 8, and it is the length of the key or at
least that of the bytes. -/
def KeyFits (x key : Bytes) : Prop :=
  8 ≤ intOfLong key.length ∧
    (intOfLong key.length = key.length ∨ x.length ≤ intOfLong key.length)

theorem intOfLong_le (n : Nat) : intOfLong n ≤ n := by
  rw [intOfLong, BitVec.toInt_ofInt, Int.bmod]
  split <;> omega

theorem decrypt_same (stale : Nat → UInt8) (positive : 0 < x.length) (short : x.length ≤ longest)
    (wide : 8 ≤ intOfLong key'.length) (agree : ∀ j < x.length,
      key'.getD (j % (intOfLong key'.length).toNat) 0 =
        key.getD (j % (intOfLong key'.length).toNat) 0) :
    decrypt stale (chars (blend key (intOfLong key'.length).toNat 0 x)) key' = .output x := by
  rw [decrypt_chars stale positive short wide, unblend_blend]
  intro j inside
  rw [Nat.zero_add]
  exact agree j inside

theorem encrypt_eq (positive : 0 < x.length) (short : x.length ≤ longest)
    (wide : 8 ≤ intOfLong key.length) : encrypt x key =
      .output (chars (blend key (intOfLong key.length).toNat 0 x)) := by
  have bound : longest = 805306366 := rfl
  have written := @encryptCb_eq x key x.length (intOfLong key.length).toNat positive (le_refl _)
    short (by omega)
  rw [List.take_length, Int.toNat_of_nonneg (by omega)] at written
  rw [encrypt, intOfLong_nat (by omega), written]

theorem keyed_of_fits (positive : 0 < x.length) (short : x.length ≤ longest)
    (fits : KeyFits x key) : Keyed x key := by
  obtain ⟨wide, reach⟩ := fits
  refine ⟨_, encrypt_eq positive short wide, ?_, ?_⟩
  · exact fun stale => decrypt_same stale positive short wide fun j _ => rfl
  · rintro key' length ⟨i, inside, differ⟩ stale
    have wide' : 8 ≤ intOfLong key'.length := by rwa [length]
    have used : i % key.length = i % (intOfLong key.length).toNat := by
      have upper := intOfLong_le key.length
      rcases reach with whole | below
      · rw [whole, Int.toNat_natCast]
      · rw [Nat.mod_eq_of_lt (by omega), Nat.mod_eq_of_lt (by omega)]
    rw [decrypt_chars stale positive short wide', length,
      unblend_none key key' _ 0 x inside (by rwa [Nat.zero_add, ← used])]

/-- The text comes back exactly when its length is an `int` and the key fits. -/
theorem keyed_iff (positive : 0 < x.length) :
    Keyed x key ↔ x.length ≤ longest ∧ KeyFits x key := by
  constructor
  · rintro ⟨crypt, written, back, noticed⟩
    obtain ⟨some, fits, wide⟩ := encryptCb_output written
    have upper := intOfLong_le x.length
    have below := intOfLong_le key.length
    have text := @encryptCb_eq x key (intOfLong x.length).toNat (intOfLong key.length).toNat
      (by omega) (by omega) (by omega) (by omega)
    rw [Int.toNat_of_nonneg (by omega), Int.toNat_of_nonneg (by omega)] at text
    rw [encrypt, text, Outcome.output.injEq] at written
    have taken : (x.take (intOfLong x.length).toNat).length = (intOfLong x.length).toNat := by
      rw [List.length_take]
      omega
    have read := back fun _ => 0
    rw [← written, decrypt_same _ (by omega) (by omega) wide fun j _ => rfl,
      Outcome.output.injEq] at read
    have whole : x.length = (intOfLong x.length).toNat := by rw [← taken, read]
    rw [← whole, List.take_length] at written
    refine ⟨by omega, wide, ?_⟩
    by_contra beyond
    -- a key that differs only behind the bytes that are used is not noticed
    obtain ⟨kc, count⟩ : ∃ kc, kc = (intOfLong key.length).toNat := ⟨_, rfl⟩
    have far : kc < key.length := by omega
    obtain ⟨key', other⟩ : ∃ key', key' = key.set kc (~~~key.getD kc 0) := ⟨_, rfl⟩
    have length : key'.length = key.length := by rw [other, List.length_set]
    have differ : key'.getD kc 0 ≠ key.getD kc 0 := by
      rw [other, List.getD_eq_getElem?_getD, List.getElem?_set_self far, Option.getD_some]
      exact Ne.symm UInt8.ne_not_self
    have failed := noticed key' length
      ⟨kc, by omega, by rwa [Nat.mod_eq_of_lt far]⟩ fun _ => 0
    have agree : ∀ j < x.length, key'.getD (j % (intOfLong key'.length).toNat) 0 =
        key.getD (j % (intOfLong key'.length).toNat) 0 := by
      intro j _
      rw [length, ← count]
      have before : j % kc ≠ kc := (Nat.mod_lt j (by omega)).ne
      rw [other, List.getD_eq_getElem?_getD, List.getElem?_set_ne (Ne.symm before),
        List.getD_eq_getElem?_getD]
    have passed := decrypt_same (fun _ => 0) positive (by omega) (by rwa [length]) agree
    rw [length, written, failed] at passed
    cases passed
  · rintro ⟨short, fits⟩
    exact keyed_of_fits positive short fits

/-- The text comes back under its key, and under no key that differs where it is used,
exactly when its length is an `int` and the key fits. -/
theorem keyed_text (x key : Bytes) (some : x ≠ []) :
    Keyed x key ↔ x.length ≤ longest ∧ KeyFits x key :=
  keyed_iff (List.length_pos_iff.mpr some)

theorem keyed_text_bytes : Keyed [1, 2, 255] [1, 2, 3, 4, 5, 6, 7, 8] :=
  (keyed_text [1, 2, 255] [1, 2, 3, 4, 5, 6, 7, 8] (List.cons_ne_nil _ _)).mpr
    ⟨by decide, by decide, Or.inl (by decide)⟩

/-- Of 805306367 bytes the size of the text overflows. -/
theorem keyed_overflow : ¬ Keyed (List.replicate 805306367 0) [1, 2, 3, 4, 5, 6, 7, 8] := by
  have long : (List.replicate 805306367 (0 : UInt8)).length = 805306367 := List.length_replicate
  generalize List.replicate 805306367 (0 : UInt8) = x at long
  have bound : longest = 805306366 := rfl
  rw [keyed_iff (by omega)]
  omega

end Law

section Rejection

/-- The six bits for which a character stands: a padding stands for 62 and a byte outside the
alphabet for 63. -/
def sextet (c : UInt8) : UInt8 :=
  if c = 0x7E then 62 else if c ∈ encodeTable then (encodeTable.idxOf c).toUInt8 else 63

/-- The bits of the last character of a page; a byte outside the alphabet sets all eight. -/
def lastBits (c : UInt8) : UInt8 :=
  if c = 0x7E then 0 else if c ∈ encodeTable then sextet c else 255

/-- The bytes for which the characters of a page stand. -/
def page (stale c0 c1 c2 c3 : UInt8) : Bytes :=
  [(sextet c0 <<< 2) ||| (sextet c1 >>> 4),
    if c2 = 0x7E then sextet c1 <<< 4 else (sextet c1 <<< 4) ||| (sextet c2 >>> 2),
    (if c2 = 0x7E then stale else sextet c2 <<< 6) ||| lastBits c3]

/-- The bytes for which a text stands. -/
def carried (stale : Nat → UInt8) : Nat → Bytes → Bytes
  | i, c0 :: c1 :: c2 :: c3 :: rest => page (stale i) c0 c1 c2 c3 ++ carried stale (i + 1) rest
  | _, _ => []

/-- The paddings in the last two places of the pages. -/
def paddings : Bytes → Nat
  | _ :: _ :: c2 :: c3 :: rest => [c2, c3].count 0x7E + paddings rest
  | _ => 0

/-- A byte outside the alphabet, or a padding before the last two places. -/
def Misfit (crypt : Bytes) : Prop :=
  (∃ c ∈ crypt, c ∉ encodeTable ∧ c ≠ 0x7E) ∨ ∃ i, i + 2 < crypt.length ∧ crypt[i]? = some 0x7E

/-- Bit `b` of a byte. -/
def bitOf (x : UInt8) (b : Nat) : Bool := x.toBitVec.getLsbD b

/-- Bit `b` of the byte `r` of a page, as far as its characters tell. Behind a padding in the
third place the last byte of the page is what was in the memory. -/
def toldBit (c0 c1 c2 c3 : UInt8) (r b : Nat) : Option Bool :=
  if r = 0 then some (if 2 ≤ b then bitOf (sextet c0) (b - 2) else bitOf (sextet c1) (4 + b))
  else if r = 1 then
    some (if 4 ≤ b then bitOf (sextet c1) (b - 4) else c2 ≠ 0x7E && bitOf (sextet c2) (2 + b))
  else if c2 = 0x7E then if bitOf (lastBits c3) b then some true else none
  else some ((6 ≤ b && bitOf (sextet c2) (b - 6)) || bitOf (lastBits c3) b)

/-- Bit `b` of the byte `m` for which a text stands. -/
def told (text : Bytes) (m b : Nat) : Option Bool :=
  let place (p : Nat) : UInt8 := text.getD (m / 3 * 4 + p) 0
  toldBit (place 0) (place 1) (place 2) (place 3) (m % 3) b

/-- What a string is refused for: it has no whole pages or the key is too short, without the
paddings in the last two places of the pages an odd number of bytes is left, or one of them
tells another bit than the key. A byte in an even place has the even bits of a byte of the
key, and the byte behind it the odd bits. Of the lengths an `int` is seen. -/
def Refusable (crypt key : Bytes) : Prop :=
  let oricb := intOfLong crypt.length
  let keycb := intOfLong key.length
  let text := crypt.take oricb.toNat
  let left := oricb.toNat / 4 * 3 - paddings text
  oricb ≤ 0 ∨ oricb % 4 ≠ 0 ∨ keycb < 8 ∨ left % 2 ≠ 0 ∨
    ∃ m < left, ∃ b < 8, b % 2 = m % 2 ∧
      told text m b = some (!bitOf (key.getD (m / 2 % keycb.toNat) 0) b)

/-- No character is refused, and what comes out of its lookup. -/
theorem lookup_eq (c : UInt8) : ∃ v, lookup c = some v ∧
    (v <<< 2 = sextet c <<< 2 ∧ (v &&& 0x30) >>> 4 = sextet c >>> 4 ∧
      (v &&& 0x0F) <<< 4 = sextet c <<< 4) ∧
    if c = 0x7E then v = 0x7E
    else 0x7E ≠ v ∧ (v &&& 0x3C) >>> 2 = sextet c >>> 2 ∧ v <<< 6 = sextet c <<< 6 ∧
      v = lastBits c := by
  have table : ∀ k : Fin 256, let c := UInt8.ofFin k
      lookup c = some ((lookup c).getD 0) ∧ let v := (lookup c).getD 0
      (v <<< 2 = sextet c <<< 2 ∧ (v &&& 0x30) >>> 4 = sextet c >>> 4 ∧
        (v &&& 0x0F) <<< 4 = sextet c <<< 4) ∧
      if c = 0x7E then v = 0x7E
      else 0x7E ≠ v ∧ (v &&& 0x3C) >>> 2 = sextet c >>> 2 ∧ v <<< 6 = sextet c <<< 6 ∧
        v = lastBits c := by decide +kernel
  exact ⟨_, table c.toFin⟩

theorem des_eq (stale c0 c1 c2 c3 : UInt8) : ∃ v0 v1 v2 v3,
    (lookup c0 = some v0 ∧ lookup c1 = some v1 ∧ lookup c2 = some v2 ∧ lookup c3 = some v3) ∧
      des stale v0 v1 v2 v3 = (page stale c0 c1 c2 c3, [c2, c3].count 0x7E) := by
  obtain ⟨v0, l0, ⟨h0, _, _⟩, _⟩ := lookup_eq c0
  obtain ⟨v1, l1, ⟨_, high, low⟩, _⟩ := lookup_eq c1
  obtain ⟨v2, l2, _, place2⟩ := lookup_eq c2
  obtain ⟨v3, l3, _, place3⟩ := lookup_eq c3
  refine ⟨v0, v1, v2, v3, ⟨l0, l1, l2, l3⟩, ?_⟩
  by_cases pad2 : c2 = 0x7E
  · rw [if_pos pad2] at place2
    by_cases pad3 : c3 = 0x7E
    · rw [if_pos pad3] at place3
      simp [des, page, pad2, pad3, place2, place3, h0, high, low, lastBits]
    · rw [if_neg pad3] at place3
      obtain ⟨kept, _, _, rfl⟩ := place3
      simp [des, page, pad2, pad3, place2, kept, h0, high, low]
  · rw [if_neg pad2] at place2
    obtain ⟨kept2, high2, low2, _⟩ := place2
    by_cases pad3 : c3 = 0x7E
    · rw [if_pos pad3] at place3
      simp [des, page, pad2, pad3, place3, kept2, h0, high, low, high2, low2, lastBits]
    · rw [if_neg pad3] at place3
      obtain ⟨kept, _, _, rfl⟩ := place3
      simp [des, page, pad2, pad3, kept, kept2, h0, high, low, high2, low2]

theorem desBuffer_eq (stale : Nat → UInt8) (i : Nat) (text : Bytes) :
    desBuffer stale i text = some (carried stale i text, paddings text) := by
  fun_induction carried stale i text with
  | case1 i c0 c1 c2 c3 rest ih =>
    obtain ⟨v0, v1, v2, v3, ⟨l0, l1, l2, l3⟩, bytes⟩ := des_eq (stale i) c0 c1 c2 c3
    rw [desBuffer, l0, l1, l2, l3, ih]
    simp only [Option.bind_eq_bind, Option.bind_some, bytes, Option.pure_def, paddings]
  | case2 text i short =>
    match text, short with
    | [], _ | [_], _ | [_, _], _ | [_, _, _], _ => rfl
    | c0 :: c1 :: c2 :: c3 :: rest, short => exact absurd rfl (short c0 c1 c2 c3 rest)

/-- The output is refused for a byte of the key. -/
theorem unblend_eq_none_iff (key : Bytes) (keycb i : Nat) (bytes : Bytes) :
    unblend key keycb i bytes = none ↔ ∃ j a b, bytes[2 * j]? = some a ∧
      bytes[2 * j + 1]? = some b ∧
      (a &&& 0x55) ||| (b &&& 0xAA) ≠ key.getD ((i + j) % keycb) 0 := by
  fun_induction unblend key keycb i bytes with
  | case1 i a b rest differ => exact iff_of_true rfl ⟨0, a, b, rfl, rfl, differ⟩
  | case2 i a b rest same ih =>
    have later (j : Nat) : (a :: b :: rest)[2 * (j + 1)]? = rest[2 * j]? ∧
        (a :: b :: rest)[2 * (j + 1) + 1]? = rest[2 * j + 1]? := ⟨rfl, rfl⟩
    have count (j : Nat) : i + 1 + j = i + (j + 1) := by omega
    rw [Option.map_eq_none_iff, ih]
    constructor
    · rintro ⟨j, a', b', ha, hb, differ⟩
      exact ⟨j + 1, a', b', (later j).1.trans ha, (later j).2.trans hb, count j ▸ differ⟩
    · rintro ⟨j, a', b', ha, hb, differ⟩
      cases j with
      | zero =>
        obtain rfl := Option.some.inj ha
        obtain rfl := Option.some.inj hb
        exact absurd differ same
      | succ j =>
        exact ⟨j, a', b', (later j).1.symm.trans ha, (later j).2.symm.trans hb, count j ▸ differ⟩
  | case3 bytes i short =>
    refine iff_of_false (Option.some_ne_none _) ?_
    rintro ⟨j, a, b, ha, hb, _⟩
    match bytes, short with
    | [], _ => cases hb
    | [c], _ =>
      have beyond : [c].length ≤ 2 * j + 1 := by
        rw [List.length_singleton]
        omega
      rw [List.getElem?_eq_none beyond] at hb
      cases hb
    | c :: d :: rest, short => exact short c d rest rfl

theorem paddings_le (text : Bytes) : paddings text ≤ text.length / 4 * 2 := by
  fun_induction paddings text with
  | case1 c0 c1 c2 c3 rest ih =>
    have two : [c2, c3].count 0x7E ≤ 2 := List.count_le_length
    simp only [List.length_cons]
    omega
  | case2 text short => omega

/-- A text of whole pages under a key that is long enough. -/
theorem decryptCb_failed_iff (stale : Nat → UInt8) {crypt key : Bytes} {n kc : Nat} (some : 0 < n)
    (inside : n ≤ crypt.length) (whole : n % 4 = 0) (wide : 8 ≤ kc) :
    decryptCb stale crypt n key kc = .failed ↔
      (n / 4 * 3 - paddings (crypt.take n)) % 2 ≠ 0 ∨
        unblend key kc 0 ((carried stale 0 (crypt.take n)).take
          (n / 4 * 3 - paddings (crypt.take n))) = none := by
  have few := paddings_le (crypt.take n)
  rw [List.length_take, Nat.min_eq_left inside] at few
  have size : (n : Int).tdiv 4 * 3 - (paddings (crypt.take n) : Int) =
      ((n / 4 * 3 - paddings (crypt.take n) : Nat) : Int) := by
    rw [Int.tdiv_eq_ediv_of_nonneg (by omega)]
    omega
  have rest : (n : Int).tmod 4 = 0 := by
    rw [Int.tmod_eq_emod_of_nonneg (by omega)]
    omega
  have room : ¬ (n : Int).tdiv 4 * 3 < 0 := by omega
  rw [decryptCb, if_neg (by omega), if_neg room, Int.toNat_natCast, desBuffer_eq]
  dsimp only
  rw [size, Int.toNat_natCast, Int.toNat_natCast, Int.tmod_eq_emod_of_nonneg (by omega)]
  by_cases odd : (n / 4 * 3 - paddings (crypt.take n)) % 2 ≠ 0
  · rw [if_pos (by omega)]
    exact iff_of_true rfl (Or.inl odd)
  · rw [if_neg (by omega), or_iff_right odd]
    cases unblend key kc 0 ((carried stale 0 (crypt.take n)).take
      (n / 4 * 3 - paddings (crypt.take n))) with
    | none => exact iff_of_true rfl rfl
    | some bytes => exact iff_of_false (by simp) (Option.some_ne_none _)

theorem bitOf_or (x y : UInt8) (b : Nat) : bitOf (x ||| y) b = (bitOf x b || bitOf y b) := by
  rw [bitOf, UInt8.toBitVec_or, BitVec.getLsbD_or, bitOf, bitOf]

theorem bitOf_and (x y : UInt8) (b : Nat) : bitOf (x &&& y) b = (bitOf x b && bitOf y b) := by
  rw [bitOf, UInt8.toBitVec_and, BitVec.getLsbD_and, bitOf, bitOf]

theorem bitOf_shiftLeft (x k : UInt8) {b : Nat} (small : b < 8) :
    bitOf (x <<< k) b = (decide (k.toNat % 8 ≤ b) && bitOf x (b - k.toNat % 8)) := by
  have count : (k.toBitVec % 8).toNat = k.toNat % 8 := BitVec.toNat_umod
  rw [bitOf, UInt8.toBitVec_shiftLeft, BitVec.shiftLeft_eq', BitVec.getLsbD_shiftLeft, count,
    decide_eq_true small, Bool.true_and, ← decide_not, bitOf]
  simp only [Nat.not_lt]

theorem bitOf_shiftRight (x k : UInt8) (b : Nat) :
    bitOf (x >>> k) b = bitOf x (k.toNat % 8 + b) := by
  have count : (k.toBitVec % 8).toNat = k.toNat % 8 := BitVec.toNat_umod
  rw [bitOf, UInt8.toBitVec_shiftRight, BitVec.ushiftRight_eq', BitVec.getLsbD_ushiftRight, count,
    bitOf]

theorem eq_of_bits {x y : UInt8} (same : ∀ b < 8, bitOf x b = bitOf y b) : x = y :=
  UInt8.toBitVec_inj.mp (BitVec.eq_of_getLsbD_eq same)

/-- Six bits. -/
theorem bitOf_sextet_high (c : UInt8) {b : Nat} (high : 6 ≤ b) : bitOf (sextet c) b = false := by
  have table : ∀ k : Fin 256, Sextet (sextet (UInt8.ofFin k)) := by decide +kernel
  have six : Sextet (sextet c) := table c.toFin
  have gone : bitOf 0x3F b = false := by
    by_cases small : b < 8
    · obtain rfl | rfl : b = 6 ∨ b = 7 := by omega
      · rfl
      · rfl
    · exact BitVec.getLsbD_of_ge _ _ (Nat.not_lt.mp small)
  rw [← six, bitOf_and, gone, Bool.and_false]

/-- The bits of a page are those that its characters tell, and what was in the memory. -/
theorem bit_page (stale c0 c1 c2 c3 : UInt8) {r b : Nat} (byte : r < 3) (small : b < 8) :
    bitOf ((page stale c0 c1 c2 c3).getD r 0) b =
      (toldBit c0 c1 c2 c3 r b).getD (bitOf stale b) := by
  have two : (2 : UInt8).toNat % 8 = 2 := rfl
  have four : (4 : UInt8).toNat % 8 = 4 := rfl
  have six : (6 : UInt8).toNat % 8 = 6 := rfl
  obtain rfl | rfl | rfl : r = 0 ∨ r = 1 ∨ r = 2 := by omega
  · change bitOf ((sextet c0 <<< 2) ||| (sextet c1 >>> 4)) b = _
    rw [bitOf_or, bitOf_shiftLeft _ _ small, bitOf_shiftRight, two, four, toldBit, if_pos rfl,
      Option.getD_some]
    by_cases high : 2 ≤ b
    · simp [high, bitOf_sextet_high c1 (show 6 ≤ 4 + b by omega)]
    · simp [high]
  · change bitOf (if c2 = 0x7E then sextet c1 <<< 4 else (sextet c1 <<< 4) ||| (sextet c2 >>> 2))
      b = _
    rw [toldBit, if_neg Nat.one_ne_zero, if_pos rfl, Option.getD_some]
    by_cases pad : c2 = 0x7E
    · rw [if_pos pad, bitOf_shiftLeft _ _ small, four]
      by_cases high : 4 ≤ b <;> simp [high, pad]
    · rw [if_neg pad, bitOf_or, bitOf_shiftLeft _ _ small, bitOf_shiftRight, two, four]
      by_cases high : 4 ≤ b
      · simp [high, bitOf_sextet_high c2 (show 6 ≤ 2 + b by omega)]
      · simp [high, pad]
  · change bitOf ((if c2 = 0x7E then stale else sextet c2 <<< 6) ||| lastBits c3) b = _
    rw [toldBit, if_neg (Nat.succ_ne_zero 1), if_neg (Nat.succ_succ_ne_one 0), bitOf_or]
    by_cases pad : c2 = 0x7E
    · rw [if_pos pad, if_pos pad]
      cases bitOf (lastBits c3) b <;> simp
    · rw [if_neg pad, if_neg pad, bitOf_shiftLeft _ _ small, six, Option.getD_some]

/-- What is left of a text behind its whole pages. -/
theorem pages_of_short {text : Bytes}
    (short : ∀ c0 c1 c2 c3 rest, text = c0 :: c1 :: c2 :: c3 :: rest → False) :
    text.length / 4 * 3 = 0 := by
  match text, short with
  | [], _ | [_], _ | [_, _], _ | [_, _, _], _ => simp
  | c0 :: c1 :: c2 :: c3 :: rest, short => exact absurd rfl (short c0 c1 c2 c3 rest)

theorem length_carried (stale : Nat → UInt8) (i : Nat) (text : Bytes) :
    (carried stale i text).length = text.length / 4 * 3 := by
  fun_induction carried stale i text with
  | case1 i c0 c1 c2 c3 rest ih =>
    rw [List.length_append, ih]
    simp only [page, List.length_cons, List.length_nil]
    omega
  | case2 text i short => exact (pages_of_short short).symm

/-- The bits of the bytes for which a text stands. -/
theorem bit_carried (stale : Nat → UInt8) (i : Nat) (text : Bytes) {m b : Nat}
    (inside : m < text.length / 4 * 3) (small : b < 8) :
    bitOf ((carried stale i text).getD m 0) b =
      (told text m b).getD (bitOf (stale (i + m / 3)) b) := by
  fun_induction carried stale i text generalizing m with
  | case1 i c0 c1 c2 c3 rest ih =>
    have three : (page (stale i) c0 c1 c2 c3).length = 3 := rfl
    by_cases here : m < 3
    · rw [List.getD_append _ _ _ _ (by omega), bit_page _ _ _ _ _ here small, told,
        Nat.div_eq_of_lt here, Nat.mod_eq_of_lt here]
      rfl
    · obtain ⟨m, rfl⟩ := Nat.exists_eq_add_of_le (Nat.not_lt.mp here)
      simp only [List.length_cons] at inside
      have next : told (c0 :: c1 :: c2 :: c3 :: rest) (3 + m) b = told rest m b := by
        have shift (p : Nat) : (3 + m) / 3 * 4 + p = (m / 3 * 4 + p) + 4 := by omega
        simp only [told, shift, Nat.add_mod_left]
        rfl
      rw [List.getD_append_right _ _ _ _ (by omega), three, Nat.add_sub_cancel_left,
        ih (by omega), next, show i + 1 + m / 3 = i + (3 + m) / 3 by omega]
  | case2 text i short =>
    rw [pages_of_short short] at inside
    exact absurd inside (Nat.not_lt_zero m)

/-- Only the last byte of a page is not told. -/
theorem told_none {text : Bytes} {m b : Nat} (none : told text m b = none) :
    (m / 3 * 3 + 2) / 2 = m / 2 := by
  have last : m % 3 = 2 := by
    rw [told, toldBit] at none
    by_contra other
    split at none
    · cases none
    · rw [if_pos (by omega)] at none
      cases none
  omega

/-- The even bits of one byte and the odd bits of another. -/
theorem bit_keyCtr (x y : UInt8) {b : Nat} (small : b < 8) :
    bitOf ((x &&& 0x55) ||| (y &&& 0xAA)) b = if b % 2 = 0 then bitOf x b else bitOf y b := by
  have masks : ∀ b : Fin 8, bitOf 0x55 b = decide (b.val % 2 = 0) ∧
      bitOf 0xAA b = !decide (b.val % 2 = 0) := by decide
  obtain ⟨even, odd⟩ := masks ⟨b, small⟩
  rw [bitOf_or, bitOf_and, bitOf_and, even, odd]
  by_cases h : b % 2 = 0 <;> simp [h]

/-- A byte of the key is not the one of the bytes exactly where one of its bits is told
otherwise. -/
theorem unblend_none_iff_bit (key : Bytes) (keycb : Nat) {bytes : Bytes}
    (even : bytes.length % 2 = 0) : unblend key keycb 0 bytes = none ↔
      ∃ m < bytes.length, ∃ b < 8, b % 2 = m % 2 ∧
        bitOf (bytes.getD m 0) b ≠ bitOf (key.getD (m / 2 % keycb) 0) b := by
  rw [unblend_eq_none_iff]
  constructor
  · rintro ⟨j, x, y, hx, hy, differ⟩
    obtain ⟨insideX, rfl⟩ := List.getElem?_eq_some_iff.mp hx
    obtain ⟨insideY, rfl⟩ := List.getElem?_eq_some_iff.mp hy
    by_contra agree
    refine differ (eq_of_bits fun b small => ?_)
    have same : ∀ m < bytes.length, b % 2 = m % 2 →
        bitOf (bytes.getD m 0) b = bitOf (key.getD (m / 2 % keycb) 0) b := by
      intro m inside parity
      by_contra other
      exact agree ⟨m, inside, b, small, parity, other⟩
    rw [bit_keyCtr _ _ small, Nat.zero_add]
    split
    · have first := same (2 * j) insideX (by omega)
      rwa [List.getD_eq_getElem _ _ insideX, show 2 * j / 2 = j by omega] at first
    · have second := same (2 * j + 1) insideY (by omega)
      rwa [List.getD_eq_getElem _ _ insideY, show (2 * j + 1) / 2 = j by omega] at second
  · rintro ⟨m, inside, b, small, parity, differ⟩
    have first : 2 * (m / 2) < bytes.length := by omega
    have second : 2 * (m / 2) + 1 < bytes.length := by omega
    refine ⟨m / 2, _, _, List.getElem?_eq_getElem first, List.getElem?_eq_getElem second, ?_⟩
    intro same
    have bits : bitOf _ b = bitOf _ b := congrArg (fun x => bitOf x b) same
    rw [bit_keyCtr _ _ small, Nat.zero_add] at bits
    refine differ (Eq.trans ?_ bits)
    split
    · have place : 2 * (m / 2) = m := by omega
      simp only [List.getD_eq_getElem _ _ inside, place]
    · have place : 2 * (m / 2) + 1 = m := by omega
      simp only [List.getD_eq_getElem _ _ inside, place]

/-- A text of whole pages is refused, whatever was in the memory, for the parity or for a bit
that it tells. -/
theorem decryptCb_failed_always_iff {crypt key : Bytes} {n kc : Nat} (some_ : 0 < n)
    (inside : n ≤ crypt.length) (whole : n % 4 = 0) (wide : 8 ≤ kc) :
    (∀ stale, decryptCb stale crypt n key kc = .failed) ↔
      (n / 4 * 3 - paddings (crypt.take n)) % 2 ≠ 0 ∨
        ∃ m < n / 4 * 3 - paddings (crypt.take n), ∃ b < 8, b % 2 = m % 2 ∧
          told (crypt.take n) m b = some (!bitOf (key.getD (m / 2 % kc) 0) b) := by
  have size : (crypt.take n).length = n := by
    rw [List.length_take, Nat.min_eq_left inside]
  have length (stale : Nat → UInt8) :
      ((carried stale 0 (crypt.take n)).take (n / 4 * 3 - paddings (crypt.take n))).length =
        n / 4 * 3 - paddings (crypt.take n) := by
    rw [List.length_take, length_carried, size]
    omega
  -- the bits of a byte that is left
  have bit (stale : Nat → UInt8) {m b : Nat}
      (left : m < n / 4 * 3 - paddings (crypt.take n)) (small : b < 8) :
      bitOf (((carried stale 0 (crypt.take n)).take
        (n / 4 * 3 - paddings (crypt.take n))).getD m 0) b =
          (told (crypt.take n) m b).getD (bitOf (stale (m / 3)) b) := by
    rw [List.getD_eq_getElem?_getD, List.getElem?_take_of_lt left, ← List.getD_eq_getElem?_getD,
      bit_carried _ _ _ (by omega) small, Nat.zero_add]
  have failed stale := @decryptCb_failed_iff stale crypt key n kc some_ inside whole wide
  simp only [failed]
  by_cases odd : (n / 4 * 3 - paddings (crypt.take n)) % 2 = 0
  swap
  · exact iff_of_true (fun _ => Or.inl odd) (Or.inl odd)
  simp only [odd, ne_eq, not_true_eq_false, false_or]
  constructor
  · intro always
    -- what would be in the memory if it were that of the key
    obtain ⟨m, left, b, small, parity, differ⟩ := (unblend_none_iff_bit key kc
      (by rw [length, odd])).mp (always fun i => key.getD ((i * 3 + 2) / 2 % kc) 0)
    rw [length] at left
    rw [bit _ left small] at differ
    refine ⟨m, left, b, small, parity, ?_⟩
    cases tells : told (crypt.take n) m b with
    | none =>
      rw [tells, Option.getD_none, told_none tells] at differ
      exact absurd rfl differ
    | some v =>
      rw [tells, Option.getD_some] at differ
      rw [Bool.eq_not.mpr differ]
  · rintro ⟨m, left, b, small, parity, tells⟩ stale
    refine (unblend_none_iff_bit key kc (by rw [length, odd])).mpr
      ⟨m, by rwa [length], b, small, parity, ?_⟩
    rw [bit stale left small, tells, Option.getD_some]
    simp

/-- A misfit is refused exactly when it is refused for something else: the test of the
characters never refuses one. -/
theorem misfit_refused (crypt key : Bytes) :
    (Misfit crypt → 8 ≤ key.length → ∀ stale, decrypt stale crypt key = .failed) ↔
      (Misfit crypt → 8 ≤ key.length → Refusable crypt key) := by
  obtain ⟨oricb, same⟩ : ∃ oricb, oricb = intOfLong crypt.length := ⟨_, rfl⟩
  obtain ⟨keycb, sameKey⟩ : ∃ keycb, keycb = intOfLong key.length := ⟨_, rfl⟩
  have upper := intOfLong_le crypt.length
  refine imp_congr_right fun _ => imp_congr_right fun _ => ?_
  simp only [decrypt]
  rw [Refusable, ← same, ← sameKey]
  by_cases whole : 0 < oricb ∧ oricb % 4 = 0 ∧ 8 ≤ keycb
  · obtain ⟨positive, pages, wide⟩ := whole
    obtain ⟨n, rfl⟩ := Int.eq_ofNat_of_zero_le (show 0 ≤ oricb by omega)
    obtain ⟨kc, rfl⟩ := Int.eq_ofNat_of_zero_le (show 0 ≤ keycb by omega)
    rw [decryptCb_failed_always_iff (by omega) (by omega) (by omega) (by omega)]
    simp only [Int.toNat_natCast]
    constructor
    · exact fun h => Or.inr (Or.inr (Or.inr h))
    · rintro (none | part | short | h)
      · omega
      · omega
      · omega
      · exact h
  · refine iff_of_true (fun stale => ?_) (by omega)
    rw [decryptCb]
    by_cases first : oricb = 0 ∨ oricb.tmod 4 ≠ 0 ∨ keycb < 8
    · rw [if_pos first]
    · have pages : oricb.tmod 4 = 0 := by omega
      have negative : oricb < 0 := by
        by_contra nonneg
        rw [Int.tmod_eq_emod_of_nonneg (by omega)] at pages
        omega
      have product := Int.tmod_add_mul_tdiv oricb 4
      rw [if_neg first, if_pos (by omega)]

/-- "!!!!!!!!" and "~~~~~~~~" are read as three bytes and as one. -/
theorem misfit_accepted :
    (Misfit (List.replicate 8 0x21) ∧ decrypt (fun _ => 0) (List.replicate 8 0x21)
      (List.replicate 8 0xFF) = .output [0xFF, 0xFF, 0xFF]) ∧
    (Misfit (List.replicate 8 0x7E) ∧ decrypt (fun _ => 0) (List.replicate 8 0x7E)
      (List.replicate 8 0xF1) = .output [0xEA]) := by
  refine ⟨⟨Or.inl ⟨0x21, by decide, by decide, by decide⟩, by decide +kernel⟩,
    Or.inr ⟨0, by decide, by decide⟩, by decide +kernel⟩

end Rejection

end Encrypt
