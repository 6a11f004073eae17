import Mathlib.Algebra.GroupWithZero.Nat
import Mathlib.Data.Fin.Basic
import Mathlib.Tactic.FinCases
import Cfgd.CText
import Cfgd.Feistel

/-!
# DES

`des_encrypt` and `des_decrypt` work block by block on arrays of bits, each of which the
source keeps in a `char` that is 0 or 1. The sixteen rounds are a Feistel network between the
initial permutation and its inverse.
-/

namespace Des

open CText

section Tables

def desIpTable : List Nat :=
  [58, 50, 42, 34, 26, 18, 10, 2, 60, 52, 44, 36, 28, 20, 12, 4,
    62, 54, 46, 38, 30, 22, 14, 6, 64, 56, 48, 40, 32, 24, 16, 8,
    57, 49, 41, 33, 25, 17, 9, 1, 59, 51, 43, 35, 27, 19, 11, 3,
    61, 53, 45, 37, 29, 21, 13, 5, 63, 55, 47, 39, 31, 23, 15, 7]

def desIp1Table : List Nat :=
  [40, 8, 48, 16, 56, 24, 64, 32, 39, 7, 47, 15, 55, 23, 63, 31,
    38, 6, 46, 14, 54, 22, 62, 30, 37, 5, 45, 13, 53, 21, 61, 29,
    36, 4, 44, 12, 52, 20, 60, 28, 35, 3, 43, 11, 51, 19, 59, 27,
    34, 2, 42, 10, 50, 18, 58, 26, 33, 1, 41, 9, 49, 17, 57, 25]

def desETable : List Nat :=
  [32, 1, 2, 3, 4, 5, 4, 5, 6, 7, 8, 9,
    8, 9, 10, 11, 12, 13, 12, 13, 14, 15, 16, 17,
    16, 17, 18, 19, 20, 21, 20, 21, 22, 23, 24, 25,
    24, 25, 26, 27, 28, 29, 28, 29, 30, 31, 32, 1]

def desPTable : List Nat :=
  [16, 7, 20, 21, 29, 12, 28, 17, 1, 15, 23, 26, 5, 18, 31, 10,
    2, 8, 24, 14, 32, 27, 3, 9, 19, 13, 30, 6, 22, 11, 4, 25]

def desPc1 : List Nat :=
  [57, 49, 41, 33, 25, 17, 9, 1, 58, 50, 42, 34, 26, 18,
    10, 2, 59, 51, 43, 35, 27, 19, 11, 3, 60, 52, 44, 36,
    63, 55, 47, 39, 31, 23, 15, 7, 62, 54, 46, 38, 30, 22,
    14, 6, 61, 53, 45, 37, 29, 21, 13, 5, 28, 20, 12, 4]

def desPc2 : List Nat :=
  [14, 17, 11, 24, 1, 5, 3, 28, 15, 6, 21, 10,
    23, 19, 12, 4, 26, 8, 16, 7, 27, 20, 13, 2,
    41, 52, 31, 37, 47, 55, 30, 40, 51, 45, 33, 48,
    44, 49, 39, 56, 34, 53, 46, 42, 50, 36, 29, 32]

def desMoveTimes : List Nat :=
  [1, 1, 2, 2, 2, 2, 2, 2, 1, 2, 2, 2, 2, 2, 2, 1]

def desS : List (List (List Nat)) :=
  [[[14, 4, 13, 1, 2, 15, 11, 8, 3, 10, 6, 12, 5, 9, 0, 7],
    [0, 15, 7, 4, 14, 2, 13, 1, 10, 6, 12, 11, 9, 5, 3, 8],
    [4, 1, 14, 8, 13, 6, 2, 11, 15, 12, 9, 7, 3, 10, 5, 0],
    [15, 12, 8, 2, 4, 9, 1, 7, 5, 11, 3, 14, 10, 0, 6, 13]],
   [[15, 1, 8, 14, 6, 11, 3, 4, 9, 7, 2, 13, 12, 0, 5, 10],
    [3, 13, 4, 7, 15, 2, 8, 14, 12, 0, 1, 10, 6, 9, 11, 5],
    [0, 14, 7, 11, 10, 4, 13, 1, 5, 8, 12, 6, 9, 3, 2, 15],
    [13, 8, 10, 1, 3, 15, 4, 2, 11, 6, 7, 12, 0, 5, 14, 9]],
   [[10, 0, 9, 14, 6, 3, 15, 5, 1, 13, 12, 7, 11, 4, 2, 8],
    [13, 7, 0, 9, 3, 4, 6, 10, 2, 8, 5, 14, 12, 11, 15, 1],
    [13, 6, 4, 9, 8, 15, 3, 0, 11, 1, 2, 12, 5, 10, 14, 7],
    [1, 10, 13, 0, 6, 9, 8, 7, 4, 15, 14, 3, 11, 5, 2, 12]],
   [[7, 13, 14, 3, 0, 6, 9, 10, 1, 2, 8, 5, 11, 12, 4, 15],
    [13, 8, 11, 5, 6, 15, 0, 3, 4, 7, 2, 12, 1, 10, 14, 9],
    [10, 6, 9, 0, 12, 11, 7, 13, 15, 1, 3, 14, 5, 2, 8, 4],
    [3, 15, 0, 6, 10, 1, 13, 8, 9, 4, 5, 11, 12, 7, 2, 14]],
   [[2, 12, 4, 1, 7, 10, 11, 6, 8, 5, 3, 15, 13, 0, 14, 9],
    [14, 11, 2, 12, 4, 7, 13, 1, 5, 0, 15, 10, 3, 9, 8, 6],
    [4, 2, 1, 11, 10, 13, 7, 8, 15, 9, 12, 5, 6, 3, 0, 14],
    [11, 8, 12, 7, 1, 14, 2, 13, 6, 15, 0, 9, 10, 4, 5, 3]],
   [[12, 1, 10, 15, 9, 2, 6, 8, 0, 13, 3, 4, 14, 7, 5, 11],
    [10, 15, 4, 2, 7, 12, 9, 5, 6, 1, 13, 14, 0, 11, 3, 8],
    [9, 14, 15, 5, 2, 8, 12, 3, 7, 0, 4, 10, 1, 13, 11, 6],
    [4, 3, 2, 12, 9, 5, 15, 10, 11, 14, 1, 7, 6, 0, 8, 13]],
   [[4, 11, 2, 14, 15, 0, 8, 13, 3, 12, 9, 7, 5, 10, 6, 1],
    [13, 0, 11, 7, 4, 9, 1, 10, 14, 3, 5, 12, 2, 15, 8, 6],
    [1, 4, 11, 13, 12, 3, 7, 14, 10, 15, 6, 8, 0, 5, 9, 2],
    [6, 11, 13, 8, 1, 4, 10, 7, 9, 5, 0, 15, 14, 2, 3, 12]],
   [[13, 2, 8, 4, 6, 15, 11, 1, 10, 9, 3, 14, 5, 0, 12, 7],
    [1, 15, 13, 8, 10, 3, 7, 4, 12, 5, 6, 11, 0, 14, 9, 2],
    [7, 11, 4, 1, 9, 12, 14, 2, 0, 6, 10, 13, 15, 3, 5, 8],
    [2, 1, 14, 7, 4, 10, 8, 13, 15, 12, 9, 0, 3, 5, 6, 11]]]

end Tables

section Source

abbrev Bits (n : Nat) := Fin n → Bool

/-- `out[cnt] = data[table[cnt] - 1]`, the body of all the transforms. -/
def transform {n m : Nat} [NeZero n] (table : List Nat) (data : Bits n) : Bits m :=
  fun cnt => data (Fin.ofNat n (table.getD cnt 0 - 1))

def byteToBit (ch : UInt8) (cnt : Nat) : Bool := ch.toNat.testBit cnt

/-- `*ch |= bit[cnt] << cnt` for each of eight bits, from 0. -/
def bitToByte (bit : Nat → Bool) : UInt8 :=
  (List.range 8).foldl (fun ch cnt => ch ||| (bit cnt).toNat.toUInt8 <<< cnt.toUInt8) 0

def char8ToBit64 (ch : Bytes) : Bits 64 := fun k => byteToBit (ch.getD (k / 8) 0) (k % 8)

def bit64ToChar8 (bit : Bits 64) : Bytes :=
  (List.range 8).map fun i => bitToByte fun cnt => bit (Fin.ofNat 64 (8 * i + cnt))

def desPc1Transform : Bits 64 → Bits 56 := transform desPc1

/-- Both halves of 28 bits to the left, the first bits of each to its end. -/
def desRol (data : Bits 56) (time : Nat) : Bits 56 := fun i =>
  if i.val < 28 then
    if i.val + time < 28 then data (Fin.ofNat 56 (i + time))
    else data (Fin.ofNat 56 (i + time - 28))
  else
    if i.val + time < 56 then data (Fin.ofNat 56 (i + time))
    else data (Fin.ofNat 56 (i + time - 28))

def desPc2Transform : Bits 56 → Bits 48 := transform desPc2

/-- The loop of `DES_MakeSubKeys` over the shifts that are left. -/
def subKeysFrom : List Nat → Bits 56 → List (Bits 48)
  | [], _ => []
  | time :: times, temp =>
    desPc2Transform (desRol temp time) :: subKeysFrom times (desRol temp time)

def desMakeSubKeys (key : Bits 64) : List (Bits 48) :=
  subKeysFrom desMoveTimes (desPc1Transform key)

def desIpTransform : Bits 64 → Bits 64 := transform desIpTable

def desIp1Transform : Bits 64 → Bits 64 := transform desIp1Table

def desETransform : Bits 32 → Bits 48 := transform desETable

/-- Only the first 32 of the 48 bits are left of interest. -/
def desPTransform : Bits 48 → Bits 32 := transform desPTable

def desXor {n : Nat} (r l : Bits n) : Bits n := fun cnt => r cnt ^^ l cnt

/-- One box of `DES_SBOX`: six bits are read from `6 * cnt` on and four are written from
`4 * cnt` on, in the same array. -/
def desBox (data : Bits 48) (cnt : Fin 8) : Bits 48 :=
  let bit (k : Nat) : Nat := (data (Fin.ofNat 48 (cnt * 6 + k))).toNat
  let line := bit 0 <<< 1 + bit 5
  let row := bit 1 <<< 3 + bit 2 <<< 2 + bit 3 <<< 1 + bit 4
  let output := ((desS.getD cnt []).getD line []).getD row 0
  fun i => if cnt.val * 4 ≤ i.val ∧ i.val < cnt.val * 4 + 4 then
    output.testBit (3 - (i.val - cnt.val * 4)) else data i

def desSbox (data : Bits 48) : Bits 48 := (List.finRange 8).foldl desBox data

/-- What the left half is mixed with in a round. -/
def roundOf (subKeys : List (Bits 48)) (cnt : Nat) (right : Bits 32) : Bits 32 :=
  desPTransform (desSbox (desXor (desETransform right) (subKeys.getD cnt fun _ => false)))

/-- The two halves of 64 bits. -/
def halves (bits : Bits 64) : Bits 32 × Bits 32 :=
  (fun i => bits ⟨i, by omega⟩, fun i => bits ⟨i + 32, by omega⟩)

def joined (block : Bits 32 × Bits 32) : Bits 64 := fun k =>
  if h : k.val < 32 then block.1 ⟨k, h⟩ else block.2 ⟨k - 32, by omega⟩

/-- `__des_encryptBlock`: the rounds in order, no swap after round 15. -/
def encryptBlock (subKeys : List (Bits 48)) (plainBlock : Bytes) : Bytes :=
  let plainBits := desIpTransform (char8ToBit64 plainBlock)
  let rounds := Feistel.rounds desXor (roundOf subKeys) 15 (List.range 16) (halves plainBits)
  bit64ToChar8 (desIp1Transform (joined rounds))

/-- `__des_decryptBlock`: the rounds from 15 down, no swap after round 0. -/
def decryptBlock (subKeys : List (Bits 48)) (cipherBlock : Bytes) : Bytes :=
  let cipherBits := desIpTransform (char8ToBit64 cipherBlock)
  let rounds :=
    Feistel.rounds desXor (roundOf subKeys) 0 (List.range 16).reverse (halves cipherBits)
  bit64ToChar8 (desIp1Transform (joined rounds))

/-- A key of eight bytes. -/
structure Key where
  cst : Bytes
  length_eq : cst.length = 8

def defaultDesKey : Bytes := ofChars "3uB#*tTy".toList

def keyBlock : Option Key → Bytes
  | none => defaultDesKey
  | some key => key.cst

/-- The loop `while (length >= 8)`, which is taken once for each of `n` blocks. -/
def overBlocks (block : Bytes → Bytes) : Nat → Bytes → Bytes
  | 0, _ => []
  | n + 1, input => block (input.take 8) ++ overBlocks block n (input.drop 8)

/-- What `des_encrypt` and `des_decrypt` share: the checks, the sub keys, the loop and the
`int` that is returned. -/
def desRun (block : List (Bits 48) → Bytes → Bytes) (input : Bytes) (key : Option Key) :
    Int × Bytes :=
  if 0 = input.length ∨ 0 ≠ input.length % 8 then (-22, [])
  else
    let subKeys := desMakeSubKeys (char8ToBit64 (keyBlock key))
    (intOfLong (input.length - input.length % 8 : Nat),
      overBlocks (block subKeys) (input.length / 8) input)

def desEncrypt : Bytes → Option Key → Int × Bytes := desRun encryptBlock

def desDecrypt : Bytes → Option Key → Int × Bytes := desRun decryptBlock

end Source

section Bits

theorem ip1_ip (data : Bits 64) : desIp1Transform (desIpTransform data) = data := by
  have table : ∀ cnt : Fin 64, Fin.ofNat 64 (desIpTable.getD
      (Fin.ofNat 64 (desIp1Table.getD cnt 0 - 1)) 0 - 1) = cnt := by decide
  funext cnt
  exact congrArg data (table cnt)

theorem ip_ip1 (data : Bits 64) : desIpTransform (desIp1Transform data) = data := by
  have table : ∀ cnt : Fin 64, Fin.ofNat 64 (desIp1Table.getD
      (Fin.ofNat 64 (desIpTable.getD cnt 0 - 1)) 0 - 1) = cnt := by decide
  funext cnt
  exact congrArg data (table cnt)

theorem desXor_cancel {n : Nat} (r l : Bits n) : desXor (desXor r l) l = r := by
  funext cnt
  rw [desXor, desXor, Bool.xor_assoc, Bool.xor_self, Bool.xor_false]

theorem halves_joined (block : Bits 32 × Bits 32) : halves (joined block) = block := by
  refine Prod.ext ?_ ?_
  · funext i
    exact dif_pos i.isLt
  · funext i
    have above : ¬ i.val + 32 < 32 := by omega
    simp only [halves, joined, above, dite_false, Nat.add_sub_cancel]

theorem joined_halves (bits : Bits 64) : joined (halves bits) = bits := by
  funext k
  rw [joined]
  split
  · rfl
  · rename_i above
    have index : k.val - 32 + 32 = k.val := by omega
    simp only [halves, index]

/-- A byte is put together again from its bits. -/
theorem bitToByte_byteToBit (ch : UInt8) : bitToByte (byteToBit ch) = ch := by
  have table : ∀ k : Fin 256, bitToByte (byteToBit (UInt8.ofFin k)) = UInt8.ofFin k := by
    decide +kernel
  exact table ch.toFin

theorem byteToBit_bitToByte (bit : Nat → Bool) {cnt : Nat} (h : cnt < 8) :
    byteToBit (bitToByte bit) cnt = bit cnt := by
  have table : ∀ b0 b1 b2 b3 b4 b5 b6 b7 : Bool, ∀ cnt : Fin 8,
      byteToBit (bitToByte fun k => [b0, b1, b2, b3, b4, b5, b6, b7].getD k false) cnt =
        [b0, b1, b2, b3, b4, b5, b6, b7].getD cnt false := by decide +kernel
  have here := table (bit 0) (bit 1) (bit 2) (bit 3) (bit 4) (bit 5) (bit 6) (bit 7) ⟨cnt, h⟩
  have same : [bit 0, bit 1, bit 2, bit 3, bit 4, bit 5, bit 6, bit 7].getD cnt false =
      bit cnt := by
    match cnt, h with
    | 0, _ | 1, _ | 2, _ | 3, _ | 4, _ | 5, _ | 6, _ | 7, _ => rfl
  rw [← same]
  exact here

theorem bitToByte_congr {bit bit' : Nat → Bool} (h : ∀ cnt < 8, bit cnt = bit' cnt) :
    bitToByte bit = bitToByte bit' := by
  have all : List.range 8 = [0, 1, 2, 3, 4, 5, 6, 7] := rfl
  simp only [bitToByte, all, List.foldl_cons, List.foldl_nil, h 0 (by decide), h 1 (by decide),
    h 2 (by decide), h 3 (by decide), h 4 (by decide), h 5 (by decide), h 6 (by decide),
    h 7 (by decide)]

theorem getElem_bit64ToChar8 (bit : Bits 64) {i : Nat} (h : i < (bit64ToChar8 bit).length) :
    (bit64ToChar8 bit)[i] = bitToByte fun cnt => bit (Fin.ofNat 64 (8 * i + cnt)) := by
  simp only [bit64ToChar8, List.getElem_map, List.getElem_range]

theorem length_bit64ToChar8 (bit : Bits 64) : (bit64ToChar8 bit).length = 8 := by
  rw [bit64ToChar8, List.length_map, List.length_range]

theorem bit64_char8 {ch : Bytes} (eight : ch.length = 8) :
    bit64ToChar8 (char8ToBit64 ch) = ch := by
  refine List.ext_getElem (by rw [length_bit64ToChar8, eight]) ?_
  intro i _ inside
  have same : ∀ cnt < 8, char8ToBit64 ch (Fin.ofNat 64 (8 * i + cnt)) = byteToBit ch[i] cnt := by
    intro cnt small
    have value : (Fin.ofNat 64 (8 * i + cnt)).val = 8 * i + cnt :=
      Nat.mod_eq_of_lt (by omega)
    have byte : (8 * i + cnt) / 8 = i := by omega
    have place : (8 * i + cnt) % 8 = cnt := by omega
    rw [char8ToBit64, value, byte, place, List.getD_eq_getElem?_getD,
      List.getElem?_eq_getElem inside, Option.getD_some]
  rw [getElem_bit64ToChar8, bitToByte_congr same, bitToByte_byteToBit]

theorem char8_bit64 (bit : Bits 64) : char8ToBit64 (bit64ToChar8 bit) = bit := by
  funext k
  have inside : k.val / 8 < (bit64ToChar8 bit).length := by
    rw [length_bit64ToChar8]
    omega
  have index : 8 * (k.val / 8) + k.val % 8 = k := Nat.div_add_mod k 8
  rw [char8ToBit64, List.getD_eq_getElem?_getD, List.getElem?_eq_getElem inside,
    Option.getD_some, getElem_bit64ToChar8, byteToBit_bitToByte _ (Nat.mod_lt _ (by decide)),
    index]
  exact congrArg bit (Fin.ofNat_val_eq_self k)

end Bits

section Law
variable (subKeys : List (Bits 48)) (key : Option Key) {input : Bytes}

theorem length_encryptBlock (block : Bytes) : (encryptBlock subKeys block).length = 8 :=
  length_bit64ToChar8 _

/-- One block comes back under the same sub keys, whatever they are. -/
theorem decryptBlock_encryptBlock {block : Bytes} (eight : block.length = 8) :
    decryptBlock subKeys (encryptBlock subKeys block) = block := by
  have undone := Feistel.rounds_reverse (roundOf subKeys) desXor_cancel 0 15
    (List.nodup_range (n := 16)) rfl rfl (halves (desIpTransform (char8ToBit64 block)))
  rw [decryptBlock, encryptBlock, char8_bit64, ip_ip1, halves_joined, undone, joined_halves,
    ip1_ip, bit64_char8 eight]

theorem overBlocks_undo (n : Nat) (long : input.length = 8 * n) :
    overBlocks (decryptBlock subKeys) n (overBlocks (encryptBlock subKeys) n input) = input ∧
      (overBlocks (encryptBlock subKeys) n input).length = 8 * n := by
  induction n generalizing input with
  | zero => exact ⟨(List.length_eq_zero_iff.mp long).symm, rfl⟩
  | succ n ih =>
    have eight : (input.take 8).length = 8 := by
      rw [List.length_take]
      omega
    have later : (input.drop 8).length = 8 * n := by
      rw [List.length_drop]
      omega
    obtain ⟨back, length⟩ := ih later
    have first := length_encryptBlock subKeys (input.take 8)
    constructor
    · rw [overBlocks, overBlocks, List.take_left' first, List.drop_left' first,
        decryptBlock_encryptBlock subKeys eight, back, List.take_append_drop]
    · rw [overBlocks, List.length_append, first, length]
      omega

/-- A run over whole blocks. -/
theorem desRun_eq (block : List (Bits 48) → Bytes → Bytes) (n : Nat)
    (long : input.length = 8 * (n + 1)) : desRun block input key = (intOfLong input.length,
      overBlocks (block (desMakeSubKeys (char8ToBit64 (keyBlock key)))) (n + 1) input) := by
  have none : input.length % 8 = 0 := by omega
  have blocks : input.length / 8 = n + 1 := by omega
  rw [desRun, if_neg (by omega)]
  simp only [none, blocks, Nat.sub_zero]

/-- The bytes come back at every length; only the `int` that is returned limits it. -/
theorem desDecrypt_desEncrypt (n : Nat) (long : input.length = 8 * (n + 1)) :
    desEncrypt input key = (intOfLong input.length, (desEncrypt input key).2) ∧
      desDecrypt (desEncrypt input key).2 key = (intOfLong input.length, input) := by
  have encrypted := desRun_eq key encryptBlock n long
  obtain ⟨back, length⟩ := overBlocks_undo (desMakeSubKeys (char8ToBit64 (keyBlock key))) (n + 1)
    long
  have text : (desEncrypt input key).2 = overBlocks (encryptBlock
      (desMakeSubKeys (char8ToBit64 (keyBlock key)))) (n + 1) input := congrArg Prod.snd encrypted
  refine ⟨?_, ?_⟩
  · rw [text]
    exact encrypted
  · rw [text, desDecrypt, desRun_eq key decryptBlock n length, back, length, long]

/-- Both functions return the length, the bytes come back and the permutations are mutually
inverse. -/
def RoundTrips (input : Bytes) (key : Option Key) : Prop :=
  (desEncrypt input key).1 = input.length ∧
    desDecrypt (desEncrypt input key).2 key = ((input.length : Int), input) ∧
    (∀ data, desIp1Transform (desIpTransform data) = data) ∧
    ∀ data, desIpTransform (desIp1Transform data) = data

theorem roundTrips_iff_small (n : Nat) (long : input.length = 8 * (n + 1)) :
    RoundTrips input key ↔ input.length < 2 ^ 31 := by
  obtain ⟨encrypted, decrypted⟩ := desDecrypt_desEncrypt key n long
  rw [RoundTrips, decrypted, encrypted, ← intOfLong_nat_iff]
  constructor
  · exact fun trip => trip.1
  · exact fun same => ⟨same, by rw [same], ip1_ip, ip_ip1⟩

/-- The round trip holds at every length that is an `int`. -/
theorem des_round_trip (input : Bytes) (key : Option Key) (some : input ≠ [])
    (whole : 8 ∣ input.length) : RoundTrips input key ↔ input.length < 2 ^ 31 := by
  have positive := List.length_pos_iff.mpr some
  obtain ⟨m, long⟩ := whole
  obtain ⟨n, rfl⟩ : ∃ n, m = n + 1 := ⟨m - 1, by omega⟩
  exact roundTrips_iff_small key n long

theorem des_round_trip_eight : RoundTrips [1, 2, 3, 4, 5, 6, 7, 255] none :=
  (des_round_trip [1, 2, 3, 4, 5, 6, 7, 255] none (List.cons_ne_nil _ _) (by decide)).mpr
    (by decide)

/-- Of 2 GiB the result is negative. -/
theorem des_returns_negative : ¬ RoundTrips (List.replicate (2 ^ 31) 0) none := by
  have long : (List.replicate (2 ^ 31) (0 : UInt8)).length = 2 ^ 31 := List.length_replicate
  generalize List.replicate (2 ^ 31) (0 : UInt8) = input at long
  have whole : input.length = 8 * (268435455 + 1) := by omega
  rw [roundTrips_iff_small none 268435455 whole, long]
  exact lt_irrefl _

end Law

end Des
