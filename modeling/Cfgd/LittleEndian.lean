import Mathlib.Algebra.Group.Nat.Defs
import Mathlib.Data.List.Basic

/-!
# Words in bytes

A word of `n` bytes in memory, lowest byte first, and the reversal of its bytes.
-/

namespace LittleEndian

/-- The lowest `n` bytes of a number. -/
def bytes : Nat → Nat → List UInt8
  | 0, _ => []
  | n + 1, v => (v % 256).toUInt8 :: bytes n (v / 256)

/-- The number that the bytes stand for. -/
def value : List UInt8 → Nat
  | [] => 0
  | b :: rest => b.toNat + 256 * value rest

@[simp] theorem length_bytes (n v : Nat) : (bytes n v).length = n := by
  induction n generalizing v with
  | zero => rfl
  | succ n ih => rw [bytes, List.length_cons, ih]

theorem toNat_toUInt8 (v : Nat) : (v % 256).toUInt8.toNat = v % 256 := by
  rw [Nat.toUInt8, UInt8.toNat_ofNat']
  omega

theorem value_bytes (n v : Nat) : value (bytes n v) = v % 256 ^ n := by
  induction n generalizing v with
  | zero => rw [bytes, value, Nat.pow_zero, Nat.mod_one]
  | succ n ih => rw [bytes, value, ih, toNat_toUInt8, Nat.pow_succ', Nat.mod_mul]

theorem value_lt (s : List UInt8) : value s < 256 ^ s.length := by
  induction s with
  | nil => exact Nat.one_pos
  | cons b rest ih =>
    have small := b.toNat_lt
    rw [value, List.length_cons, Nat.pow_succ]
    omega

theorem bytes_value (s : List UInt8) : bytes s.length (value s) = s := by
  induction s with
  | nil => rfl
  | cons b rest ih =>
    have small := b.toNat_lt
    have low : (b.toNat + 256 * value rest) % 256 = b.toNat := by omega
    have high : (b.toNat + 256 * value rest) / 256 = value rest := by omega
    rw [value, List.length_cons, bytes, low, high, ih, Nat.toUInt8, UInt8.ofNat_toNat]

theorem bytes_succ (n v : Nat) : bytes (n + 1) v = bytes n v ++ [(v / 256 ^ n % 256).toUInt8] := by
  induction n generalizing v with
  | zero => rw [bytes, bytes, bytes, Nat.pow_zero, Nat.div_one, List.nil_append]
  | succ n ih =>
    rw [bytes, ih, bytes, List.cons_append, Nat.div_div_eq_div_mul, Nat.pow_succ']

/-- The word with its bytes in the opposite order. -/
def swap (n v : Nat) : Nat := value (bytes n v).reverse

theorem swap_lt (n v : Nat) : swap n v < 256 ^ n := by
  have small := value_lt (bytes n v).reverse
  rwa [List.length_reverse, length_bytes] at small

theorem bytes_swap (n v : Nat) : bytes n (swap n v) = (bytes n v).reverse := by
  have whole := bytes_value (bytes n v).reverse
  rwa [List.length_reverse, length_bytes] at whole

theorem swap_swap {n v : Nat} (small : v < 256 ^ n) : swap n (swap n v) = v := by
  rw [swap, bytes_swap, List.reverse_reverse, value_bytes, Nat.mod_eq_of_lt small]

/-- One byte more on the high side goes to the low end. -/
theorem swap_succ (n v : Nat) : swap (n + 1) v = v / 256 ^ n % 256 + 256 * swap n v := by
  rw [swap, bytes_succ, List.reverse_append, List.reverse_singleton, List.singleton_append, value,
    toNat_toUInt8, swap]

end LittleEndian
