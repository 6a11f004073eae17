import Mathlib.Algebra.Group.Int.Defs
import Mathlib.Algebra.Group.Nat.Defs
import Mathlib.Data.List.Basic
import Mathlib.Data.List.TakeWhile

/-!
# C strings

A C string is the list of its bytes before the terminator. Here are the library
functions that the configuration code calls on them, in the C locale and with a
32-bit `int`.
-/

namespace CText

abbrev Bytes := List UInt8

def ofChars (text : List Char) : Bytes := text.map fun c => c.toNat.toUInt8

def tolower (c : UInt8) : UInt8 := if 65 ≤ c ∧ c ≤ 90 then c + 32 else c

/-- The string as `strcasecmp` sees it: its sign is `compare` on folded strings. -/
def fold (s : Bytes) : Bytes := s.map tolower

def strcasecmp (left right : Bytes) : Ordering := compare (fold left) (fold right)

/-- At most `n` bytes are compared. -/
def strncasecmp (left right : Bytes) (n : Nat) : Ordering :=
  strcasecmp (left.take n) (right.take n)

def isdigit (c : UInt8) : Bool := 48 ≤ c && c ≤ 57

/-- The bounds of `long` and the conversion to `int` of the library's `atoi`,
for a string that starts with its digits. -/
def atoi (s : Bytes) : Int :=
  let value := (s.takeWhile isdigit).foldl (fun n c => 10 * n + (c.toNat - 48)) 0
  (BitVec.ofNat 32 (min value (2 ^ 63 - 1))).toInt

def isspace (c : UInt8) : Bool := c = 32 || (9 ≤ c && c ≤ 13)

/-- The value of a hexadecimal digit. -/
def hexValue (c : UInt8) : Option Nat :=
  if 48 ≤ c ∧ c ≤ 57 then some (c.toNat - 48)
  else if 65 ≤ c ∧ c ≤ 70 then some (10 + c.toNat - 65)
  else if 97 ≤ c ∧ c ≤ 102 then some (10 + c.toNat - 97)
  else none

theorem hexValue_range {c : UInt8} {n : Nat} (h : hexValue c = some n) :
    n < 16 ∧ (48 ≤ c.toNat ∧ c.toNat ≤ 57 ∨ 65 ≤ c.toNat ∧ c.toNat ≤ 70 ∨
      97 ≤ c.toNat ∧ c.toNat ≤ 102) := by
  rw [hexValue] at h
  simp only [UInt8.le_iff_toNat_le, UInt8.reduceToNat] at h
  split at h
  · rename_i digit
    obtain rfl := Option.some.inj h
    exact ⟨by omega, .inl digit⟩
  · split at h
    · rename_i upper
      obtain rfl := Option.some.inj h
      exact ⟨by omega, .inr (.inl upper)⟩
    · split at h
      · rename_i lower
        obtain rfl := Option.some.inj h
        exact ⟨by omega, .inr (.inr lower)⟩
      · cases h

def digitsValue (s : Bytes) : Nat :=
  (s.takeWhile isdigit).foldl (fun n c => 10 * n + (c.toNat - 48)) 0

/-- The number at the start of the string, within the bounds of `long long`. -/
def strtoll (s : Bytes) : Int :=
  match s.dropWhile isspace with
  | 45 :: digits => max (-digitsValue digits) (-2 ^ 63)
  | 43 :: digits => min (digitsValue digits) (2 ^ 63 - 1)
  | digits => min (digitsValue digits) (2 ^ 63 - 1)

/-- The conversion of a `long` to `int`, which makes `atoi` of `strtol`. -/
def intOfLong (n : Int) : Int := (BitVec.ofInt 32 n).toInt

/-- What a computation in `int` comes to; signed overflow is undefined. -/
def checked (n : Int) : Option Int := if -2 ^ 31 ≤ n ∧ n < 2 ^ 31 then some n else none

/-- The text of the conversion `%d`. -/
def printInt (n : Int) : Bytes :=
  if n < 0 then 45 :: ofChars (Nat.toDigits 10 n.natAbs) else ofChars (Nat.toDigits 10 n.natAbs)

/-- The array indices that a request can name are read back as printed. -/
theorem atoi_printInt (k : Fin 256) :
    atoi (printInt k) = k ∧ (printInt k).all isdigit = true ∧ printInt k ≠ [] := by
  revert k
  decide +kernel

/-- What stands before the first occurrence of the needle, and what stands after it. -/
def strstr (needle : Bytes) : Bytes → Option (Bytes × Bytes)
  | [] => none
  | c :: rest =>
    if needle.isPrefixOf (c :: rest) then some ([], (c :: rest).drop needle.length)
    else (strstr needle rest).map fun found => (c :: found.1, found.2)

def crlf : Bytes := [13, 10]

theorem digit_byte {c : Char} (h : c.isDigit = true) :
    isdigit c.toNat.toUInt8 = true ∧ c.toNat.toUInt8.toNat = c.toNat := by
  have bounds : 48 ≤ c.toNat ∧ c.toNat ≤ 57 := by
    rw [Char.isDigit, Bool.and_eq_true, decide_eq_true_eq, decide_eq_true_eq] at h
    exact ⟨UInt32.le_iff_toNat_le.mp h.1, UInt32.le_iff_toNat_le.mp h.2⟩
  have same : c.toNat.toUInt8.toNat = c.toNat := by
    rw [Nat.toUInt8, UInt8.toNat_ofNat']
    omega
  refine ⟨?_, same⟩
  simp only [isdigit, Bool.and_eq_true, decide_eq_true_eq, UInt8.le_iff_toNat_le, same]
  exact bounds

theorem ofChars_digits {text : List Char} (h : ∀ c ∈ text, c.isDigit = true) :
    ∀ b ∈ ofChars text, isdigit b = true := by
  intro b mem
  obtain ⟨c, hc, rfl⟩ := List.mem_map.mp mem
  exact (digit_byte (h c hc)).1

/-- The digits of a number are read back. -/
theorem digitsValue_toDigits (n : Nat) : digitsValue (ofChars (Nat.toDigits 10 n)) = n := by
  have digits : ∀ c ∈ Nat.toDigits 10 n, c.isDigit = true :=
    fun c => Nat.isDigit_of_mem_toDigits (by omega) (by omega)
  have folded : ∀ (text : List Char) (value : Nat), (∀ c ∈ text, c.isDigit = true) →
      (ofChars text).foldl (fun n c => 10 * n + (c.toNat - 48)) value =
        Nat.ofDigitChars 10 text value := by
    intro text
    induction text with
    | nil => exact fun _ _ => rfl
    | cons c rest ih =>
      intro value h
      obtain ⟨here, later⟩ := List.forall_mem_cons.mp h
      rw [Nat.ofDigitChars_cons, ← ih _ later, ofChars, List.map_cons, List.foldl_cons,
        (digit_byte here).2]
      rfl
  have all : (ofChars (Nat.toDigits 10 n)).takeWhile isdigit = ofChars (Nat.toDigits 10 n) := by
    rw [List.takeWhile_eq_self_iff]
    exact ofChars_digits digits
  rw [digitsValue, all, folded _ 0 digits, Nat.ofDigitChars_ten_toDigits]

theorem printInt_byte {n : Int} {b : UInt8} (h : b ∈ printInt n) : isdigit b = true ∨ b = 45 := by
  have digits : ∀ b ∈ ofChars (Nat.toDigits 10 n.natAbs), isdigit b = true :=
    ofChars_digits fun c => Nat.isDigit_of_mem_toDigits (by omega) (by omega)
  rw [printInt] at h
  split at h
  · rcases List.mem_cons.mp h with rfl | h
    · exact Or.inr rfl
    · exact Or.inl (digits b h)
  · exact Or.inl (digits b h)

theorem length_printInt {n : Int} (lower : -2 ^ 63 ≤ n) (upper : n < 2 ^ 63) :
    (printInt n).length ≤ 20 := by
  have short : (Nat.toDigits 10 n.natAbs).length ≤ 19 := by
    rw [Nat.length_toDigits_le_iff (by omega) (by omega)]
    omega
  rw [printInt]
  split
  · rw [List.length_cons, ofChars, List.length_map]
    omega
  · rw [ofChars, List.length_map]
    omega

theorem strtoll_digits {s : Bytes} (digits : ∀ b ∈ s, isdigit b = true) :
    strtoll s = min (digitsValue s : Int) (2 ^ 63 - 1) := by
  cases s with
  | nil => rfl
  | cons d rest =>
    have digit := digits d List.mem_cons_self
    have start : (d :: rest).dropWhile isspace = d :: rest := by
      apply List.dropWhile_cons_of_neg
      intro space
      simp only [isspace, isdigit, Bool.or_eq_true, Bool.and_eq_true, decide_eq_true_eq,
        UInt8.le_iff_toNat_le] at space digit
      rcases space with rfl | space
      · exact absurd digit.1 (by decide)
      · have low : (13 : UInt8).toNat = 13 := rfl
        have high : (48 : UInt8).toNat = 48 := rfl
        omega
    rw [strtoll, start]
    split
    · rename_i minus
      obtain ⟨rfl, _⟩ := List.cons.inj minus
      exact absurd digit (by decide)
    · rename_i plus
      obtain ⟨rfl, _⟩ := List.cons.inj plus
      exact absurd digit (by decide)
    · rfl

/-- A printed number of 64 bits is read back. -/
theorem strtoll_printInt {n : Int} (lower : -2 ^ 63 ≤ n) (upper : n < 2 ^ 63) :
    strtoll (printInt n) = n := by
  have value := digitsValue_toDigits n.natAbs
  rw [printInt]
  split
  · rename_i negative
    have same : strtoll (45 :: ofChars (Nat.toDigits 10 n.natAbs)) =
        max (-(digitsValue (ofChars (Nat.toDigits 10 n.natAbs)) : Int)) (-2 ^ 63) := rfl
    rw [same, value]
    omega
  · rename_i positive
    have digits : ∀ b ∈ ofChars (Nat.toDigits 10 n.natAbs), isdigit b = true :=
      ofChars_digits fun c => Nat.isDigit_of_mem_toDigits (by omega) (by omega)
    rw [strtoll_digits digits, value]
    omega

theorem intOfLong_eq {n : Int} (lower : -2 ^ 31 ≤ n) (upper : n < 2 ^ 31) : intOfLong n = n := by
  rw [intOfLong, BitVec.toInt_ofInt]
  exact Int.bmod_eq_of_le (by omega) (by omega)

theorem intOfLong_lt (n : Int) : intOfLong n < 2 ^ 31 := by
  have upper := (BitVec.ofInt 32 n).toInt_lt
  rw [intOfLong]
  omega

theorem intOfLong_nat {n : Nat} (h : n < 2 ^ 31) : intOfLong n = n :=
  intOfLong_eq (by omega) (by omega)

/-- A length survives as an `int` exactly when it is one. -/
theorem intOfLong_nat_iff (n : Nat) : intOfLong n = n ↔ n < 2 ^ 31 := by
  constructor
  · intro same
    have upper := intOfLong_lt n
    omega
  · exact intOfLong_nat

theorem checked_eq {n : Int} (lower : -2 ^ 31 ≤ n) (upper : n < 2 ^ 31) : checked n = some n :=
  if_pos ⟨lower, upper⟩

theorem checked_some {n m : Int} (h : checked n = some m) : n = m ∧ n < 2 ^ 31 := by
  rw [checked] at h
  split at h
  · rename_i inside
    exact ⟨Option.some.inj h, inside.2⟩
  · cases h

theorem strcasecmp_eq_iff {left right : Bytes} :
    strcasecmp left right = .eq ↔ fold left = fold right :=
  Std.LawfulEqOrd.compare_eq_iff_eq

end CText
