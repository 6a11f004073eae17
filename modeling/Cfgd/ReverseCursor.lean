import Mathlib.Data.Nat.Bitwise
import Mathlib.Data.Nat.Init

/-!
# Cursors that count from the highest bit

A cursor is incremented in the order of its reversed bits. The numbers with the same low
bits are neighbours in this order, so a step that leaves the low bits behind has passed all
of them, whatever the number of low bits was in the steps before.
-/

namespace ReverseCursor

variable {w e : Nat} {v h : BitVec w}

/-- The place of a number in the order of the reversed bits. -/
def place (v : BitVec w) : Nat := v.reverse.toNat

/-- The mask of the low `e` bits. -/
def lowMask (w e : Nat) : BitVec w := BitVec.ofNat w (2 ^ e - 1)

/-- The numbers that have the same low `e` bits are so many neighbours. -/
def block (w e : Nat) : Nat := 2 ^ (w - e)

/-- Where the block after that of `p` starts. -/
def nextStart (p size : Nat) : Nat := (p / size + 1) * size

/-- The increment of the reversed cursor, where the bits above the mask are set first. -/
def advance (e : Nat) (v : BitVec w) : BitVec w := ((v ||| ~~~ lowMask w e).reverse + 1).reverse

theorem getLsbD_lowMask (i : Nat) :
    (lowMask w e).getLsbD i = (decide (i < w) && decide (i < e)) := by
  rw [lowMask, BitVec.getLsbD_ofNat, Nat.testBit_two_pow_sub_one]

theorem testBit_place (v : BitVec w) (i : Nat) :
    (place v).testBit i = (decide (i < w) && v.getLsbD (w - 1 - i)) := by
  rw [place, BitVec.testBit_toNat, BitVec.getLsbD_reverse, BitVec.getMsbD_eq_getLsbD]

theorem place_lt (v : BitVec w) : place v < 2 ^ w := BitVec.isLt _

theorem place_zero : place (0 : BitVec w) = 0 := by
  have zero : (0#w).reverse = 0#w := BitVec.reverse_eq_zero_iff.mpr rfl
  rw [place, show (0 : BitVec w) = 0#w from rfl, zero]
  rfl

theorem place_inj (same : place v = place h) : v = h := by
  have reversed := congrArg BitVec.reverse (BitVec.eq_of_toNat_eq same)
  rwa [BitVec.reverse_reverse_eq, BitVec.reverse_reverse_eq] at reversed

theorem place_eq_zero : place v = 0 ↔ v = 0 :=
  ⟨fun zero => place_inj (zero.trans place_zero.symm), fun zero => zero ▸ place_zero⟩

theorem testBit_floor (a k i : Nat) :
    (a / 2 ^ k * 2 ^ k).testBit i = (decide (k ≤ i) && a.testBit i) := by
  rw [Nat.testBit_mul_two_pow, Nat.testBit_div_two_pow]
  by_cases low : k ≤ i
  · rw [Nat.sub_add_cancel low]
  · simp [low]

/-- The low bits are the block. -/
theorem place_and (fits : e ≤ w) (v : BitVec w) :
    place (v &&& lowMask w e) = place v / block w e * block w e := by
  refine Nat.eq_of_testBit_eq fun i => ?_
  rw [block, testBit_floor, testBit_place, testBit_place, BitVec.getLsbD_and, getLsbD_lowMask]
  by_cases inside : i < w
  · have low : w - 1 - i < w ∧ (w - 1 - i < e ↔ w - e ≤ i) := by omega
    simp [inside, low.1, low.2, Bool.and_comm]
  · simp [inside]

/-- Setting the other bits goes to the end of the block. -/
theorem place_or (fits : e ≤ w) (v : BitVec w) :
    place (v ||| ~~~ lowMask w e) = place v / block w e * block w e + (block w e - 1) := by
  refine Nat.eq_of_testBit_eq fun i => ?_
  have below : 2 ^ (w - e) - 1 < 2 ^ (w - e) := Nat.sub_one_lt (Nat.two_pow_pos _).ne'
  rw [block, Nat.mul_comm, Nat.testBit_two_pow_mul_add _ below, Nat.testBit_div_two_pow,
    Nat.testBit_two_pow_sub_one, testBit_place, testBit_place, BitVec.getLsbD_or,
    BitVec.getLsbD_not, getLsbD_lowMask]
  by_cases inside : i < w
  · have low : w - 1 - i < w ∧ (w - 1 - i < e ↔ ¬ i < w - e) := by omega
    by_cases before : i < w - e
    · simp [inside, low.1, low.2, before]
    · rw [if_neg before, Nat.sub_add_cancel (Nat.le_of_not_lt before)]
      simp [inside, low.1, low.2, before]
  · have behind : ¬ i < w - e := by omega
    rw [if_neg behind, Nat.sub_add_cancel (Nat.le_of_not_lt behind)]
    simp [inside]

theorem block_pos (w e : Nat) : 0 < block w e := Nat.two_pow_pos _

/-- The same low bits: the same block. -/
theorem and_eq_iff (fits : e ≤ w) :
    h &&& lowMask w e = v &&& lowMask w e ↔ place h / block w e = place v / block w e := by
  constructor
  · intro same
    have places := congrArg place same
    rw [place_and fits, place_and fits] at places
    exact Nat.eq_of_mul_eq_mul_right (block_pos w e) places
  · intro same
    refine place_inj ?_
    rw [place_and fits, place_and fits, same]

/-- A step goes to the start of the next block, and from the last one to zero. -/
theorem place_advance (fits : e ≤ w) (v : BitVec w) :
    place (advance e v) = nextStart (place v) (block w e) % 2 ^ w := by
  have last := place_or fits v
  have positive := block_pos w e
  rw [place] at last
  rw [advance, place, BitVec.reverse_reverse_eq, BitVec.toNat_add, last, nextStart, Nat.add_mul]
  cases w with
  | zero => simp [Nat.mod_one]
  | succ w =>
    rw [show (1 : BitVec (w + 1)).toNat = 1 by simp]
    congr 1
    omega

theorem block_dvd {e e' : Nat} (order : e ≤ e') : block w e' ∣ block w e :=
  Nat.pow_dvd_pow 2 (by omega)

theorem block_dvd_all (w e : Nat) : block w e ∣ 2 ^ w := Nat.pow_dvd_pow 2 (Nat.sub_le w e)

section Blocks
variable {p q small large all : Nat}

theorem lt_nextStart (positive : 0 < small) (p : Nat) : p < nextStart p small := by
  rw [nextStart, Nat.add_mul, Nat.one_mul]
  exact Nat.lt_div_mul_add positive

theorem nextStart_le (dvd : small ∣ large) (behind : p < large) : nextStart p small ≤ large := by
  obtain ⟨n, rfl⟩ := dvd
  rw [nextStart, Nat.mul_comm small n]
  refine Nat.mul_le_mul_right small ?_
  exact Nat.div_lt_of_lt_mul behind

/-- What lies between a number and the next block is in the block of the number. -/
theorem div_eq_of_between (positive : 0 < small) (after : p ≤ q) (before : q < nextStart p small) :
    q / small = p / small := by
  refine Nat.le_antisymm ?_ (Nat.div_le_div_right after)
  rw [nextStart, ← Nat.div_lt_iff_lt_mul positive] at before
  exact Nat.le_of_lt_succ before

/-- The numbers of a block. -/
theorem div_eq_iff (positive : 0 < small) :
    q / small = p / small ↔ p / small * small ≤ q ∧ q < nextStart p small := by
  rw [nextStart, ← Nat.div_lt_iff_lt_mul positive, ← Nat.le_div_iff_mul_le positive]
  omega

theorem start_of_dvd (dvd : small ∣ large) (start : p % large = 0) : p / small * small = p :=
  Nat.div_mul_cancel (dvd.trans (Nat.dvd_of_mod_eq_zero start))

theorem nextStart_dvd (p small : Nat) : small ∣ nextStart p small := Nat.dvd_mul_left small _

theorem nextStart_le_nextStart (dvd : small ∣ large) (positive : 0 < large) (p : Nat) :
    nextStart p small ≤ nextStart p large :=
  nextStart_le (dvd.trans (nextStart_dvd p large)) (lt_nextStart positive p)

/-- Inside of a large block, a step over a small one does not come to its end. -/
theorem nextStart_inside (positive : 0 < small) (positive' : 0 < large)
    (less : nextStart p small < nextStart p large) :
    nextStart (nextStart p small) large = nextStart p large ∧ nextStart p small % large ≠ 0 := by
  have after := lt_nextStart positive p
  have same := div_eq_of_between positive' (Nat.le_of_lt after) less
  refine ⟨by rw [nextStart, same, nextStart], fun zero => ?_⟩
  have whole := Nat.div_add_mod (nextStart p small) large
  rw [zero, same, Nat.add_zero] at whole
  have start := Nat.mul_div_le p large
  omega

end Blocks

/-- The bits between two masks are clear at the start of a block of the smaller one. -/
theorem and_xor_eq_zero {e e' : Nat} (order : e ≤ e') (fits : e' ≤ w)
    (aligned : place v % block w e' = 0) :
    v &&& (lowMask w e ^^^ lowMask w e') = 0 ↔ place v % block w e = 0 := by
  have clear : ∀ i < w - e', (place v).testBit i = false := by
    intro i less
    have bit := congrArg (Nat.testBit · i) aligned
    rw [block] at bit
    simpa [Nat.testBit_mod_two_pow, less] using bit
  constructor
  · intro zero
    refine Nat.eq_of_testBit_eq fun i => ?_
    rw [block, Nat.testBit_mod_two_pow, Nat.zero_testBit]
    by_cases low : i < w - e'
    · rw [clear i low, Bool.and_false]
    by_cases inside : i < w - e
    · have bit := congrArg (BitVec.getLsbD · (w - 1 - i)) zero
      have place₀ : i < w ∧ w - 1 - i < w ∧ ¬ w - 1 - i < e ∧ w - 1 - i < e' := by omega
      simp only [BitVec.getLsbD_and, BitVec.getLsbD_xor, getLsbD_lowMask, place₀, decide_true,
        decide_false, Bool.and_true, Bool.false_xor, Bool.and_false] at bit
      rw [testBit_place, bit]
      simp
    · simp [inside]
  · intro zero
    refine BitVec.eq_of_getLsbD_eq fun i inside => ?_
    rw [BitVec.getLsbD_and, BitVec.getLsbD_xor, getLsbD_lowMask, getLsbD_lowMask]
    by_cases between : i < e' ∧ ¬ i < e
    · have bit := congrArg (Nat.testBit · (w - 1 - i)) zero
      have place₀ : w - 1 - i < w - e ∧ w - 1 - i < w ∧ w - 1 - (w - 1 - i) = i := by omega
      rw [block] at bit
      simp only [Nat.testBit_mod_two_pow, testBit_place, place₀, decide_true, Bool.true_and,
        Nat.zero_testBit] at bit
      rw [bit]
      simp
    · have same : decide (i < e) = decide (i < e') := by
        by_cases first : i < e
        · simp [first, Nat.lt_of_lt_of_le first order]
        · simp [first, show ¬ i < e' from fun second => between ⟨second, first⟩]
      rw [same]
      simp

end ReverseCursor
