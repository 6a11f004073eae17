import Mathlib.Data.BitVec
import Mathlib.Data.Matrix.Mul
import Mathlib.Algebra.BigOperators.Fin

/-!
# Matrices in memory

The elements of a matrix stand line by line behind its two counts. The counts and all
positions are 32-bit unsigned; an access outside what was allocated has no outcome. The
product and the transpose are compared with those of the mathematical matrices.
-/

namespace MatrixMemory

/-- `matrix2d_ele_t`, a `long` whose arithmetic is taken modulo its width. -/
abbrev Elem := BitVec 64

section Source

structure Matrix2d where
  column : UInt32
  line : UInt32
  field : List Elem
  deriving DecidableEq

def load (field : List Elem) (i : UInt32) : Option Elem := field[i.toNat]?

def store (field : List Elem) (i : UInt32) (ele : Elem) : Option (List Elem) :=
  if i.toNat < field.length then some (field.set i.toNat ele) else none

/-- A null matrix; NULL where a count is zero. -/
def matrix2dAlloc (line column : UInt32) : Option Matrix2d :=
  if 0 = column ∨ 0 = line then none
  else some ⟨column, line, List.replicate (line * column).toNat 0⟩

def matrix2dIndex2line (m : Matrix2d) (i : UInt32) : UInt32 := i / m.column

def matrix2dIndex2column (m : Matrix2d) (i : UInt32) : UInt32 := i % m.column

/-- What is returned and what the output holds then. -/
def matrix2dQueryElement (m : Matrix2d) (line column : UInt32) (output : Elem) :
    Option (Int × Elem) :=
  if column ≥ m.column ∨ line ≥ m.line then some (-1, output)
  else (load m.field (line * m.column + column)).map fun ele => (0, ele)

/-- The field of the result and the two local variables. -/
structure MulState where
  field : List Elem
  eleLeft : Elem
  eleRight : Elem

/-- The body of the inner loop of `matrix2d_mul`. -/
def mulStep (mulfn addfn : Option (Elem → Elem → Elem)) (left right m : Matrix2d) (i : UInt32)
    (st : MulState) (j : Nat) : Option MulState := do
  let (_, eleLeft) ← matrix2dQueryElement left (matrix2dIndex2line m i) (UInt32.ofNat j) st.eleLeft
  let (_, eleRight) ←
    matrix2dQueryElement right (UInt32.ofNat j) (matrix2dIndex2column m i) st.eleRight
  let middle := mulfn.getD (· * ·) eleLeft eleRight
  let old ← load st.field i
  let field ← store st.field i (addfn.getD (· + ·) old middle)
  return ⟨field, eleLeft, eleRight⟩

/-- The inner loop. -/
def mulLine (mulfn addfn : Option (Elem → Elem → Elem)) (left right m : Matrix2d) (st : MulState)
    (i : Nat) : Option MulState :=
  (List.range left.column.toNat).foldlM (mulStep mulfn addfn left right m (UInt32.ofNat i)) st

/-- `some none` where NULL is returned. The local variables start with what happens to be
there. -/
def matrix2dMul (mulfn addfn : Option (Elem → Elem → Elem)) (eleLeft eleRight : Elem)
    (left right : Matrix2d) : Option (Option Matrix2d) :=
  if left.column ≠ right.line then some none
  else
    match matrix2dAlloc left.line left.column with
    | none => some none
    | some m =>
      ((List.range (m.line * m.column).toNat).foldlM (mulLine mulfn addfn left right m)
        ⟨m.field, eleLeft, eleRight⟩).map fun st => some { m with field := st.field }

/-- The body of the loops of `matrix2d_transport`: the field and `off`. -/
def transportStep (src : Matrix2d) (i : Nat) (st : List Elem × UInt32) (j : Nat) :
    Option (List Elem × UInt32) := do
  let ele ← load src.field (UInt32.ofNat j * src.column + UInt32.ofNat i)
  let field ← store st.1 st.2 ele
  return (field, st.2 + 1)

def transportLine (src : Matrix2d) (st : List Elem × UInt32) (i : Nat) :
    Option (List Elem × UInt32) :=
  (List.range src.line.toNat).foldlM (transportStep src i) st

def matrix2dTransport (src : Matrix2d) : Option (Option Matrix2d) :=
  match matrix2dAlloc src.column src.line with
  | none => some none
  | some m =>
    ((List.range src.column.toNat).foldlM (transportLine src) (m.field, 0)).map fun st =>
      some { m with field := st.1 }

end Source

section Shape
variable {a b : Nat} {m m' : Matrix2d} {A : Matrix (Fin a) (Fin b) Elem}

/-- The matrix in memory is the mathematical one. -/
structure Represents {a b : Nat} (m : Matrix2d) (A : Matrix (Fin a) (Fin b) Elem) : Prop where
  line : m.line.toNat = a
  column : m.column.toNat = b
  count : a * b < 2 ^ 32
  size : m.field.length = a * b
  elements : ∀ i j, m.field[i.val * b + j.val]? = some (A i j)

theorem position_lt (i : Fin a) (j : Fin b) : i.val * b + j.val < a * b := by
  have line : (i.val + 1) * b ≤ a * b := Nat.mul_le_mul_right b i.isLt
  rw [Nat.succ_mul] at line
  omega

theorem div_mod_position (i : Fin a) (j : Fin b) :
    (i.val * b + j.val) / b = i.val ∧ (i.val * b + j.val) % b = j.val := by
  have wide : 0 < b := Nat.zero_lt_of_lt j.isLt
  constructor
  · rw [Nat.add_comm, Nat.add_mul_div_right _ _ wide, Nat.div_eq_of_lt j.isLt, Nat.zero_add]
  · rw [Nat.add_comm, Nat.add_mul_mod_self_right, Nat.mod_eq_of_lt j.isLt]

/-- A position is that of one line and one column. -/
theorem position_split {t : Nat} (h : t < a * b) : ∃ (i : Fin a) (j : Fin b),
    t = i.val * b + j.val := by
  have wide : 0 < b := Nat.pos_of_ne_zero fun none => by simp [none] at h
  exact ⟨⟨t / b, Nat.div_lt_of_lt_mul (Nat.mul_comm a b ▸ h)⟩, ⟨t % b, Nat.mod_lt t wide⟩,
    (Nat.div_add_mod' t b).symm⟩

theorem Represents.eq (h : Represents m A) (h' : Represents m' A) : m = m' := by
  have columns : m.column = m'.column := UInt32.toNat_inj.mp (h.column.trans h'.column.symm)
  have lines : m.line = m'.line := UInt32.toNat_inj.mp (h.line.trans h'.line.symm)
  have fields : m.field = m'.field := by
    refine List.ext_getElem? fun t => ?_
    by_cases inside : t < a * b
    · obtain ⟨i, j, rfl⟩ := position_split inside
      rw [h.elements, h'.elements]
    · rw [List.getElem?_eq_none (by rw [h.size]; omega),
        List.getElem?_eq_none (by rw [h'.size]; omega)]
  cases m
  cases m'
  simp_all

/-- The query of an element that exists. -/
theorem Represents.query (h : Represents m A) (i : Fin a) (j : Fin b) {line column : UInt32}
    (hi : line.toNat = i) (hj : column.toNat = j) (output : Elem) :
    matrix2dQueryElement m line column output = some (0, A i j) := by
  have inside := position_lt i j
  have count := h.count
  have exists' : ¬ (column ≥ m.column ∨ line ≥ m.line) := by
    rw [ge_iff_le, ge_iff_le, UInt32.le_iff_toNat_le, UInt32.le_iff_toNat_le, h.column, h.line,
      hi, hj]
    omega
  have place : (line * m.column + column).toNat = i.val * b + j.val := by
    rw [UInt32.toNat_add, UInt32.toNat_mul, h.column, hi, hj]
    omega
  rw [matrix2dQueryElement, if_neg exists', load, place, h.elements, Option.map_some]

end Shape

section Filling
variable {value : Nat → Elem} {count n : Nat}

/-- A loop of which every turn keeps the invariant. -/
theorem foldlM_range {State : Type} (body : State → Nat → Option State)
    (inv : Nat → State → Prop) {n : Nat} {s : State} (start : inv 0 s)
    (step : ∀ k < n, ∀ s, inv k s → ∃ s', body s k = some s' ∧ inv (k + 1) s') :
    ∃ s', (List.range n).foldlM body s = some s' ∧ inv n s' := by
  induction n with
  | zero => exact ⟨s, rfl, start⟩
  | succ n ih =>
    obtain ⟨mid, run, kept⟩ := ih fun k inside => step k (Nat.lt_succ_of_lt inside)
    obtain ⟨last, turn, done⟩ := step n (Nat.lt_succ_self n) mid kept
    refine ⟨last, ?_, done⟩
    rw [List.range_succ, List.foldlM_append, run, Option.bind_eq_bind, Option.bind_some,
      List.foldlM_cons, turn, Option.bind_eq_bind, Option.bind_some, List.foldlM_nil]
    rfl

/-- A field of which the first elements have been written. -/
def filled (value : Nat → Elem) (count n : Nat) : List Elem :=
  (List.range n).map value ++ List.replicate (count - n) 0

theorem length_filled (inside : n ≤ count) : (filled value count n).length = count := by
  rw [filled, List.length_append, List.length_map, List.length_range, List.length_replicate]
  omega

theorem filled_succ (inside : n < count) : ∃ front back,
    filled value count n = front ++ 0 :: back ∧ front.length = n ∧
      filled value count (n + 1) = front ++ value n :: back := by
  have room : count - n = (count - (n + 1)) + 1 := by omega
  refine ⟨(List.range n).map value, List.replicate (count - (n + 1)) 0, ?_, ?_, ?_⟩
  · rw [filled, room, List.replicate_succ]
  · rw [List.length_map, List.length_range]
  · rw [filled, List.range_succ, List.map_append, List.append_assoc]
    rfl

/-- Any value put in the next place of the field, and one read from there. -/
theorem filled_next (inside : n < count) (v : Elem) :
    ((filled value count n).set n v)[n]? = some v ∧
      (filled value count n).set n 0 = filled value count n ∧
      (filled value count n).set n (value n) = filled value count (n + 1) := by
  obtain ⟨front, back, now, rfl, next⟩ := @filled_succ value count n inside
  rw [now, next]
  simp

theorem getElem?_filled {t : Nat} (inside : t < count) :
    (filled value count count)[t]? = some (value t) := by
  rw [filled, Nat.sub_self, List.replicate_zero, List.append_nil, List.getElem?_map,
    List.getElem?_range inside, Option.map_some]

/-- The field of a matrix all of whose elements have been written. -/
theorem represents_filled {a b : Nat} {A : Matrix (Fin a) (Fin b) Elem} {line column : UInt32}
    (hl : line.toNat = a) (hc : column.toNat = b) (small : a * b < 2 ^ 32)
    (values : ∀ i j, value (i.val * b + j.val) = A i j) :
    Represents ⟨column, line, filled value (a * b) (a * b)⟩ A :=
  ⟨hl, hc, small, length_filled (le_refl _), fun i j => by
    rw [getElem?_filled (position_lt i j), values]⟩

end Filling

section Product
variable {a b : Nat} {left right m : Matrix2d} {A : Matrix (Fin a) (Fin b) Elem}
  {B : Matrix (Fin b) (Fin b) Elem}

/-- The element at a position. -/
def entry {a b : Nat} (M : Matrix (Fin a) (Fin b) Elem) (t : Nat) : Elem :=
  if h : t / b < a ∧ t % b < b then M ⟨t / b, h.1⟩ ⟨t % b, h.2⟩ else 0

theorem entry_position {a b : Nat} (M : Matrix (Fin a) (Fin b) Elem) (i : Fin a) (j : Fin b) :
    entry M (i.val * b + j.val) = M i j := by
  obtain ⟨div, mod⟩ := div_mod_position i j
  simp only [entry, div, mod, i.isLt, j.isLt, and_self, dite_true]

theorem toNat_ofNat_position (small : a * b < 2 ^ 32) (i : Fin a) (j : Fin b) :
    (UInt32.ofNat (i.val * b + j.val)).toNat = i.val * b + j.val := by
  have inside := position_lt i j
  rw [UInt32.toNat_ofNat']
  omega

theorem toNat_ofNat_column {column : UInt32} (h : column.toNat = b) (k : Fin b) :
    (UInt32.ofNat k.val).toNat = k.val := by
  have narrow := column.toNat_lt
  rw [UInt32.toNat_ofNat']
  omega

theorem load_eq {field : List Elem} {i : UInt32} {t : Nat} {ele : Elem} (place : i.toNat = t)
    (h : field[t]? = some ele) : load field i = some ele := by
  rw [load, place, h]

theorem store_eq {field : List Elem} {i : UInt32} {t : Nat} (place : i.toNat = t)
    (inside : t < field.length) (ele : Elem) : store field i ele = some (field.set t ele) := by
  rw [store, place, if_pos inside]

/-- One turn of the inner loop adds the product of two elements that exist. -/
theorem mulStep_eq (hl : Represents left A) (hr : Represents right B)
    (shape : m.column = left.column) (i : Fin a) (j k : Fin b) {st : MulState} {old : Elem}
    (now : st.field[i.val * b + j.val]? = some old) :
    mulStep none none left right m (UInt32.ofNat (i.val * b + j.val)) st k =
      some ⟨st.field.set (i.val * b + j.val) (old + A i k * B k j), A i k, B k j⟩ := by
  have place := toNat_ofNat_position hl.count i j
  have turn := toNat_ofNat_column hl.column k
  obtain ⟨div, mod⟩ := div_mod_position i j
  have width : m.column.toNat = b := by rw [shape, hl.column]
  have line : (matrix2dIndex2line m (UInt32.ofNat (i.val * b + j.val))).toNat = i := by
    rw [matrix2dIndex2line, UInt32.toNat_div, place, width, div]
  have column : (matrix2dIndex2column m (UInt32.ofNat (i.val * b + j.val))).toNat = j := by
    rw [matrix2dIndex2column, UInt32.toNat_mod, place, width, mod]
  obtain ⟨inside, _⟩ := List.getElem?_eq_some_iff.mp now
  simp only [mulStep, hl.query i k line turn, hr.query k j turn column, load_eq place now,
    store_eq place inside, Option.bind_eq_bind, Option.bind_some, Option.pure_def,
    Option.getD_none]

/-- What turn `k` of the inner loop adds. -/
def summand (A : Matrix (Fin a) (Fin b) Elem) (B : Matrix (Fin b) (Fin b) Elem) (i : Fin a)
    (j : Fin b) (k : Nat) : Elem := if h : k < b then A i ⟨k, h⟩ * B ⟨k, h⟩ j else 0

theorem sum_summand (i : Fin a) (j : Fin b) :
    ∑ k ∈ Finset.range b, summand A B i j k = (A * B) i j := by
  rw [Finset.sum_range, Matrix.mul_apply]
  exact Finset.sum_congr rfl fun k _ => dif_pos k.isLt

/-- The inner loop writes the next element of the product. -/
theorem mulLine_eq (hl : Represents left A) (hr : Represents right B)
    (shape : m.column = left.column) {t : Nat} (inside : t < a * b) {st : MulState}
    (now : st.field = filled (entry (A * B)) (a * b) t) :
    ∃ st', mulLine none none left right m st t = some st' ∧
      st'.field = filled (entry (A * B)) (a * b) (t + 1) := by
  obtain ⟨i, j, rfl⟩ := position_split inside
  have next (v : Elem) := @filled_next (entry (A * B)) (a * b) _ inside v
  have start : st.field = (filled (entry (A * B)) (a * b) (i.val * b + j.val)).set
      (i.val * b + j.val) (∑ k ∈ Finset.range 0, summand A B i j k) := by
    rw [Finset.sum_range_zero, (next 0).2.1, now]
  have step (k : Nat) (less : k < b) (st : MulState) (sofar : st.field =
      (filled (entry (A * B)) (a * b) (i.val * b + j.val)).set (i.val * b + j.val)
        (∑ k ∈ Finset.range k, summand A B i j k)) :
      ∃ st', mulStep none none left right m (UInt32.ofNat (i.val * b + j.val)) st k = some st' ∧
        st'.field = (filled (entry (A * B)) (a * b) (i.val * b + j.val)).set (i.val * b + j.val)
          (∑ k ∈ Finset.range (k + 1), summand A B i j k) := by
    have value : st.field[i.val * b + j.val]? =
        some (∑ k ∈ Finset.range k, summand A B i j k) := by rw [sofar, (next _).1]
    refine ⟨_, mulStep_eq hl hr shape i j ⟨k, less⟩ value, ?_⟩
    have here : summand A B i j k = A i ⟨k, less⟩ * B ⟨k, less⟩ j := dif_pos less
    rw [sofar, List.set_set, Finset.sum_range_succ, here]
  obtain ⟨st', run, done⟩ := foldlM_range
    (mulStep none none left right m (UInt32.ofNat (i.val * b + j.val))) _ start step
  refine ⟨st', ?_, ?_⟩
  · rw [mulLine, hl.column, run]
  · rw [done, sum_summand, ← entry_position (A * B), (next 0).2.2]

theorem matrix2dAlloc_eq {line column : UInt32} (hl : line.toNat = a) (hc : column.toNat = b)
    (ha : 0 < a) (hb : 0 < b) (small : a * b < 2 ^ 32) : matrix2dAlloc line column =
      some ⟨column, line, List.replicate (a * b) 0⟩ ∧ (line * column).toNat = a * b := by
  have some : ¬ (0 = column ∨ 0 = line) := by
    rintro (rfl | rfl)
    · exact absurd hc hb.ne
    · exact absurd hl ha.ne
  have size : (line * column).toNat = a * b := by
    rw [UInt32.toNat_mul, hl, hc]
    omega
  exact ⟨by rw [matrix2dAlloc, if_neg some, size], size⟩

/-- The product with a matrix that is as wide as the left one. -/
theorem matrix2dMul_square (hl : Represents left A) (hr : Represents right B) (ha : 0 < a)
    (hb : 0 < b) (eleLeft eleRight : Elem) : ∃ m,
      matrix2dMul none none eleLeft eleRight left right = some (some m) ∧
        Represents m (A * B) := by
  have inner : ¬ left.column ≠ right.line :=
    not_not.mpr (UInt32.toNat_inj.mp (hl.column.trans hr.line.symm))
  obtain ⟨made, size⟩ := matrix2dAlloc_eq hl.line hl.column ha hb hl.count
  have start : List.replicate (a * b) 0 = filled (entry (A * B)) (a * b) 0 := rfl
  obtain ⟨st, run, done⟩ := foldlM_range (mulLine none none left right
      ⟨left.column, left.line, List.replicate (a * b) 0⟩)
    (fun t st => st.field = filled (entry (A * B)) (a * b) t) (n := a * b)
    (s := ⟨List.replicate (a * b) 0, eleLeft, eleRight⟩) start
    fun t inside st now => mulLine_eq hl hr rfl inside now
  refine ⟨⟨left.column, left.line, st.field⟩, ?_, ?_⟩
  · rw [matrix2dMul, if_neg inner, made]
    dsimp only
    rw [size, run, Option.map_some]
  · rw [done]
    exact represents_filled hl.line hl.column hl.count (entry_position (A * B))

end Product

section Transpose
variable {a b : Nat} {src : Matrix2d} {A : Matrix (Fin a) (Fin b) Elem}

/-- The transpose as far as it has been written, and `off`. -/
def Written (A : Matrix (Fin a) (Fin b) Elem) (t : Nat) (st : List Elem × UInt32) : Prop :=
  st.1 = filled (entry A.transpose) (b * a) t ∧ st.2.toNat = t

/-- One turn of the inner loop writes the next element. -/
theorem transportStep_eq (h : Represents src A) (i : Fin b) (j : Fin a) {st : List Elem × UInt32}
    (now : Written A (i.val * a + j.val) st) :
    ∃ st', transportStep src i st j = some st' ∧ Written A (i.val * a + (j.val + 1)) st' := by
  obtain ⟨fields, off⟩ := now
  have count := h.count
  have inside := position_lt i j
  have read := position_lt j i
  have width := h.column
  have line := toNat_ofNat_column h.line j
  have column := toNat_ofNat_column h.column i
  have place : (UInt32.ofNat j.val * src.column + UInt32.ofNat i.val).toNat =
      j.val * b + i.val := by
    rw [UInt32.toNat_add, UInt32.toNat_mul, line, column, width]
    omega
  have room : i.val * a + j.val < st.1.length := by
    rw [fields, length_filled (by omega)]
    omega
  have value : A j i = entry A.transpose (i.val * a + j.val) :=
    (entry_position A.transpose i j).symm
  have next := (@filled_next (entry A.transpose) (b * a) _ inside 0).2.2
  refine ⟨(st.1.set (i.val * a + j.val) (A j i), st.2 + 1), ?_, ?_⟩
  · simp only [transportStep, load_eq place (h.elements j i), store_eq off room,
      Option.bind_eq_bind, Option.bind_some, Option.pure_def]
  · constructor
    · rw [fields, value, next, Nat.add_assoc]
    · rw [Nat.mul_comm b a] at inside
      change (st.2 + 1).toNat = _
      rw [UInt32.toNat_add, off]
      change (i.val * a + j.val + 1) % 2 ^ 32 = _
      omega

theorem transportLine_eq (h : Represents src A) (i : Fin b) {st : List Elem × UInt32}
    (now : Written A (i.val * a) st) :
    ∃ st', transportLine src st i = some st' ∧ Written A ((i.val + 1) * a) st' := by
  obtain ⟨st', run, done⟩ := foldlM_range (transportStep src i)
    (fun j st => Written A (i.val * a + j) st) now
    fun j less st sofar => transportStep_eq h i ⟨j, less⟩ sofar
  refine ⟨st', ?_, ?_⟩
  · rw [transportLine, h.line, run]
  · rw [Nat.succ_mul]
    exact done

/-- `matrix2d_transport` makes the transpose. -/
theorem matrix2dTransport_eq (h : Represents src A) (ha : 0 < a) (hb : 0 < b) :
    ∃ m, matrix2dTransport src = some (some m) ∧ Represents m A.transpose := by
  have count : b * a < 2 ^ 32 := Nat.mul_comm a b ▸ h.count
  obtain ⟨made, _⟩ := matrix2dAlloc_eq h.column h.line hb ha count
  have start : Written A (0 * a) (List.replicate (b * a) 0, 0) :=
    ⟨by rw [Nat.zero_mul]; rfl, by rw [Nat.zero_mul]; rfl⟩
  obtain ⟨st, run, done, _⟩ := foldlM_range (transportLine src) (fun i st => Written A (i * a) st)
    start fun i less st now => transportLine_eq h ⟨i, less⟩ now
  refine ⟨⟨src.line, src.column, st.1⟩, ?_, ?_⟩
  · rw [matrix2dTransport, made]
    dsimp only
    rw [h.column, run, Option.map_some]
  · rw [done]
    exact represents_filled h.column h.line count (entry_position A.transpose)

end Transpose

section Law
variable {a b c : Nat} {left right : Matrix2d}

/-- The product in memory is the mathematical product, and no element that does not exist is
read. -/
def ProductLaw (left right : Matrix2d) (A : Matrix (Fin a) (Fin b) Elem)
    (B : Matrix (Fin b) (Fin c) Elem) : Prop :=
  ∀ eleLeft eleRight, ∃ m, matrix2dMul none none eleLeft eleRight left right = some (some m) ∧
    Represents m (A * B)

/-- The transpose of the product is the product of the transposes in reverse order. -/
def TransposeLaw (left right : Matrix2d) : Prop :=
  ∀ eleLeft eleRight, ∃ product leftT rightT transposed,
    matrix2dMul none none eleLeft eleRight left right = some (some product) ∧
    matrix2dTransport left = some (some leftT) ∧ matrix2dTransport right = some (some rightT) ∧
    matrix2dTransport product = some (some transposed) ∧
    matrix2dMul none none eleLeft eleRight rightT leftT = some (some transposed)

theorem matrix2dAlloc_shape {line column : UInt32} {m : Matrix2d}
    (h : matrix2dAlloc line column = some m) : m.line = line ∧ m.column = column := by
  rw [matrix2dAlloc] at h
  split at h
  · cases h
  · rw [← Option.some.inj h]
    exact ⟨rfl, rfl⟩

/-- The result is allocated in the shape of the left matrix. -/
theorem matrix2dMul_shape {mulfn addfn : Option (Elem → Elem → Elem)} {eleLeft eleRight : Elem}
    {m : Matrix2d} (h : matrix2dMul mulfn addfn eleLeft eleRight left right = some (some m)) :
    m.line = left.line ∧ m.column = left.column := by
  rw [matrix2dMul] at h
  split at h
  · cases h
  · split at h
    · cases h
    · rename_i made
      obtain ⟨st, _, same⟩ := Option.map_eq_some_iff.mp h
      obtain ⟨line, column⟩ := matrix2dAlloc_shape made
      rw [← Option.some.inj same]
      exact ⟨line, column⟩

theorem matrix2dTransport_shape {src m : Matrix2d} (h : matrix2dTransport src = some (some m)) :
    m.line = src.column ∧ m.column = src.line := by
  rw [matrix2dTransport] at h
  split at h
  · cases h
  · rename_i made
    obtain ⟨st, _, same⟩ := Option.map_eq_some_iff.mp h
    obtain ⟨line, column⟩ := matrix2dAlloc_shape made
    rw [← Option.some.inj same]
    exact ⟨line, column⟩

variable {A : Matrix (Fin a) (Fin b) Elem} {B : Matrix (Fin b) (Fin c) Elem}

/-- The product law holds for right matrices that are as wide as the left one. -/
theorem productLaw_iff (hl : Represents left A) (hr : Represents right B) (ha : 0 < a)
    (hb : 0 < b) : ProductLaw left right A B ↔ b = c := by
  constructor
  · intro law
    obtain ⟨m, made, product⟩ := law 0 0
    rw [← hl.column, ← product.column, (matrix2dMul_shape made).2]
  · rintro rfl eleLeft eleRight
    exact matrix2dMul_square hl hr ha hb eleLeft eleRight

/-- The law of the transpose holds for square matrices. -/
theorem transposeLaw_iff (hl : Represents left A) (hr : Represents right B) (ha : 0 < a)
    (hb : 0 < b) : TransposeLaw left right ↔ a = b ∧ b = c := by
  constructor
  · intro law
    obtain ⟨product, leftT, rightT, transposed, made, _, turnedR, turned, reversed⟩ := law 0 0
    obtain ⟨line, column⟩ := matrix2dMul_shape made
    obtain ⟨lineR, columnR⟩ := matrix2dTransport_shape turnedR
    obtain ⟨lineT, columnT⟩ := matrix2dTransport_shape turned
    obtain ⟨line', column'⟩ := matrix2dMul_shape reversed
    constructor
    · rw [← hl.line, ← hr.line, ← columnR, ← column', columnT, line]
    · rw [← hl.column, ← hr.column, ← lineR, ← line', lineT, column]
  · rintro ⟨rfl, rfl⟩ eleLeft eleRight
    obtain ⟨product, made, hp⟩ := matrix2dMul_square hl hr ha hb eleLeft eleRight
    obtain ⟨leftT, turnedL, hlT⟩ := matrix2dTransport_eq hl ha hb
    obtain ⟨rightT, turnedR, hrT⟩ := matrix2dTransport_eq hr ha hb
    obtain ⟨transposed, turned, hT⟩ := matrix2dTransport_eq hp ha hb
    obtain ⟨reversed, back, hR⟩ := matrix2dMul_square hrT hlT ha hb eleLeft eleRight
    rw [← Matrix.transpose_mul] at hR
    exact ⟨product, leftT, rightT, transposed, made, turnedL, turnedR, turned, hT.eq hR ▸ back⟩

/-- When the two laws of the product hold in memory. -/
theorem matrix_laws (hl : Represents left A) (hr : Represents right B)
    (positive : 0 < a ∧ 0 < b ∧ 0 < c) :
    (ProductLaw left right A B ↔ b = c) ∧ (TransposeLaw left right ↔ a = b ∧ b = c) :=
  ⟨productLaw_iff hl hr positive.1 positive.2.1, transposeLaw_iff hl hr positive.1 positive.2.1⟩

/-- A line of one element and a line of two. -/
def one : Matrix2d := ⟨1, 1, [2]⟩

def two : Matrix2d := ⟨2, 1, [3, 5]⟩

theorem represents_one : Represents one (Matrix.of fun _ _ => 2 : Matrix (Fin 1) (Fin 1) Elem) :=
  ⟨rfl, rfl, by decide, rfl, by decide⟩

theorem represents_two :
    Represents two (Matrix.of fun _ j => [3, 5].getD j.val 0 : Matrix (Fin 1) (Fin 2) Elem) :=
  ⟨rfl, rfl, by decide, rfl, by decide⟩

/-- Two lines of two elements. -/
def four : Matrix2d := ⟨2, 2, [2, 3, 5, 7]⟩

theorem represents_four : Represents four
    (Matrix.of fun i j => [2, 3, 5, 7].getD (2 * i.val + j.val) 0 :
      Matrix (Fin 2) (Fin 2) Elem) :=
  ⟨rfl, rfl, by decide, rfl, by decide⟩

theorem matrix_laws_four :
    ProductLaw four four
      (Matrix.of fun i j => [2, 3, 5, 7].getD (2 * i.val + j.val) 0 : Matrix (Fin 2) (Fin 2) Elem)
      (Matrix.of fun i j => [2, 3, 5, 7].getD (2 * i.val + j.val) 0 : Matrix (Fin 2) (Fin 2) Elem) ∧
    TransposeLaw four four :=
  (matrix_laws represents_four represents_four (by decide)).imp (fun law => law.mpr rfl)
    fun law => law.mpr ⟨rfl, rfl⟩

/-- The product of an element and a line of two is allocated with one element. -/
theorem product_narrow :
    ¬ ProductLaw one two (Matrix.of fun _ _ => 2 : Matrix (Fin 1) (Fin 1) Elem)
      (Matrix.of fun _ j => [3, 5].getD j.val 0 : Matrix (Fin 1) (Fin 2) Elem) ∧
    ¬ TransposeLaw one two := by
  rw [productLaw_iff represents_one represents_two (by decide) (by decide),
    transposeLaw_iff represents_one represents_two (by decide) (by decide)]
  decide

end Law

end MatrixMemory
