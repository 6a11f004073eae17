import Cfgd.MatrixMemory

/-!
# Matrices and the memory behind them

The number of elements that is allocated is a product of 32-bit numbers, which may wrap. The
positions stay inside what was allocated if and only if it does not.
-/

namespace MatrixBounds

open MatrixMemory

section Source
variable {σ : Type}

/-- `matrixed_iterator_fp`: the element and the arguments after the call. -/
abbrev Iterator (σ : Type) := Elem → UInt32 → σ → Elem × σ

/-- The iterator is given the element at `loc`. -/
def iterateAt (iterator : Iterator σ) (st : List Elem × σ) (loc : UInt32) :
    Option (List Elem × σ) := do
  let ele ← load st.1 loc
  let field ← store st.1 loc (iterator ele loc st.2).1
  return (field, (iterator ele loc st.2).2)

/-- The matrix and the arguments of the iterator afterwards. -/
def matrix2dIterateLine (m : Matrix2d) (line : UInt32) (iterator : Option (Iterator σ)) (args : σ) :
    Option (Matrix2d × σ) :=
  match iterator with
  | none => some (m, args)
  | some iterator =>
    if line < m.line then
      ((List.range m.column.toNat).foldlM
        (fun st i => iterateAt iterator st (m.column * line + UInt32.ofNat i))
        (m.field, args)).map fun st => ({ m with field := st.1 }, st.2)
    else some (m, args)

def matrix2dIterateColumn (m : Matrix2d) (column : UInt32) (iterator : Option (Iterator σ))
    (args : σ) : Option (Matrix2d × σ) :=
  match iterator with
  | none => some (m, args)
  | some iterator =>
    if column < m.column then
      ((List.range m.line.toNat).foldlM
        (fun st i => iterateAt iterator st (UInt32.ofNat i * m.column + column))
        (m.field, args)).map fun st => ({ m with field := st.1 }, st.2)
    else some (m, args)

/-- `some none` where NULL is returned. -/
def matrix2dMakeIdentity (scale : UInt32) : Option (Option Matrix2d) :=
  if 0 = scale then some none
  else
    match matrix2dAlloc scale scale with
    | none => some none
    | some m =>
      ((List.range scale.toNat).foldlM
        (fun field i => store field (UInt32.ofNat i * scale + UInt32.ofNat i) 1) m.field).map
        fun field => some { m with field := field }

end Source

section Positions
variable {σ : Type} {m : Matrix2d} {count n : Nat}

theorem iterateAt_eq (iterator : Iterator σ) {st : List Elem × σ} {loc : UInt32}
    (inside : loc.toNat < st.1.length) : iterateAt iterator st loc =
      some (st.1.set loc.toNat (iterator st.1[loc.toNat] loc st.2).1,
        (iterator st.1[loc.toNat] loc st.2).2) := by
  simp only [iterateAt, load_eq rfl (List.getElem?_eq_getElem inside), store_eq rfl inside,
    Option.bind_eq_bind, Option.bind_some, Option.pure_def]

/-- A loop of calls at positions that exist goes through. -/
theorem iterate_some (iterator : Iterator σ) (loc : Nat → UInt32) {st : List Elem × σ}
    (inside : ∀ k < n, (loc k).toNat < st.1.length) :
    ∃ st', (List.range n).foldlM (fun st k => iterateAt iterator st (loc k)) st = some st' := by
  obtain ⟨st', run, _⟩ := foldlM_range (fun st k => iterateAt iterator st (loc k))
    (fun _ st' => st'.1.length = st.1.length) (s := st) rfl fun k less st' same => by
      have place : (loc k).toNat < st'.1.length := by
        rw [same]
        exact inside k less
      refine ⟨_, iterateAt_eq iterator place, ?_⟩
      rw [List.length_set, same]
  exact ⟨st', run⟩

/-- A position of a matrix whose elements can be counted. -/
theorem position_eq (small : m.line.toNat * m.column.toNat < 2 ^ 32) {l c : UInt32}
    (hl : l < m.line)
    (hc : c < m.column) : (l * m.column + c).toNat = l.toNat * m.column.toNat + c.toNat ∧
      l.toNat * m.column.toNat + c.toNat < m.line.toNat * m.column.toNat := by
  have inside := position_lt (⟨l.toNat, UInt32.lt_iff_toNat_lt.mp hl⟩ : Fin m.line.toNat)
    (⟨c.toNat, UInt32.lt_iff_toNat_lt.mp hc⟩ : Fin m.column.toNat)
  dsimp only at inside
  refine ⟨?_, inside⟩
  rw [UInt32.toNat_add, UInt32.toNat_mul]
  omega

theorem ofNat_lt {bound : UInt32} {k : Nat} (less : k < bound.toNat) :
    UInt32.ofNat k < bound ∧ (UInt32.ofNat k).toNat = k := by
  have same := @toNat_ofNat_column bound.toNat bound rfl ⟨k, less⟩
  exact ⟨by rw [UInt32.lt_iff_toNat_lt, same]; exact less, same⟩

end Positions

section Law
variable {m : Matrix2d} {line column : UInt32} {field : List Elem}

/-- Every position of the matrix is computed as it is and exists, and what reads and writes
the elements stays inside. -/
structure Contained (m : Matrix2d) : Prop where
  positions : ∀ l c : UInt32, l < m.line → c < m.column →
    (l * m.column + c).toNat = l.toNat * m.column.toNat + c.toNat ∧
      (l * m.column + c).toNat < m.field.length
  query : ∀ line column output, matrix2dQueryElement m line column output ≠ none
  iterateLine : ∀ (σ : Type) (iterator : Option (Iterator σ)) (line : UInt32) (args : σ),
    matrix2dIterateLine m line iterator args ≠ none
  iterateColumn : ∀ (σ : Type) (iterator : Option (Iterator σ)) (column : UInt32) (args : σ),
    matrix2dIterateColumn m column iterator args ≠ none
  transport : matrix2dTransport m ≠ none
  identity : m.line = m.column → matrix2dMakeIdentity m.line ≠ none

/-- What is allocated for a matrix. -/
theorem matrix2dAlloc_size (made : matrix2dAlloc line column = some m) : m.line = line ∧
    m.column = column ∧ 0 < line.toNat ∧ 0 < column.toNat ∧
      m.field.length = line.toNat * column.toNat % 2 ^ 32 := by
  obtain ⟨hl, hc⟩ := matrix2dAlloc_shape made
  rw [matrix2dAlloc] at made
  split at made
  · cases made
  · rename_i positive
    obtain ⟨columns, lines⟩ := not_or.mp positive
    have apart : ∀ n : UInt32, 0 ≠ n → 0 < n.toNat := by
      intro n other
      refine Nat.pos_of_ne_zero fun zero => other ?_
      exact (UInt32.toNat_inj.mp (zero.trans UInt32.toNat_zero.symm)).symm
    refine ⟨hl, hc, apart line lines, apart column columns, ?_⟩
    rw [← Option.some.inj made, List.length_replicate, UInt32.toNat_mul]

/-- The last position of a matrix that wraps is computed wrong, or does not exist. -/
theorem small_of_positions (lines : 0 < m.line.toNat) (columns : 0 < m.column.toNat)
    (size : m.field.length = m.line.toNat * m.column.toNat % 2 ^ 32)
    (positions : ∀ l c : UInt32, l < m.line → c < m.column →
      (l * m.column + c).toNat = l.toNat * m.column.toNat + c.toNat ∧
        (l * m.column + c).toNat < m.field.length) :
    m.line.toNat * m.column.toNat < 2 ^ 32 := by
  obtain ⟨hl, line⟩ := ofNat_lt (Nat.sub_lt lines Nat.zero_lt_one)
  obtain ⟨hc, column⟩ := ofNat_lt (Nat.sub_lt columns Nat.zero_lt_one)
  obtain ⟨same, inside⟩ := positions _ _ hl hc
  have word := (UInt32.ofNat (m.line.toNat - 1) * m.column +
    UInt32.ofNat (m.column.toNat - 1)).toNat_lt
  rw [same, line, column] at inside word
  have last : (m.line.toNat - 1) * m.column.toNat + (m.column.toNat - 1) + 1 =
      m.line.toNat * m.column.toNat := by
    obtain ⟨k, hk⟩ := Nat.exists_eq_succ_of_ne_zero lines.ne'
    rw [hk, Nat.succ_sub_one, Nat.succ_mul]
    omega
  rw [size] at inside
  omega

/-- The elements of a matrix whose number does not wrap. -/
theorem represents_allocated (small : m.line.toNat * m.column.toNat < 2 ^ 32)
    (size : m.field.length = m.line.toNat * m.column.toNat) :
    ∃ A : Matrix (Fin m.line.toNat) (Fin m.column.toNat) Elem, Represents m A := by
  refine ⟨fun i j => m.field.getD (i.val * m.column.toNat + j.val) 0, rfl, rfl, small, size, ?_⟩
  intro i j
  have inside : i.val * m.column.toNat + j.val < m.field.length := by
    rw [size]
    exact position_lt i j
  rw [List.getD_eq_getElem?_getD, List.getElem?_eq_getElem inside, Option.getD_some]

theorem identity_some {scale : UInt32} (positive : 0 < scale.toNat)
    (small : scale.toNat * scale.toNat < 2 ^ 32) : matrix2dMakeIdentity scale ≠ none := by
  have other : ¬ 0 = scale := by
    rintro rfl
    exact absurd positive (Nat.lt_irrefl 0)
  obtain ⟨made, size⟩ := @matrix2dAlloc_eq _ _ scale scale rfl rfl positive
    positive small
  have start : (List.replicate (scale.toNat * scale.toNat) (0 : Elem)).length =
      scale.toNat * scale.toNat := List.length_replicate
  obtain ⟨field, run, _⟩ := foldlM_range
    (fun field i => store field (UInt32.ofNat i * scale + UInt32.ofNat i) 1)
    (fun _ field => field.length = scale.toNat * scale.toNat) start fun k less field same => by
      obtain ⟨here, _⟩ := ofNat_lt less
      obtain ⟨place, inside⟩ := @position_eq ⟨scale, scale, []⟩ small _ _ here here
      refine ⟨field.set _ 1, store_eq rfl ?_ 1, by rw [List.length_set, same]⟩
      rw [same]
      exact place ▸ inside
  rw [matrix2dMakeIdentity, if_neg other, made]
  dsimp only
  rw [run]
  exact Option.some_ne_none _

theorem contained_of_small (lines : 0 < m.line.toNat) (columns : 0 < m.column.toNat)
    (small : m.line.toNat * m.column.toNat < 2 ^ 32)
    (size : m.field.length = m.line.toNat * m.column.toNat) : Contained m := by
  obtain ⟨A, represents⟩ := represents_allocated small size
  have exists' : ∀ l c : UInt32, l < m.line → c < m.column →
      (l * m.column + c).toNat = l.toNat * m.column.toNat + c.toNat ∧
        (l * m.column + c).toNat < m.field.length := by
    intro l c hl hc
    obtain ⟨place, inside⟩ := position_eq small hl hc
    rw [size, place]
    exact ⟨rfl, inside⟩
  refine ⟨exists', ?_, ?_, ?_, ?_, ?_⟩
  · intro l c output
    by_cases out : c ≥ m.column ∨ l ≥ m.line
    · rw [matrix2dQueryElement, if_pos out]
      exact Option.some_ne_none _
    · obtain ⟨hc, hl⟩ := not_or.mp out
      have inside := (exists' l c (UInt32.not_le.mp hl) (UInt32.not_le.mp hc)).2
      rw [matrix2dQueryElement, if_neg out, load_eq rfl (List.getElem?_eq_getElem inside)]
      exact Option.some_ne_none _
  · intro σ iterator l args
    cases iterator with
    | none => exact Option.some_ne_none _
    | some iterator =>
      rw [matrix2dIterateLine]
      split
      · rename_i hl
        obtain ⟨st, run⟩ := @iterate_some σ _ iterator
          (fun i => m.column * l + UInt32.ofNat i) (m.field, args) fun k less => by
            have same : m.column * l + UInt32.ofNat k = l * m.column + UInt32.ofNat k := by
              rw [UInt32.mul_comm]
            rw [same]
            exact (exists' _ _ hl (ofNat_lt less).1).2
        rw [run]
        exact Option.some_ne_none _
      · exact Option.some_ne_none _
  · intro σ iterator c args
    cases iterator with
    | none => exact Option.some_ne_none _
    | some iterator =>
      rw [matrix2dIterateColumn]
      split
      · rename_i hc
        obtain ⟨st, run⟩ := @iterate_some σ _ iterator
          (fun i => UInt32.ofNat i * m.column + c) (m.field, args) fun k less =>
            (exists' _ _ (ofNat_lt less).1 hc).2
        rw [run]
        exact Option.some_ne_none _
      · exact Option.some_ne_none _
  · obtain ⟨transposed, made, _⟩ := matrix2dTransport_eq represents lines columns
    rw [made]
    exact Option.some_ne_none _
  · intro square
    rw [← square] at small
    exact identity_some lines small

/-- A matrix stays inside its memory if and only if the number of its elements does not wrap. -/
theorem contained_iff_small (made : matrix2dAlloc line column = some m)
    (size : field.length = m.field.length) :
    Contained { m with field := field } ↔ line.toNat * column.toNat < 2 ^ 32 := by
  obtain ⟨rfl, rfl, lines, columns, allocated⟩ := matrix2dAlloc_size made
  constructor
  · intro contained
    exact @small_of_positions { m with field := field } lines columns (size.trans allocated)
      contained.positions
  · intro small
    rw [Nat.mod_eq_of_lt small] at allocated
    exact @contained_of_small { m with field := field } lines columns small (size.trans allocated)

theorem contained_iff_small_two : Contained ⟨2, 1, [3, 5]⟩ ↔ 1 * 2 < 2 ^ 32 :=
  @contained_iff_small ⟨2, 1, [0, 0]⟩ 1 2 [3, 5] rfl rfl

/-- A matrix of 65536 lines and columns is allocated with no element at all. -/
theorem wrapped_not_contained : ¬ ∀ (line column : UInt32) (m : Matrix2d),
    matrix2dAlloc line column = some m → Contained m := by
  intro claim
  have made : matrix2dAlloc 65536 65536 = some ⟨65536, 65536, []⟩ := by decide +kernel
  have outside : matrix2dQueryElement ⟨65536, 65536, []⟩ 0 0 0 = none := by decide +kernel
  exact (claim _ _ _ made).query 0 0 0 outside

end Law

end MatrixBounds
