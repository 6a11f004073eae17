import Mathlib.Data.List.Induction
import Cfgd.LittleEndian
import Cfgd.CText

/-!
# IPv4 addresses as text

`naos_is_legal_ipv4` scans a text byte by byte, `naos_ipv4tou` reads a legal one into a
word and `naos_ipv4tos` prints a word into a buffer of 16 bytes, of which `abuff_sprintf`
offers `snprintf` all but one.
-/

namespace Ipv4Text

open CText

section Source

/-- The loop of `naos_is_legal_ipv4` and its last tests. `row` is `segm[k]`, the only row that
is looked at; the next one is still zero. -/
def scan : Bytes → Nat → Nat → Nat → Bytes → Bool
  | [], _, j, k, row =>
    if 3 ≠ k ∨ 0 = j then false
    else if atoi row > 255 then false
    else true
  | c :: cursor, i, j, k, row =>
    if 15 = i ∨ k > 3 then false
    else if c = 46 then
      -- `0 == segm[k]` compares the address of the row, which is not NULL
      if atoi row > 255 then false
      else scan cursor (i + 1) 0 (k + 1) []
    else if isdigit c then
      if j ≥ 3 then false
      else scan cursor (i + 1) (j + 1) k (row ++ [c])
    else false

def naosIsLegalIpv4 (inetstr : Bytes) : Bool := scan inetstr 0 0 0 []

inductive ByteOrder
  | littleEndian
  | bigEndian

def bitMov : ByteOrder → List UInt64
  | .littleEndian => [24, 16, 8, 0]
  | .bigEndian => [0, 8, 16, 24]

/-- `strtok_r` with the delimiter ".": the token and what is left to look at. -/
def strtok (text : Bytes) : Option (Bytes × Bytes) :=
  match text.dropWhile (· = 46) with
  | [] => none
  | start => some (start.takeWhile (· ≠ 46), (start.dropWhile (· ≠ 46)).drop 1)

/-- `strtoul` on a string of digits. -/
def strtoul (s : Bytes) : UInt64 := UInt64.ofNat (min (digitsValue s) (2 ^ 64 - 1))

/-- The loop over the tokens, one shift each. -/
def gather : List UInt64 → Bytes → UInt64 → UInt64
  | [], _, digital => digital
  | mov :: movs, text, digital =>
    match strtok text with
    | none => digital
    | some (p, nextToken) => gather movs nextToken (digital ||| strtoul p <<< mov)

def naosIpv4tou (inetstr : Bytes) (method : ByteOrder) : UInt32 :=
  if !naosIsLegalIpv4 inetstr then 0
  else (gather (bitMov method) inetstr 0).toUInt32

/-- The bytes of the word, lowest first. -/
def inetby : Nat → UInt32 → List UInt8
  | 0, _ => []
  | n + 1, inet => (inet &&& 0xFF).toUInt8 :: inetby n (inet >>> 8)

/-- "%hhu.%hhu.%hhu.%hhu", and what `snprintf` keeps of it in 15 bytes. -/
def naosIpv4tos (inet : UInt32) : Bytes :=
  (List.intercalate [46] ((inetby 4 inet).reverse.map fun b => printInt b.toNat)).take 14

end Source

section Grammar

/-- Four groups with dots between them. -/
def dotted (a b c d : Bytes) : Bytes := a ++ 46 :: (b ++ 46 :: (c ++ 46 :: d))

/-- A decimal group of one to three digits with a value of at most 255. -/
structure Group (g : Bytes) : Prop where
  nonempty : 1 ≤ g.length
  short : g.length ≤ 3
  digits : ∀ b ∈ g, isdigit b = true
  value : digitsValue g ≤ 255

def IsIpv4 (s : Bytes) : Prop :=
  ∃ a b c d, s = dotted a b c d ∧ Group a ∧ Group b ∧ Group c ∧ Group d

/-- What the scanner lets pass for a group: it may be empty. -/
structure Fits (g : Bytes) : Prop where
  short : g.length ≤ 3
  digits : ∀ b ∈ g, isdigit b = true
  value : atoi g ≤ 255

/-- Four groups, of which one of the first three is empty. -/
def EmptyGroup (s : Bytes) : Prop :=
  ∃ a b c d, s = dotted a b c d ∧ Fits a ∧ Fits b ∧ Fits c ∧ Group d ∧
    (a = [] ∨ b = [] ∨ c = [])

theorem takeWhile_digits {g : Bytes} (digits : ∀ b ∈ g, isdigit b = true) :
    g.takeWhile isdigit = g := List.takeWhile_eq_self_iff.mpr digits

theorem digit_value {c : UInt8} (h : isdigit c = true) : c.toNat - 48 ≤ 9 := by
  simp only [isdigit, Bool.and_eq_true, decide_eq_true_eq, UInt8.le_iff_toNat_le] at h
  change 48 ≤ c.toNat ∧ c.toNat ≤ 57 at h
  omega

theorem digitsValue_lt {g : Bytes} (digits : ∀ b ∈ g, isdigit b = true) :
    digitsValue g < 10 ^ g.length := by
  rw [digitsValue, takeWhile_digits digits]
  induction g using List.reverseRecOn with
  | nil => decide
  | append_singleton front c ih =>
    have before := ih fun b mem => digits b (List.mem_append_left _ mem)
    have last := digit_value (digits c (List.mem_append_right _ List.mem_cons_self))
    rw [List.foldl_append, List.length_append, List.length_singleton, Nat.pow_succ,
      List.foldl_cons, List.foldl_nil]
    omega

theorem atoi_of_short {g : Bytes} (short : g.length ≤ 3) (digits : ∀ b ∈ g, isdigit b = true) :
    atoi g = digitsValue g := by
  have small : digitsValue g < 1000 :=
    (digitsValue_lt digits).trans_le (Nat.pow_le_pow_right (by decide) short)
  rw [atoi, ← digitsValue]
  have narrow : min (digitsValue g) (2 ^ 63 - 1) = digitsValue g := by omega
  have same : (BitVec.ofNat 32 (digitsValue g)).toNat = digitsValue g := by
    rw [BitVec.toNat_ofNat]
    omega
  rw [narrow, BitVec.toInt_eq_toNat_of_lt (by omega), same]

theorem group_iff (g : Bytes) : Group g ↔ Fits g ∧ g ≠ [] := by
  constructor
  · rintro ⟨nonempty, short, digits, value⟩
    refine ⟨⟨short, digits, ?_⟩, List.ne_nil_of_length_pos nonempty⟩
    rw [atoi_of_short short digits]
    exact Int.ofNat_le.mpr value
  · rintro ⟨⟨short, digits, value⟩, nonempty⟩
    rw [atoi_of_short short digits] at value
    exact ⟨List.length_pos_iff.mpr nonempty, short, digits, Int.ofNat_le.mp value⟩

end Grammar

section Scan

/-- The groups of a text of which `row` was read before. -/
def groups (row rest : Bytes) : List Bytes := (rest.splitOn 46).modifyHead (row ++ ·)

theorem groups_nil (row : Bytes) : groups row [] = [row] := by
  rw [groups, List.splitOn_nil, List.modifyHead_cons, List.append_nil]

theorem groups_dot (row rest : Bytes) : groups row (46 :: rest) = row :: groups [] rest := by
  rw [groups, List.splitOn_cons_eq_if_modifyHead, if_pos (beq_self_eq_true _),
    List.modifyHead_cons, List.append_nil, groups]
  cases rest.splitOn 46 with
  | nil => rfl
  | cons g later => rfl

theorem groups_other {c : UInt8} (h : c ≠ 46) (row rest : Bytes) :
    groups row (c :: rest) = groups (row ++ [c]) rest := by
  rw [groups, List.splitOn_cons_eq_if_modifyHead, if_neg (by simpa using h), groups]
  cases rest.splitOn 46 with
  | nil => rfl
  | cons g later => simp

theorem groups_head (row rest : Bytes) :
    ∃ tail later, groups row rest = (row ++ tail) :: later := by
  cases h : rest.splitOn 46 with
  | nil => exact absurd h (List.splitOn_ne_nil _ _)
  | cons g later => exact ⟨g, later, by rw [groups, h, List.modifyHead_cons]⟩

/-- What the scanner accepts from a row it has begun. -/
theorem scan_iff (rest : Bytes) {i k : Nat} {row : Bytes} (bound : i ≤ 15)
    (digits : ∀ b ∈ row, isdigit b = true) (short : row.length ≤ 3) :
    scan rest i row.length k row = true ↔
      i + rest.length ≤ 15 ∧ (groups row rest).length + k = 4 ∧
        (∀ g ∈ groups row rest, Fits g) ∧ (groups row rest).getLast? ≠ some [] := by
  induction rest generalizing i k row with
  | nil =>
    rw [scan, groups_nil]
    simp only [List.length_nil, List.length_singleton, List.mem_singleton, forall_eq,
      List.getLast?_singleton, ne_eq, Option.some.injEq]
    constructor
    · intro accepted
      split at accepted
      · cases accepted
      · rename_i shape
        split at accepted
        · cases accepted
        · rename_i value
          have some : row ≠ [] := List.ne_nil_of_length_pos (by omega)
          exact ⟨by omega, by omega, ⟨short, digits, by omega⟩, some⟩
    · rintro ⟨_, four, fits, some⟩
      have long := List.length_pos_iff.mpr some
      have value := fits.value
      rw [if_neg (by omega), if_neg (by omega)]
  | cons c rest ih =>
    rw [scan]
    by_cases stop : 15 = i ∨ k > 3
    · rw [if_pos stop]
      refine iff_of_false Bool.false_ne_true ?_
      rintro ⟨fit, four, _⟩
      obtain ⟨tail, later, shape⟩ := groups_head row (c :: rest)
      rw [shape, List.length_cons] at four
      rw [List.length_cons] at fit
      omega
    rw [if_neg stop, List.length_cons]
    by_cases dot : c = 46
    · subst dot
      rw [if_pos rfl, groups_dot]
      by_cases large : atoi row > 255
      · rw [if_pos large]
        refine iff_of_false Bool.false_ne_true ?_
        rintro ⟨_, _, fits, _⟩
        have value := (fits row List.mem_cons_self).value
        omega
      · have next := @ih (i + 1) (k + 1) [] (by omega) (by simp) (by decide)
        obtain ⟨tail, later, shape⟩ := groups_head [] rest
        rw [if_neg large]
        refine next.trans ?_
        rw [List.forall_mem_cons, List.length_cons, shape, List.getLast?_cons_cons]
        constructor
        · rintro ⟨fit, four, fits, last⟩
          exact ⟨by omega, by omega, ⟨⟨short, digits, by omega⟩, fits⟩, last⟩
        · rintro ⟨fit, four, ⟨_, fits⟩, last⟩
          exact ⟨by omega, by omega, fits, last⟩
    · rw [if_neg dot, groups_other dot]
      obtain ⟨tail, later, shape⟩ := groups_head (row ++ [c]) rest
      by_cases digit : isdigit c = true
      · rw [if_pos digit]
        by_cases full : row.length ≥ 3
        · rw [if_pos full]
          refine iff_of_false Bool.false_ne_true ?_
          rintro ⟨_, _, fits, _⟩
          have long := (fits _ (shape ▸ List.mem_cons_self)).short
          simp only [List.length_append, List.length_singleton] at long
          omega
        · have longer : (row ++ [c]).length = row.length + 1 := List.length_append
          have next := @ih (i + 1) k (row ++ [c]) (by omega)
            (List.forall_mem_append.mpr ⟨digits, List.forall_mem_singleton.mpr digit⟩) (by omega)
          rw [if_neg full, ← longer]
          refine next.trans (and_congr_left fun _ => ?_)
          omega
      · rw [if_neg digit]
        refine iff_of_false Bool.false_ne_true ?_
        rintro ⟨_, _, fits, _⟩
        refine digit ((fits _ (shape ▸ List.mem_cons_self)).digits c ?_)
        exact List.mem_append_left _ (List.mem_append_right _ List.mem_cons_self)

theorem dotted_eq (a b c d : Bytes) : dotted a b c d = List.intercalate [46] [a, b, c, d] := by
  simp [dotted, List.intercalate]

theorem Fits.free {g : Bytes} (h : Fits g) : (46 : UInt8) ∉ g :=
  fun mem => Bool.false_ne_true (h.digits 46 mem)

theorem Group.fits {g : Bytes} (h : Group g) : Fits g := ((group_iff g).mp h).1

theorem splitOn_dotted {a b c d : Bytes} (ha : Fits a) (hb : Fits b) (hc : Fits c) (hd : Fits d) :
    (dotted a b c d).splitOn 46 = [a, b, c, d] := by
  rw [dotted_eq]
  refine List.splitOn_intercalate 46 ?_ (List.cons_ne_nil _ _)
  simp only [List.forall_mem_cons]
  exact ⟨ha.free, hb.free, hc.free, hd.free, fun g mem => absurd mem List.not_mem_nil⟩

/-- The scanner accepts four groups of digits of which the last is not empty. -/
theorem legal_iff (s : Bytes) : naosIsLegalIpv4 s = true ↔
    ∃ a b c d, s = dotted a b c d ∧ Fits a ∧ Fits b ∧ Fits c ∧ Group d := by
  have start : groups [] s = s.splitOn 46 := by
    rw [groups]
    cases s.splitOn 46 <;> rfl
  have scanned := @scan_iff s 0 0 [] (by omega) (by simp) (by decide)
  rw [start] at scanned
  refine Iff.trans scanned ?_
  constructor
  · rintro ⟨_, four, fits, last⟩
    match parts : s.splitOn 46, four with
    | [a, b, c, d], _ =>
      rw [parts] at fits last
      have joined : List.intercalate [46] (s.splitOn 46) = s := List.intercalate_splitOn 46
      rw [parts, ← dotted_eq] at joined
      simp only [List.forall_mem_cons] at fits
      obtain ⟨ha, hb, hc, hd, _⟩ := fits
      exact ⟨a, b, c, d, joined.symm, ha, hb, hc, (group_iff d).mpr ⟨hd, by simpa using last⟩⟩
  · rintro ⟨a, b, c, d, rfl, ha, hb, hc, hd⟩
    rw [splitOn_dotted ha hb hc hd.fits]
    refine ⟨?_, rfl, ?_, ?_⟩
    · have lengths := And.intro ha.short (And.intro hb.short (And.intro hc.short hd.short))
      simp only [dotted, List.length_append, List.length_cons]
      omega
    · simp only [List.forall_mem_cons]
      exact ⟨ha, hb, hc, hd.fits, fun g mem => absurd mem List.not_mem_nil⟩
    · simpa using ((group_iff d).mp hd).2

theorem dotted_inj {a b c d a' b' c' d' : Bytes} (ha : Fits a) (hb : Fits b) (hc : Fits c)
    (hd : Fits d) (ha' : Fits a') (hb' : Fits b') (hc' : Fits c') (hd' : Fits d')
    (same : dotted a b c d = dotted a' b' c' d') : a = a' ∧ b = b' ∧ c = c' ∧ d = d' := by
  have parts := splitOn_dotted ha hb hc hd
  rw [same, splitOn_dotted ha' hb' hc' hd'] at parts
  simpa [eq_comm] using parts

/-- The scanner is wrong about the texts with an empty group before the last, and only
about them. -/
theorem legal_agrees (s : Bytes) : (naosIsLegalIpv4 s = true ↔ IsIpv4 s) ↔ ¬ EmptyGroup s := by
  rw [legal_iff]
  constructor
  · rintro agrees ⟨a, b, c, d, rfl, ha, hb, hc, hd, empty⟩
    obtain ⟨a', b', c', d', same, ga, gb, gc, gd⟩ := agrees.mp ⟨a, b, c, d, rfl, ha, hb, hc, hd⟩
    obtain ⟨rfl, rfl, rfl, _⟩ :=
      dotted_inj ha hb hc hd.fits ga.fits gb.fits gc.fits gd.fits same
    rcases empty with none | none | none
    · exact ((group_iff a).mp ga).2 none
    · exact ((group_iff b).mp gb).2 none
    · exact ((group_iff c).mp gc).2 none
  · intro full
    constructor
    · rintro ⟨a, b, c, d, rfl, ha, hb, hc, hd⟩
      have some {g : Bytes} (fits : Fits g) (filled : g ≠ []) : Group g :=
        (group_iff g).mpr ⟨fits, filled⟩
      refine ⟨a, b, c, d, rfl, some ha ?_, some hb ?_, some hc ?_, hd⟩
      · exact fun none => full ⟨a, b, c, d, rfl, ha, hb, hc, hd, Or.inl none⟩
      · exact fun none => full ⟨a, b, c, d, rfl, ha, hb, hc, hd, Or.inr (Or.inl none)⟩
      · exact fun none => full ⟨a, b, c, d, rfl, ha, hb, hc, hd, Or.inr (Or.inr none)⟩
    · rintro ⟨a, b, c, d, rfl, ha, hb, hc, hd⟩
      exact ⟨a, b, c, d, rfl, ha.fits, hb.fits, hc.fits, hd⟩

end Scan

section Reading

theorem not_dot {g : Bytes} (h : Group g) : ∀ b ∈ g, b ≠ 46 :=
  fun _ mem same => h.fits.free (same ▸ mem)

theorem strtok_start {first : UInt8} (h : first ≠ 46) (text : Bytes) :
    strtok (first :: text) = some ((first :: text).takeWhile (· ≠ 46),
      ((first :: text).dropWhile (· ≠ 46)).drop 1) := by
  have start : (first :: text).dropWhile (· = 46) = first :: text :=
    List.dropWhile_cons_of_neg (by simpa using h)
  rw [strtok, start]

/-- A token, and the text after the dot that ends it. -/
theorem strtok_group {g : Bytes} (h : Group g) (rest : Bytes) :
    strtok (g ++ 46 :: rest) = some (g, rest) ∧ strtok g = some (g, []) := by
  have free := not_dot h
  have all : ∀ b ∈ g, decide (b ≠ 46) = true := fun b mem => decide_eq_true (free b mem)
  obtain ⟨first, tail, rfl⟩ := List.exists_cons_of_ne_nil ((group_iff g).mp h).2
  have start := strtok_start (free first List.mem_cons_self)
  constructor
  · rw [List.cons_append, start, ← List.cons_append, List.takeWhile_append_of_pos all,
      List.dropWhile_append_of_pos all]
    simp
  · rw [start, List.takeWhile_eq_self_iff.mpr all, List.dropWhile_eq_nil_iff.mpr all,
      List.drop_nil]

theorem toNat_strtoul {g : Bytes} (h : Group g) : (strtoul g).toNat = digitsValue g := by
  have small := h.value
  rw [strtoul, UInt64.toNat_ofNat']
  omega

theorem or_shift {a b i : Nat} (small : b < 2 ^ i) : a <<< i ||| b = a * 2 ^ i + b := by
  rw [← Nat.shiftLeft_add_eq_or_of_lt small, Nat.shiftLeft_eq]

/-- Four bytes put in their places. -/
theorem or_four {a b c d : Nat} (hb : b < 256) (hc : c < 256) (hd : d < 256) :
    ((a <<< 24 ||| b <<< 16) ||| c <<< 8) ||| d = a * 2 ^ 24 + b * 2 ^ 16 + c * 2 ^ 8 + d := by
  have shift (v i j : Nat) : v <<< (i + j) = (v <<< i) <<< j := Nat.shiftLeft_add v i j
  have second : a <<< 24 ||| b <<< 16 = (a * 2 ^ 8 + b) <<< 16 := by
    rw [shift a 8 16, ← Nat.shiftLeft_or_distrib, or_shift hb]
  have third : (a * 2 ^ 8 + b) <<< 16 ||| c <<< 8 = ((a * 2 ^ 8 + b) * 2 ^ 8 + c) <<< 8 := by
    rw [shift _ 8 8, ← Nat.shiftLeft_or_distrib, or_shift hc]
  rw [second, third, or_shift hd]
  omega

theorem toNat_ipv4tou {a b c d : Bytes} (ha : Group a) (hb : Group b) (hc : Group c)
    (hd : Group d) : (naosIpv4tou (dotted a b c d) .littleEndian).toNat =
      digitsValue a * 2 ^ 24 + digitsValue b * 2 ^ 16 + digitsValue c * 2 ^ 8 + digitsValue d := by
  have legal : naosIsLegalIpv4 (dotted a b c d) = true :=
    (legal_iff _).mpr ⟨a, b, c, d, rfl, ha.fits, hb.fits, hc.fits, hd⟩
  rw [naosIpv4tou, legal, Bool.not_true, if_neg Bool.false_ne_true]
  simp only [bitMov, dotted, gather, (strtok_group ha _).1, (strtok_group hb _).1,
    (strtok_group hc _).1, (strtok_group hd []).2]
  have va := ha.value
  have vb := hb.value
  have vc := hc.value
  have vd := hd.value
  simp only [UInt64.toNat_toUInt32, UInt64.toNat_or, UInt64.toNat_shiftLeft, toNat_strtoul ha,
    toNat_strtoul hb, toNat_strtoul hc, toNat_strtoul hd]
  have place {v i : Nat} (small : v ≤ 255) (inside : i ≤ 24) : v <<< i % 2 ^ 64 = v <<< i := by
    rw [Nat.shiftLeft_eq]
    apply Nat.mod_eq_of_lt
    calc v * 2 ^ i ≤ 255 * 2 ^ 24 :=
          Nat.mul_le_mul small (Nat.pow_le_pow_right (by decide) inside)
      _ < 2 ^ 64 := by decide
  change (0 ||| digitsValue a <<< 24 % 2 ^ 64 ||| digitsValue b <<< 16 % 2 ^ 64 |||
    digitsValue c <<< 8 % 2 ^ 64 ||| digitsValue d <<< 0 % 2 ^ 64) % 2 ^ 32 = _
  rw [place va (by decide), place vb (by decide), place vc (by decide), place vd (by decide),
    Nat.zero_or, Nat.shiftLeft_zero, or_four (by omega) (by omega) (by omega)]
  omega

end Reading

section Printing

def printed (b : UInt8) : Bytes := printInt b.toNat

/-- What a byte prints as, and what is left of it when its third digit is cut off. -/
theorem printed_byte (b : UInt8) : (1 ≤ (printed b).length ∧ (printed b).length ≤ 3 ∧
      (printed b).all isdigit = true ∧ digitsValue (printed b) = b.toNat) ∧
    if b.toNat < 100 then (printed b).length ≤ 2
    else (printed b).length = 3 ∧ digitsValue ((printed b).take 2) = b.toNat / 10 := by
  have table : ∀ k : Fin 256, (1 ≤ (printed (UInt8.ofFin k)).length ∧
        (printed (UInt8.ofFin k)).length ≤ 3 ∧ (printed (UInt8.ofFin k)).all isdigit = true ∧
        digitsValue (printed (UInt8.ofFin k)) = (UInt8.ofFin k).toNat) ∧
      if (UInt8.ofFin k).toNat < 100 then (printed (UInt8.ofFin k)).length ≤ 2
      else (printed (UInt8.ofFin k)).length = 3 ∧
        digitsValue ((printed (UInt8.ofFin k)).take 2) = (UInt8.ofFin k).toNat / 10 := by
    decide +kernel
  exact table b.toFin

theorem group_printed (b : UInt8) : Group (printed b) ∧ digitsValue (printed b) = b.toNat := by
  obtain ⟨⟨nonempty, short, digits, value⟩, _⟩ := printed_byte b
  have small := b.toNat_lt
  exact ⟨⟨nonempty, short, List.all_eq_true.mp digits, by omega⟩, value⟩

/-- A group that has lost the last of its three digits. -/
theorem group_cut {b : UInt8} (h : 100 ≤ b.toNat) : (printed b).length = 3 ∧
    Group ((printed b).take 2) ∧ digitsValue ((printed b).take 2) = b.toNat / 10 := by
  obtain ⟨group, _⟩ := group_printed b
  obtain ⟨_, cut⟩ := printed_byte b
  rw [if_neg (by omega)] at cut
  obtain ⟨long, value⟩ := cut
  have small := b.toNat_lt
  have two : ((printed b).take 2).length = 2 := by
    rw [List.length_take, long]
    rfl
  exact ⟨long, ⟨by omega, by omega, fun c mem => group.digits c (List.mem_of_mem_take mem),
    by omega⟩, value⟩

theorem length_printed {b : UInt8} (h : b.toNat < 100) : (printed b).length ≤ 2 := by
  obtain ⟨_, cut⟩ := printed_byte b
  rwa [if_pos h] at cut

theorem inetby_eq (n : Nat) (inet : UInt32) : inetby n inet = LittleEndian.bytes n inet.toNat := by
  induction n generalizing inet with
  | zero => rfl
  | succ n ih =>
    have low : (inet &&& 0xFF).toUInt8 = (inet.toNat % 256).toUInt8 := by
      apply UInt8.toNat.inj
      rw [LittleEndian.toNat_toUInt8, UInt32.toNat_toUInt8, UInt32.toNat_and]
      change (inet.toNat &&& 2 ^ 8 - 1) % 2 ^ 8 = _
      rw [Nat.and_two_pow_sub_one_eq_mod, Nat.mod_mod]
    have high : (inet >>> 8).toNat = inet.toNat / 256 := by
      rw [UInt32.toNat_shiftRight, Nat.shiftRight_eq_div_pow]
      rfl
    rw [inetby, ih, LittleEndian.bytes, low, high]

/-- The bytes of a word, highest first, and the text of which `snprintf` keeps 14 bytes. -/
theorem ipv4tos_eq (inet : UInt32) : ∃ a b c d : UInt8, (inetby 4 inet).reverse = [a, b, c, d] ∧
    inet.toNat = a.toNat * 2 ^ 24 + b.toNat * 2 ^ 16 + c.toNat * 2 ^ 8 + d.toNat ∧
    naosIpv4tos inet = (dotted (printed a) (printed b) (printed c) (printed d)).take 14 := by
  have length : (inetby 4 inet).length = 4 := by rw [inetby_eq, LittleEndian.length_bytes]
  match bytes : inetby 4 inet, length with
  | [d, c, b, a], _ =>
    have value : LittleEndian.value (inetby 4 inet) = inet.toNat := by
      rw [inetby_eq, LittleEndian.value_bytes]
      exact Nat.mod_eq_of_lt inet.toNat_lt
    rw [bytes] at value
    simp only [LittleEndian.value] at value
    refine ⟨a, b, c, d, rfl, by omega, ?_⟩
    rw [naosIpv4tos, bytes, dotted_eq]
    rfl

/-- The word survives unless all four of its bytes have three digits. -/
theorem round_trip (inet : UInt32) : naosIpv4tou (naosIpv4tos inet) .littleEndian = inet ↔
    ∃ b ∈ inetby 4 inet, b < 100 := by
  obtain ⟨a, b, c, d, bytes, value, text⟩ := ipv4tos_eq inet
  have some : (∃ b ∈ inetby 4 inet, b < 100) ↔
      a.toNat < 100 ∨ b.toNat < 100 ∨ c.toNat < 100 ∨ d.toNat < 100 := by
    have mem (e : UInt8) : e ∈ inetby 4 inet ↔ e = a ∨ e = b ∨ e = c ∨ e = d := by
      rw [← List.mem_reverse, bytes]
      simp
    simp only [mem, UInt8.lt_iff_toNat_lt]
    change (∃ e, (e = a ∨ e = b ∨ e = c ∨ e = d) ∧ e.toNat < 100) ↔ _
    constructor
    · rintro ⟨e, rfl | rfl | rfl | rfl, small⟩
      · exact Or.inl small
      · exact Or.inr (Or.inl small)
      · exact Or.inr (Or.inr (Or.inl small))
      · exact Or.inr (Or.inr (Or.inr small))
    · rintro (small | small | small | small)
      · exact ⟨a, Or.inl rfl, small⟩
      · exact ⟨b, Or.inr (Or.inl rfl), small⟩
      · exact ⟨c, Or.inr (Or.inr (Or.inl rfl)), small⟩
      · exact ⟨d, Or.inr (Or.inr (Or.inr rfl)), small⟩
  obtain ⟨ga, va⟩ := group_printed a
  obtain ⟨gb, vb⟩ := group_printed b
  obtain ⟨gc, vc⟩ := group_printed c
  obtain ⟨gd, vd⟩ := group_printed d
  have lengths := And.intro ga.short (And.intro gb.short (And.intro gc.short gd.short))
  rw [some, text, ← UInt32.toNat_inj, value]
  by_cases short : a.toNat < 100 ∨ b.toNat < 100 ∨ c.toNat < 100 ∨ d.toNat < 100
  · have fits : (dotted (printed a) (printed b) (printed c) (printed d)).length ≤ 14 := by
      simp only [dotted, List.length_append, List.length_cons]
      rcases short with small | small | small | small
      all_goals
        have two := length_printed small
        omega
    rw [List.take_of_length_le fits, toNat_ipv4tou ga gb gc gd, va, vb, vc, vd]
    exact iff_of_true rfl short
  · have large : 100 ≤ a.toNat ∧ 100 ≤ b.toNat ∧ 100 ≤ c.toNat ∧ 100 ≤ d.toNat := by omega
    obtain ⟨fa, fb, fc, fd⟩ := large
    obtain ⟨_, gcut, vcut⟩ := group_cut fd
    have cut : (dotted (printed a) (printed b) (printed c) (printed d)).take 14 =
        dotted (printed a) (printed b) (printed c) ((printed d).take 2) := by
      have front (last : Bytes) : dotted (printed a) (printed b) (printed c) last =
          (printed a ++ 46 :: (printed b ++ 46 :: (printed c ++ [46]))) ++ last := by
        simp [dotted]
      rw [front, front, List.take_append, List.take_of_length_le]
      · simp [(group_cut fa).1, (group_cut fb).1, (group_cut fc).1]
      · simp [(group_cut fa).1, (group_cut fb).1, (group_cut fc).1]
    rw [cut, toNat_ipv4tou ga gb gc gcut, va, vb, vc, vcut]
    exact iff_of_false (by omega) short

end Printing

/-- The scanner is right but for texts with an empty group before the last, and a word
comes back from its text but for words of four bytes of three digits. -/
theorem ipv4_text (s : Bytes) (x : UInt32) :
    ((naosIsLegalIpv4 s = true ↔ IsIpv4 s) ↔ ¬ EmptyGroup s) ∧
    (naosIpv4tou (naosIpv4tos x) .littleEndian = x ↔ ∃ b ∈ inetby 4 x, b < 100) :=
  ⟨legal_agrees s, round_trip x⟩

/-- "1..2.3" is accepted, and 255.255.255.255 comes back as 255.255.255.25. -/
theorem ipv4_text_wrong :
    ¬ (naosIsLegalIpv4 [49, 46, 46, 50, 46, 51] = true ↔ IsIpv4 [49, 46, 46, 50, 46, 51]) ∧
    naosIpv4tou (naosIpv4tos 0xFFFFFFFF) .littleEndian ≠ 0xFFFFFFFF := by
  constructor
  · rw [legal_agrees, not_not]
    refine ⟨[49], [], [50], [51], rfl, ?_, ?_, ?_, ?_, Or.inr (Or.inl rfl)⟩
    all_goals constructor <;> decide +kernel
  · decide +kernel

end Ipv4Text
