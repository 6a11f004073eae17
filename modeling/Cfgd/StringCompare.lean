import Mathlib.Data.List.Infix
import Cfgd.CText

/-!
# The portable string comparisons

`rtl_strcmp`, `rtl_strncmp`, `rtl_strcasecmp` and `rtl_strncasecmp` compare characters as
`char`, which is signed. The references are `compare` on lists of bytes: for each function
the lemmas say which prefixes it really compares.
-/

namespace StringCompare

open CText

section Source

/-- The characters where a loop stops, the terminator where a string ends. -/
def current : Bytes → Int8
  | [] => 0
  | c :: _ => c.toInt8

/-- The last line of three of the functions. -/
def signOf (c1 c2 : Int8) : Int := if c1 < c2 then -1 else if c1 > c2 then 1 else 0

/-- The loop without a bound, over the characters as `view` makes them. -/
def scan (view : Int8 → Int8) : Bytes → Bytes → Int
  | c1 :: s1, c2 :: s2 =>
    if view c1.toInt8 < view c2.toInt8 then -1
    else if view c1.toInt8 > view c2.toInt8 then 1
    else scan view s1 s2
  | s1, s2 => signOf (current s1) (current s2)

/-- The loop over at most `n` characters, and what is returned where it stops. -/
def scanN (view : Int8 → Int8) (stop : Int8 → Int8 → Int) : Bytes → Bytes → Nat → Int
  | c1 :: s1, c2 :: s2, n + 1 =>
    if view c1.toInt8 < view c2.toInt8 then -1
    else if view c1.toInt8 > view c2.toInt8 then 1
    else scanN view stop s1 s2 n
  | s1, s2, _ => stop (current s1) (current s2)

/-- `c += 0x20` between `'A'` and `'Z'`. -/
def lowered (c : Int8) : Int8 := if c ≥ 65 ∧ c ≤ 90 then c + 0x20 else c

def rtlStrcmp (s1 s2 : Bytes) : Int := scan id s1 s2

def rtlStrncmp (s1 s2 : Bytes) (n : Nat) : Int := scanN id signOf s1 s2 n

def rtlStrcasecmp (s1 s2 : Bytes) : Int := scan lowered s1 s2

/-- The one that returns 0 wherever its loop stops. -/
def rtlStrncasecmp (s1 s2 : Bytes) (n : Nat) : Int := scanN lowered (fun _ _ => 0) s1 s2 n

end Source

section References

/-- The C library's `strcmp`. -/
def strcmp (left right : Bytes) : Ordering := compare left right

/-- At most `n` bytes are compared. -/
def strncmp (left right : Bytes) (n : Nat) : Ordering := strcmp (left.take n) (right.take n)

/-- A string of ASCII characters. -/
def Ascii (s : Bytes) : Prop := ∀ c ∈ s, 0 < c ∧ c < 128

/-- Comparing one character more changes nothing once the strings differ. -/
theorem compare_take_succ {α : Type} [Ord α] [Std.LawfulEqOrd α] (s t : List α) (n : Nat) :
    compare (s.take n) (t.take n) ≠ .eq →
      compare (s.take (n + 1)) (t.take (n + 1)) = compare (s.take n) (t.take n) := by
  induction n generalizing s t with
  | zero => exact fun differ => absurd rfl differ
  | succ n ih =>
    cases s with
    | nil =>
      cases t with
      | nil => exact fun differ => absurd rfl differ
      | cons d t => exact fun _ => rfl
    | cons c s =>
      cases t with
      | nil => exact fun _ => rfl
      | cons d t =>
        simp only [List.take_succ_cons, List.compare_cons_cons]
        cases compare c d with
        | lt => exact fun _ => rfl
        | gt => exact fun _ => rfl
        | eq => exact ih s t

end References

section Loops
variable {view : Int8 → Int8} {key : UInt8 → UInt8} {s t : Bytes}

/-- On ASCII characters the signed characters that a loop compares are the bytes of the
reference. -/
structure Reads (view : Int8 → Int8) (key : UInt8 → UInt8) : Prop where
  same : ∀ c : UInt8, 0 < c → c < 128 → view c.toInt8 = (key c).toInt8
  low : ∀ c : UInt8, 0 < c → c < 128 → key c < 128

theorem reads_id : Reads id id := ⟨fun _ _ _ => rfl, fun _ _ h => h⟩

theorem reads_lowered : Reads lowered tolower := by
  have table : ∀ k : Fin 256, UInt8.ofFin k < 128 →
      lowered (UInt8.ofFin k).toInt8 = (tolower (UInt8.ofFin k)).toInt8 ∧
      tolower (UInt8.ofFin k) < 128 := by decide +kernel
  exact ⟨fun c _ h => (table c.toFin h).1, fun c _ h => (table c.toFin h).2⟩

/-- The order of two ASCII bytes is their order as signed characters. -/
theorem toInt8_lt {c d : UInt8} (hc : c < 128) (hd : d < 128) : c.toInt8 < d.toInt8 ↔ c < d := by
  have value (b : UInt8) (h : b < 128) : b.toInt8.toInt = b.toNat := by
    have small : 2 * b.toBitVec.toNat < 2 ^ 8 := by
      rw [UInt8.lt_iff_toNat_lt] at h
      change 2 * b.toNat < 256
      change b.toNat < 128 at h
      omega
    exact BitVec.toInt_eq_toNat_of_lt small
  rw [Int8.lt_iff_toInt_lt, value c hc, value d hd, UInt8.lt_iff_toNat_lt, Int.ofNat_lt]

theorem Ascii.tail {c : UInt8} (h : Ascii (c :: s)) : Ascii s :=
  fun d mem => h d (List.mem_cons_of_mem c mem)

theorem Ascii.head {c : UInt8} (h : Ascii (c :: s)) : 0 < c ∧ c < 128 := h c List.mem_cons_self

theorem compare_three {c d : UInt8} (hc : c < 128) (hd : d < 128) (later : Int) :
    compare (if c.toInt8 < d.toInt8 then -1 else if c.toInt8 > d.toInt8 then 1 else later) 0 =
      (compare c d).then (compare later 0) := by
  simp only [gt_iff_lt, toInt8_lt hc hd, toInt8_lt hd hc]
  change _ = (compareOfLessAndEq c d).then (compare later 0)
  rw [compareOfLessAndEq]
  split
  · rfl
  · rename_i notLess
    by_cases same : c = d
    · rw [if_neg (same ▸ UInt8.lt_irrefl _), if_pos same]
      rfl
    · have greater : d < c := UInt8.lt_of_le_of_ne (UInt8.not_lt.mp notLess) (Ne.symm same)
      rw [if_pos greater, if_neg same]
      rfl

/-- One turn of a loop. -/
theorem compare_turn (reads : Reads view key) {c d : UInt8} (hc : 0 < c ∧ c < 128)
    (hd : 0 < d ∧ d < 128) (later : Int) :
    compare (if view c.toInt8 < view d.toInt8 then -1
      else if view c.toInt8 > view d.toInt8 then 1 else later) 0 =
      (compare (key c) (key d)).then (compare later 0) := by
  rw [reads.same c hc.1 hc.2, reads.same d hd.1 hd.2]
  exact compare_three (reads.low c hc.1 hc.2) (reads.low d hd.1 hd.2) later

/-- Where the loops without a bound stop, one of the strings has ended. -/
theorem compare_signOf (hs : Ascii s) (ht : Ascii t) :
    compare (signOf (current s) (current t)) 0 = compare (s.take 1) (t.take 1) := by
  have at_zero {c : UInt8} (hc : 0 < c ∧ c < 128) : (0 : Int8) < c.toInt8 :=
    (toInt8_lt (by decide) hc.2).mpr hc.1
  cases s with
  | nil =>
    cases t with
    | nil => rfl
    | cons d t => rw [signOf, current, current, if_pos (at_zero ht.head)]; rfl
  | cons c s =>
    cases t with
    | nil =>
      have positive := at_zero hs.head
      rw [signOf, current, current, if_neg (Int8.not_lt.mpr (Int8.le_of_lt positive)),
        if_pos positive]
      rfl
    | cons d t =>
      rw [List.take_succ_cons, List.take_succ_cons, List.compare_cons_cons]
      exact compare_three hs.head.2 ht.head.2 0

theorem compare_scan (reads : Reads view key) (hs : Ascii s) (ht : Ascii t) :
    compare (scan view s t) 0 = compare (s.map key) (t.map key) := by
  induction s generalizing t with
  | nil =>
    rw [scan.eq_def, compare_signOf hs ht]
    cases t with
    | nil => rfl
    | cons d t => rfl
  | cons c s ih =>
    cases t with
    | nil => exact compare_signOf hs ht
    | cons d t =>
      rw [scan, compare_turn reads hs.head ht.head, ih hs.tail ht.tail, List.map_cons,
        List.map_cons, List.compare_cons_cons]

/-- `rtl_strncmp` looks at one character after the first `n`. -/
theorem compare_rtlStrncmp (hs : Ascii s) (ht : Ascii t) (n : Nat) :
    compare (rtlStrncmp s t n) 0 = compare (s.take (n + 1)) (t.take (n + 1)) := by
  rw [rtlStrncmp]
  induction n generalizing s t with
  | zero =>
    have stopped : scanN id signOf s t 0 = signOf (current s) (current t) := by
      cases s <;> cases t <;> rfl
    rw [stopped, compare_signOf hs ht]
  | succ n ih =>
    cases s with
    | nil =>
      rw [scanN.eq_def, compare_signOf hs ht]
      cases t with
      | nil => rfl
      | cons d t => rfl
    | cons c s =>
      cases t with
      | nil => exact compare_signOf hs ht
      | cons d t =>
        rw [scanN, compare_turn reads_id hs.head ht.head, ih hs.tail ht.tail, List.take_succ_cons,
          List.take_succ_cons (i := n + 1), List.compare_cons_cons]
        rfl

/-- `rtl_strncasecmp` takes a string for equal to every string it begins. -/
theorem compare_rtlStrncasecmp (hs : Ascii s) (ht : Ascii t) (n : Nat) :
    compare (rtlStrncasecmp s t n) 0 =
      if (fold s).take n <+: (fold t).take n ∨ (fold t).take n <+: (fold s).take n then .eq
      else compare ((fold s).take n) ((fold t).take n) := by
  rw [rtlStrncasecmp]
  induction n generalizing s t with
  | zero =>
    have stopped : scanN lowered (fun _ _ => 0) s t 0 = 0 := by
      cases s <;> cases t <;> rfl
    rw [stopped, List.take_zero, List.take_zero, if_pos (Or.inl (List.prefix_refl _))]
    rfl
  | succ n ih =>
    have ended : (fold []).take (n + 1) = [] := rfl
    cases s with
    | nil =>
      rw [ended, if_pos (Or.inl List.nil_prefix)]
      rfl
    | cons c s =>
      cases t with
      | nil =>
        rw [ended, if_pos (Or.inr List.nil_prefix)]
        rfl
      | cons d t =>
        have front (c : UInt8) (s : Bytes) :
            (fold (c :: s)).take (n + 1) = tolower c :: (fold s).take n := rfl
        rw [scanN, compare_turn reads_lowered hs.head ht.head, ih hs.tail ht.tail, front, front,
          List.compare_cons_cons]
        simp only [List.cons_prefix_cons]
        by_cases same : tolower c = tolower d
        · rw [same, Std.ReflOrd.compare_self]
          simp only [true_and]
          rfl
        · have order : compare (tolower c) (tolower d) ≠ .eq :=
            fun h => same (Std.LawfulEqOrd.eq_of_compare h)
          have other : tolower d ≠ tolower c := Ne.symm same
          simp only [same, other, false_and, or_self, if_false]
          cases h : compare (tolower c) (tolower d) with
          | lt => rfl
          | gt => rfl
          | eq => exact absurd h order

end Loops

section Family

/-- The sign of a result is the sign of the reference. -/
def Agrees (result : Int) (reference : Ordering) : Prop := compare result 0 = reference

/-- The first `n` characters of both strings agree and the next ones do not; the
terminator counts. -/
def PartAfter (s t : Bytes) (n : Nat) : Prop :=
  s.take n = t.take n ∧ s.take (n + 1) ≠ t.take (n + 1)

/-- One string is, but for the case, a proper prefix of the other within the first `n`
characters. -/
def ProperPrefix (s t : Bytes) (n : Nat) : Prop :=
  (fold s).take n ≠ (fold t).take n ∧
    ((fold s).take n <+: (fold t).take n ∨ (fold t).take n <+: (fold s).take n)

theorem rtlStrncmp_agrees {s t : Bytes} (hs : Ascii s) (ht : Ascii t) (n : Nat) :
    Agrees (rtlStrncmp s t n) (strncmp s t n) ↔ ¬ PartAfter s t n := by
  rw [Agrees, compare_rtlStrncmp hs ht, strncmp, strcmp, PartAfter]
  by_cases same : s.take n = t.take n
  · rw [same, Std.ReflOrd.compare_self, Std.LawfulEqOrd.compare_eq_iff_eq]
    tauto
  · have differ : compare (s.take n) (t.take n) ≠ .eq :=
      fun h => same (Std.LawfulEqOrd.eq_of_compare h)
    simp only [compare_take_succ s t n differ, same, false_and, not_false_eq_true]

theorem rtlStrncasecmp_agrees {s t : Bytes} (hs : Ascii s) (ht : Ascii t) (n : Nat) :
    Agrees (rtlStrncasecmp s t n) (strncasecmp s t n) ↔ ¬ ProperPrefix s t n := by
  have reference : strncasecmp s t n = compare ((fold s).take n) ((fold t).take n) := by
    rw [strncasecmp, strcasecmp, fold, fold, List.map_take, List.map_take]
    rfl
  rw [Agrees, compare_rtlStrncasecmp hs ht, reference, ProperPrefix]
  by_cases starts : (fold s).take n <+: (fold t).take n ∨ (fold t).take n <+: (fold s).take n
  · rw [if_pos starts, eq_comm, Std.LawfulEqOrd.compare_eq_iff_eq]
    tauto
  · rw [if_neg starts]
    tauto

/-- The four comparisons agree with the C library exactly when the bound of `rtl_strncmp`
does not stand between characters that differ and `rtl_strncasecmp` sees no proper
prefix. -/
theorem comparisons_agree (s t : Bytes) (n : Nat) (hs : Ascii s) (ht : Ascii t) :
    (Agrees (rtlStrcmp s t) (strcmp s t) ∧ Agrees (rtlStrcasecmp s t) (strcasecmp s t) ∧
      Agrees (rtlStrncmp s t n) (strncmp s t n) ∧
      Agrees (rtlStrncasecmp s t n) (strncasecmp s t n)) ↔
    ¬ PartAfter s t n ∧ ¬ ProperPrefix s t n := by
  have plain : Agrees (rtlStrcmp s t) (strcmp s t) := by
    rw [Agrees, rtlStrcmp, compare_scan reads_id hs ht, List.map_id, List.map_id]
    rfl
  have folded : Agrees (rtlStrcasecmp s t) (strcasecmp s t) := compare_scan reads_lowered hs ht
  rw [rtlStrncmp_agrees hs ht, rtlStrncasecmp_agrees hs ht]
  tauto

theorem comparisons_agree_abc :
    Agrees (rtlStrcmp [97, 98] [97, 99]) (strcmp [97, 98] [97, 99]) ∧
      Agrees (rtlStrcasecmp [97, 98] [97, 99]) (strcasecmp [97, 98] [97, 99]) ∧
      Agrees (rtlStrncmp [97, 98] [97, 99] 2) (strncmp [97, 98] [97, 99] 2) ∧
      Agrees (rtlStrncasecmp [97, 98] [97, 99] 2) (strncasecmp [97, 98] [97, 99] 2) :=
  (comparisons_agree [97, 98] [97, 99] 2 (by unfold Ascii; decide +kernel)
    (by unfold Ascii; decide +kernel)).mpr
      ⟨by unfold PartAfter; decide, by unfold ProperPrefix; decide⟩

/-- `rtl_strncmp("ab", "ac", 1)` is -1 and `rtl_strncasecmp("a", "ab", 2)` is 0. -/
theorem comparisons_part :
    ¬ Agrees (rtlStrncmp [97, 98] [97, 99] 1) (strncmp [97, 98] [97, 99] 1) ∧
    ¬ Agrees (rtlStrncasecmp [97] [97, 98] 2) (strncasecmp [97] [97, 98] 2) := by
  unfold Agrees
  decide

end Family

end StringCompare
