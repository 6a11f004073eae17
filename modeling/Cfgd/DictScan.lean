import Cfgd.DictRuns
import Cfgd.ReverseCursor

/-!
# Scanning a dictionary that changes

`dictScan` keeps no state but its cursor, and the table may be grown, shrunk and moved from
call to call. Still, until the cursor is back at zero, every key that was there all the time
was given out; where nothing changes, each entry is given out once.
-/

namespace DictScan

open Buckets DictTable DictSound DictCalls DictRuns ReverseCursor Transition

variable {κ υ : Type}

section Model

/-- A turn of the loop of `rev`. -/
def revRound (s : Nat) (mask v : BitVec 64) : BitVec 64 :=
  (v >>> s) &&& mask ||| (v <<< s) &&& ~~~ mask

/-- The loop of `rev`. -/
def revLoop : (left : Nat) → (s : Nat) → (mask v : BitVec 64) → BitVec 64
  | 0, _, _, v => v
  | left + 1, s, mask, v =>
    let s := s >>> 1
    if s = 0 then v
    else
      let mask := mask ^^^ mask <<< s
      revLoop left s mask (revRound s mask v)

/-- `rev`; the loop halves the number of bits until it is zero. -/
def rev (v : BitVec 64) : BitVec 64 := revLoop 64 64 (BitVec.allOnes 64) v

/-- Sets the bits above the mask and increments the reversed cursor. -/
def nextCursor (m v : BitVec 64) : BitVec 64 := rev (rev (v ||| ~~~ m) + 1)

def sizeMask (exp : Option Nat) : BitVec 64 := BitVec.ofNat 64 (dicthtSizeMask exp)

/-- The loop of `dictScan` over the buckets of the larger table. -/
def scanLoop (large : Table κ υ) (m0 m1 : BitVec 64) :
    (left : Nat) → (v : BitVec 64) → Option (BitVec 64 × List (DictEntry κ υ))
  | 0, _ => none
  | left + 1, v =>
    match large.buckets[(v &&& m1).toNat]? with
    | none => none
    | some chain =>
      let v := nextCursor m1 v
      if v &&& (m0 ^^^ m1) = 0 then some (v, chain)
      else (scanLoop large m0 m1 left v).map fun (v, more) => (v, chain ++ more)

/-- The part of `dictScan` for two tables. -/
def scanBoth (small large : Table κ υ) (v : BitVec 64) :
    Option (BitVec 64 × List (DictEntry κ υ)) :=
  let m0 := sizeMask small.sizeExp
  let m1 := sizeMask large.sizeExp
  match small.buckets[(v &&& m0).toNat]? with
  | none => none
  | some chain => (scanLoop large m0 m1 (dicthtSize large.sizeExp) v).map fun (v, more) =>
    (v, chain ++ more)

/-- `dictScan`: the next cursor, and the entries that are given to the callback. -/
def dictScan (d : Dict κ υ) (v : BitVec 64) : Option (BitVec 64 × List (DictEntry κ υ)) :=
  if dictSize d = 0 then some (0, [])
  else if dictIsRehashing d = false then
    let m0 := sizeMask d.ht0.sizeExp
    match d.ht0.buckets[(v &&& m0).toNat]? with
    | none => none
    | some chain => some (nextCursor m0 v, chain)
  else if dicthtSize d.ht1.sizeExp < dicthtSize d.ht0.sizeExp then scanBoth d.ht1 d.ht0 v
  else scanBoth d.ht0 d.ht1 v

end Model

section Reversal

/-- The bit that a turn puts at the place `i`. -/
def swapped (s i : Nat) : Nat := if i / s % 2 = 0 then i + s else i - s

theorem getLsbD_revRound {s : Nat} {mask v : BitVec 64}
    (bits : ∀ i < 64, mask.getLsbD i = decide (i / s % 2 = 0)) {i : Nat} (inside : i < 64) :
    (revRound s mask v).getLsbD i = v.getLsbD (swapped s i) := by
  rw [revRound, BitVec.getLsbD_or, BitVec.getLsbD_and, BitVec.getLsbD_and, BitVec.getLsbD_not,
    BitVec.getLsbD_ushiftRight, BitVec.getLsbD_shiftLeft, bits i inside, swapped]
  by_cases even : i / s % 2 = 0
  · simp [even, Nat.add_comm]
  · have behind : ¬ i < s := fun less => even (by rw [Nat.div_eq_of_lt less])
    simp [even, inside, behind]

def mask32 : BitVec 64 := BitVec.allOnes 64 ^^^ BitVec.allOnes 64 <<< 32
def mask16 : BitVec 64 := mask32 ^^^ mask32 <<< 16
def mask8 : BitVec 64 := mask16 ^^^ mask16 <<< 8
def mask4 : BitVec 64 := mask8 ^^^ mask8 <<< 4
def mask2 : BitVec 64 := mask4 ^^^ mask4 <<< 2
def mask1 : BitVec 64 := mask2 ^^^ mask2 <<< 1

theorem rev_rounds (v : BitVec 64) : rev v = revRound 1 mask1 (revRound 2 mask2 (revRound 4 mask4
    (revRound 8 mask8 (revRound 16 mask16 (revRound 32 mask32 v))))) := rfl

/-- The six turns of `rev` reverse the bits. -/
theorem rev_eq_reverse (v : BitVec 64) : rev v = v.reverse := by
  refine BitVec.eq_of_getLsbD_eq fun i inside => ?_
  have small : ∀ s ∈ [1, 2, 4, 8, 16, 32], ∀ i < 64, swapped s i < 64 := by decide
  have all : ∀ i < 64, swapped 32 (swapped 16 (swapped 8 (swapped 4 (swapped 2 (swapped 1 i))))) =
      64 - 1 - i := by decide
  have s1 := small 1 (by simp) i inside
  have s2 := small 2 (by simp) _ s1
  have s4 := small 4 (by simp) _ s2
  have s8 := small 8 (by simp) _ s4
  have s16 := small 16 (by simp) _ s8
  rw [rev_rounds, getLsbD_revRound (by decide) inside, getLsbD_revRound (by decide) s1,
    getLsbD_revRound (by decide) s2, getLsbD_revRound (by decide) s4,
    getLsbD_revRound (by decide) s8, getLsbD_revRound (by decide) s16, all i inside,
    BitVec.getLsbD_reverse, BitVec.getMsbD_eq_getLsbD]
  simp [inside]

theorem nextCursor_eq (e : Nat) (v : BitVec 64) :
    nextCursor (lowMask 64 e) v = advance e v := by
  rw [nextCursor, rev_eq_reverse, rev_eq_reverse, advance]

end Reversal

section Sweep
variable {t : DictType κ υ} {ht small large : Table κ υ} {d : Dict κ υ} {v : BitVec 64}
variable {e e' : Nat}

/-- The place of an entry in the order of the scan. -/
def hashPlace (t : DictType κ υ) (he : DictEntry κ υ) : Nat := place (t.hashFunction he.key)

/-- A bucket of a table holds what has its place in the block of the cursor. -/
theorem bucket_of_cursor (sound : TableSound t ht) (size : ht.sizeExp = some e) (v : BitVec 64) :
    ht.buckets[(v &&& sizeMask ht.sizeExp).toNat]? = some (ht.buckets.flatten.filter
      (within (hashPlace t) (place v / block 64 e * block 64 e)
        (nextStart (place v) (block 64 e)))) := by
  have bound := sound.bound e size
  have index : ∀ v : BitVec 64, (v &&& sizeMask ht.sizeExp).toNat = slot v ht.sizeExp := by
    intro v
    have fits : 2 ^ e - 1 < 2 ^ 64 :=
      Nat.lt_of_lt_of_le (Nat.sub_one_lt (Nat.two_pow_pos e).ne')
        (Nat.pow_le_pow_right (by decide) (by omega))
    rw [size, sizeMask, dicthtSizeMask, BitVec.toNat_and, BitVec.toNat_ofNat,
      Nat.mod_eq_of_lt fits]
    rfl
  obtain ⟨chain, here⟩ := bucket_of_slot sound size v
  rw [index, here]
  refine congrArg some (filter_flatten here fun j other found x mem => ?_).symm
  have slots : slot (t.hashFunction x.key) ht.sizeExp = j := sound.placed j other found x mem
  rw [within_iff, ← div_eq_iff (block_pos 64 e), ← slots, ← index, ← index, BitVec.toNat_inj,
    size]
  exact (and_eq_iff (by omega)).symm

/-- The buckets of the larger table that belong to a bucket of the smaller one, from the
cursor on. -/
theorem scanLoop_spec (sound : TableSound t large) (size : large.sizeExp = some e')
    (order : e ≤ e') (left : Nat) :
    ∀ v : BitVec 64, nextStart (place v) (block 64 e) ≤ place v / block 64 e' * block 64 e' +
        left * block 64 e' → 0 < left →
      ∃ v' more, scanLoop large (lowMask 64 e) (sizeMask large.sizeExp) left v = some (v', more) ∧
        place v' = nextStart (place v) (block 64 e) % 2 ^ 64 ∧
        more.Perm (large.buckets.flatten.filter (within (hashPlace t)
          (place v / block 64 e' * block 64 e') (nextStart (place v) (block 64 e)))) := by
  have bound : e' ≤ 64 := Nat.le_trans (sound.bound e' size) (by decide)
  have positive := block_pos 64 e'
  have positive' := block_pos 64 e
  induction left with
  | zero => exact fun v _ some => absurd some (Nat.lt_irrefl 0)
  | succ left ih =>
    intro v enough _
    have here := bucket_of_cursor sound size v
    have order' := nextStart_le_nextStart (block_dvd (w := 64) order) positive' (place v)
    have below := nextStart_le (block_dvd_all 64 e) (place_lt v)
    have mask : sizeMask large.sizeExp = lowMask 64 e' := by rw [size]; rfl
    have stepped : place (nextCursor (lowMask 64 e') v) =
        nextStart (place v) (block 64 e') % 2 ^ 64 := by
      rw [nextCursor_eq, place_advance bound]
    have aligned : place (nextCursor (lowMask 64 e') v) % block 64 e' = 0 := by
      rw [stepped]
      exact Nat.mod_eq_zero_of_dvd
        ((Nat.dvd_mod_iff (block_dvd_all 64 e')).mpr (nextStart_dvd _ _))
    rw [scanLoop, here]
    dsimp only
    rw [mask]
    split
    · -- the large bucket of the smaller table is through
      rename_i zero
      rw [and_xor_eq_zero order bound aligned] at zero
      have same : nextStart (place v) (block 64 e') = nextStart (place v) (block 64 e) := by
        by_contra other
        have less := Nat.lt_of_le_of_ne order' other
        obtain ⟨_, middle⟩ := nextStart_inside positive positive' less
        have whole : nextStart (place v) (block 64 e') % 2 ^ 64 =
            nextStart (place v) (block 64 e') := Nat.mod_eq_of_lt (by omega)
        rw [stepped, whole] at zero
        exact middle zero
      exact ⟨_, _, rfl, by rw [stepped, same], List.Perm.of_eq (by rw [same])⟩
    · rename_i middle
      rw [and_xor_eq_zero order bound aligned] at middle
      have less : nextStart (place v) (block 64 e') < nextStart (place v) (block 64 e) := by
        refine Nat.lt_of_le_of_ne order' fun same => middle ?_
        rw [stepped, same]
        exact Nat.mod_eq_zero_of_dvd
          ((Nat.dvd_mod_iff (block_dvd_all 64 e)).mpr (nextStart_dvd _ _))
      have here' : place (nextCursor (lowMask 64 e') v) = nextStart (place v) (block 64 e') := by
        rw [stepped, Nat.mod_eq_of_lt (by omega)]
      obtain ⟨same, _⟩ := nextStart_inside positive positive' less
      have next : place (nextCursor (lowMask 64 e') v) / block 64 e' * block 64 e' =
          place v / block 64 e' * block 64 e' + block 64 e' := by
        rw [here', nextStart, Nat.mul_div_cancel _ positive, Nat.add_mul, Nat.one_mul]
      have enough' : nextStart (place (nextCursor (lowMask 64 e') v)) (block 64 e) ≤
          place (nextCursor (lowMask 64 e') v) / block 64 e' * block 64 e' +
            left * block 64 e' := by
        rw [next, here', same]
        rw [Nat.add_mul, Nat.one_mul] at enough
        omega
      have more : 0 < left := by
        by_contra none
        obtain rfl : left = 0 := by omega
        rw [next, Nat.zero_mul, Nat.add_zero, here', same, ← Nat.add_one_mul] at enough'
        exact absurd less (Nat.not_lt_of_le enough')
      obtain ⟨v', rest, scanned, place', perm⟩ := ih _ enough' more
      have start : place v / block 64 e' * block 64 e' + block 64 e' =
          nextStart (place v) (block 64 e') := by rw [nextStart, Nat.add_mul, Nat.one_mul]
      have before : place v / block 64 e' * block 64 e' ≤ nextStart (place v) (block 64 e') :=
        start ▸ Nat.le_add_right _ _
      rw [mask] at scanned
      rw [next, start, here', same] at perm
      rw [scanned]
      refine ⟨v', _, rfl, by rw [place', here', same], ?_⟩
      exact (perm.append_left _).trans (filter_within_append before order' _)

variable (t) in
/-- A call of `dictScan` goes to the next cursor, and gives out what lies between. -/
structure Swept (d : Dict κ υ) (v v' : BitVec 64) (emitted : List (DictEntry κ υ)) : Prop where
  inside : ∀ he ∈ emitted, he ∈ entries d
  covers : ∀ he ∈ entries d, place v ≤ hashPlace t he →
    (v' = 0 ∨ hashPlace t he < place v') → he ∈ emitted
  further : v' = 0 ∨ ∃ e, (d.ht0.sizeExp = some e ∨ d.ht1.sizeExp = some e) ∧
    place v' = nextStart (place v) (block 64 e)

theorem end_or_start {v' : BitVec 64}
    (next : place v' = nextStart (place v) (block 64 e) % 2 ^ 64) :
    v' = 0 ∧ nextStart (place v) (block 64 e) = 2 ^ 64 ∨
      place v' = nextStart (place v) (block 64 e) := by
  have below := nextStart_le (block_dvd_all 64 e) (place_lt v)
  rcases Nat.lt_or_eq_of_le below with less | same
  · exact Or.inr (by rw [next, Nat.mod_eq_of_lt less])
  · exact Or.inl ⟨place_eq_zero.mp (by rw [next, same, Nat.mod_self]), same⟩

variable (t) in
/-- A call of `dictScan` goes to the end of a block, and gives out what has its place there;
where the cursor is inside of the block, also what lies before it. -/
structure Given (d : Dict κ υ) (e : Nat) (v v' : BitVec 64) (emitted : List (DictEntry κ υ)) :
    Prop where
  next : place v' = nextStart (place v) (block 64 e) % 2 ^ 64
  stretches : ∃ lo₀ lo₁, lo₀ ≤ place v ∧ lo₁ ≤ place v ∧
    (place v % block 64 e = 0 → lo₀ = place v ∧ lo₁ = place v) ∧
    emitted.Perm
      (d.ht0.buckets.flatten.filter (within (hashPlace t) lo₀ (nextStart (place v) (block 64 e))) ++
        d.ht1.buckets.flatten.filter
          (within (hashPlace t) lo₁ (nextStart (place v) (block 64 e))))

theorem Given.swept {v' : BitVec 64} {emitted : List (DictEntry κ υ)}
    (given : Given t d e v v' emitted)
    (size : d.ht0.sizeExp = some e ∨ d.ht1.sizeExp = some e) : Swept t d v v' emitted := by
  obtain ⟨next, lo₀, lo₁, first, second, _, perm⟩ := given
  refine ⟨fun he mem => ?_, fun he mem after before => ?_, ?_⟩
  · rw [perm.mem_iff, List.mem_append, List.mem_filter, List.mem_filter] at mem
    exact List.mem_append.mpr (mem.imp And.left And.left)
  · have last : hashPlace t he < nextStart (place v) (block 64 e) := by
      rcases end_or_start next with ⟨_, same⟩ | start
      · rw [same]
        exact place_lt _
      · rcases before with zero | less
        · rw [zero, place_zero] at start
          have positive := lt_nextStart (block_pos 64 e) (place v)
          omega
        · rwa [start] at less
    rw [perm.mem_iff, List.mem_append, List.mem_filter, List.mem_filter, within_iff, within_iff]
    exact (List.mem_append.mp mem).imp (⟨·, Nat.le_trans first after, last⟩)
      (⟨·, Nat.le_trans second after, last⟩)
  · exact (end_or_start next).imp And.left fun start => ⟨e, size, start⟩

/-- From the start of a block on, a call gives out what has its place there, once. -/
theorem Given.perm {v' : BitVec 64} {emitted : List (DictEntry κ υ)}
    (given : Given t d e v v' emitted) (aligned : place v % block 64 e = 0) :
    emitted.Perm ((entries d).filter
      (within (hashPlace t) (place v) (nextStart (place v) (block 64 e)))) := by
  obtain ⟨_, lo₀, lo₁, _, _, starts, perm⟩ := given
  obtain ⟨rfl, rfl⟩ := starts aligned
  rwa [entries, List.filter_append]

theorem scanBoth_spec (sound : TableSound t small) (sound' : TableSound t large)
    (size : small.sizeExp = some e) (size' : large.sizeExp = some e') (order : e ≤ e')
    (v : BitVec 64) :
    ∃ v' emitted, scanBoth small large v = some (v', emitted) ∧
      place v' = nextStart (place v) (block 64 e) % 2 ^ 64 ∧
      emitted.Perm (small.buckets.flatten.filter (within (hashPlace t)
          (place v / block 64 e * block 64 e) (nextStart (place v) (block 64 e))) ++
        large.buckets.flatten.filter (within (hashPlace t)
          (place v / block 64 e' * block 64 e') (nextStart (place v) (block 64 e)))) := by
  have bound : e' ≤ 64 := Nat.le_trans (sound'.bound e' size') (by decide)
  have enough : nextStart (place v) (block 64 e) ≤
      place v / block 64 e' * block 64 e' + 2 ^ e' * block 64 e' := by
    have below := nextStart_le (block_dvd_all 64 e) (place_lt v)
    rw [show 2 ^ e' * block 64 e' = 2 ^ 64 by rw [block, ← Nat.pow_add, Nat.add_sub_cancel' bound]]
    omega
  obtain ⟨v', more, scanned, next, perm⟩ :=
    scanLoop_spec sound' size' order (2 ^ e') v enough (Nat.two_pow_pos e')
  have mask : sizeMask small.sizeExp = lowMask 64 e := by rw [size]; rfl
  have buckets : dicthtSize large.sizeExp = 2 ^ e' := by rw [size']; rfl
  refine ⟨v', _, ?_, next, perm.append_left _⟩
  rw [scanBoth, bucket_of_cursor sound size v]
  dsimp only
  rw [mask, buckets, scanned]
  rfl

variable [DecidableEq κ]

/-- The blocks of a dictionary are those of its smaller table. -/
theorem dictScan_given (sound : Sound t d) (filled : dictSize d ≠ 0) :
    ∃ e, (d.ht0.sizeExp = some e ∨ d.ht1.sizeExp = some e) ∧ 2 ^ e ≤ dicthtSize d.ht0.sizeExp ∧
      ∀ v, ∃ v' emitted, dictScan d v = some (v', emitted) ∧ Given t d e v v' emitted := by
  obtain ⟨e, size⟩ := sizeExp_of_size sound filled
  have bound : e ≤ 64 := Nat.le_trans (sound.first.bound e size) (by decide)
  have below : ∀ p small : Nat, p / small * small ≤ p := fun p small => Nat.div_mul_le_self p small
  by_cases idle : d.rehashidx = none
  · refine ⟨e, Or.inl size, Nat.le_of_eq (by rw [size]; rfl), fun v => ?_⟩
    rw [dictScan, if_neg filled, if_pos (by rw [dictIsRehashing, idle]; rfl)]
    dsimp only
    rw [bucket_of_cursor sound.first size v]
    refine ⟨_, _, rfl, ?_, _, place v, below _ _, Nat.le_refl _,
      fun start => ⟨start_of_dvd (Nat.dvd_refl _) start, rfl⟩, ?_⟩
    · rw [size, show sizeMask (some e) = lowMask 64 e from rfl, nextCursor_eq, place_advance bound]
    · rw [buckets_eq_nil sound.second (sound.idle idle)]
      exact List.Perm.of_eq (List.append_nil _).symm
  · obtain ⟨r, rehashing⟩ := Option.ne_none_iff_exists'.mp idle
    obtain ⟨e', size'⟩ := Option.ne_none_iff_exists'.mp (sound.moving r rehashing).2.1
    have busy : ¬ dictIsRehashing d = false := by rw [dictIsRehashing, rehashing]; simp
    by_cases less : dicthtSize d.ht1.sizeExp < dicthtSize d.ht0.sizeExp
    · have order : e' ≤ e := by
        rw [size, size', dicthtSize, dicthtSize, Nat.pow_lt_pow_iff_right (by decide)] at less
        exact Nat.le_of_lt less
      refine ⟨e', Or.inr size', ?_, fun v => ?_⟩
      · rw [size, dicthtSize]
        exact Nat.pow_le_pow_right (by decide) order
      rw [dictScan, if_neg filled, if_neg busy, if_pos less]
      obtain ⟨v', emitted, scanned, next, perm⟩ :=
        scanBoth_spec sound.second sound.first size' size order v
      exact ⟨v', emitted, scanned, next, _, _, below _ _, below _ _,
        fun start => ⟨start_of_dvd (block_dvd order) start, start_of_dvd (Nat.dvd_refl _) start⟩,
        perm.trans List.perm_append_comm⟩
    · have order : e ≤ e' := by
        rw [size, size', dicthtSize, dicthtSize, Nat.pow_lt_pow_iff_right (by decide)] at less
        exact Nat.le_of_not_lt less
      refine ⟨e, Or.inl size, Nat.le_of_eq (by rw [size]; rfl), fun v => ?_⟩
      rw [dictScan, if_neg filled, if_neg busy, if_neg less]
      obtain ⟨v', emitted, scanned, next, perm⟩ :=
        scanBoth_spec sound.first sound.second size size' order v
      exact ⟨v', emitted, scanned, next, _, _, below _ _, below _ _,
        fun start => ⟨start_of_dvd (Nat.dvd_refl _) start, start_of_dvd (block_dvd order) start⟩,
        perm⟩

theorem dictScan_spec (sound : Sound t d) (v : BitVec 64) :
    ∃ v' emitted, dictScan d v = some (v', emitted) ∧ Swept t d v v' emitted := by
  by_cases empty : dictSize d = 0
  · have none := entries_of_size sound empty
    have outside : ∀ he, he ∉ entries d := by simp [none]
    exact ⟨0, [], by rw [dictScan, if_pos empty],
      ⟨by simp, fun he mem => absurd mem (outside he), Or.inl rfl⟩⟩
  · obtain ⟨e, size, _, given⟩ := dictScan_given sound empty
    obtain ⟨v', emitted, scanned, given⟩ := given v
    exact ⟨v', emitted, scanned, given.swept size⟩

end Sweep

section Scans
variable [DecidableEq κ]
variable (t : DictType κ υ)

/-- A scan from cursor 0 on, with the keys that were given out; `through` when the cursor
came back to zero. -/
structure Scanning (κ υ : Type) where
  state : State κ υ
  cursor : BitVec 64
  scans : Nat
  through : Bool
  seen : List κ

def begun : Scanning κ υ := ⟨created, 0, 0, false, []⟩

/-- Any call, or the next one of the scan. -/
inductive Turn (κ υ : Type) where
  | call (act : Act κ υ)
  | scan

def scanStep (i : Scanning κ υ) : Turn κ υ → Option (Scanning κ υ)
  | .call act => (next t i.state act).map fun state => { i with state }
  | .scan => (dictScan i.state.dict i.cursor).map fun (cursor, emitted) =>
    { i with
      cursor
      scans := i.scans + 1
      through := i.through || cursor = 0
      seen := emitted.map DictEntry.key ++ i.seen }

def LegalTurn (i : Scanning κ υ) : Turn κ υ → Prop
  | .call act => Legal i.state act
  | .scan => True

/-- The key is in the dictionary whenever it is scanned. -/
def Stays (k : κ) (i : Scanning κ υ) (turn : Turn κ υ) : Prop :=
  match turn with
  | .call _ => True
  | .scan => (entryOf t i.state.dict k).isSome = true

/-- The tables that are scanned have at most `2 ^ size` buckets. -/
def Bounded (size : Nat) (i : Scanning κ υ) (turn : Turn κ υ) : Prop :=
  match turn with
  | .call _ => True
  | .scan => dicthtSize i.state.dict.ht0.sizeExp ≤ 2 ^ size ∧
    dicthtSize i.state.dict.ht1.sizeExp ≤ 2 ^ size

variable {t} {i i' : Scanning κ υ} {turn : Turn κ υ}

/-- What the keys that stay are in: given out, or ahead of the cursor. -/
structure Ahead (t : DictType κ υ) (k : κ) (i : Scanning κ υ) : Prop where
  held : ∃ m, Simulates t i.state m
  seen : (∃ key ∈ i.seen, sameKey t k key = true) ∨
    place i.cursor ≤ place (t.hashFunction k) ∧ i.through = false

theorem ahead_step (lawful : Lawful t) {k : κ} (h : Ahead t k i) (legal : LegalTurn i turn)
    (stays : Stays t k i turn) (done : scanStep t i turn = some i') : Ahead t k i' := by
  cases turn with
  | call act =>
    rw [scanStep, Option.map_eq_some_iff] at done
    obtain ⟨s', called, rfl⟩ := done
    exact ⟨simulates_next lawful h.held legal called, h.seen⟩
  | scan =>
    obtain ⟨m, sim⟩ := h.held
    obtain ⟨v', emitted, scanned, swept⟩ := dictScan_spec sim.sound i.cursor
    rw [scanStep, scanned] at done
    obtain rfl := Option.some.inj done
    refine ⟨⟨m, sim⟩, ?_⟩
    rcases h.seen with ⟨key, mem, same⟩ | ⟨ahead, notThrough⟩
    · exact Or.inl ⟨key, List.mem_append_right _ mem, same⟩
    obtain ⟨he, found⟩ := Option.isSome_iff_exists.mp stays
    have same := same_of_under found
    have hash : hashPlace t he = place (t.hashFunction k) := by
      rw [hashPlace, ← lawful.hash same]
    by_cases before : v' = 0 ∨ hashPlace t he < place v'
    · have given := swept.covers he (mem_of_under found) (by rwa [hash]) before
      exact Or.inl ⟨he.key, List.mem_append_left _ (List.mem_map_of_mem given), same⟩
    · rw [not_or, Nat.not_lt, hash] at before
      refine Or.inr ⟨before.2, ?_⟩
      change (i.through || decide (v' = 0)) = false
      rw [notThrough, Bool.false_or]
      exact decide_eq_false before.1

/-- When the cursor is back at zero, every key that was in the dictionary at each call of
the scan was given out, whatever was added, deleted, grown, shrunk and moved in between. -/
theorem scan_complete (lawful : Lawful t) {turns : List (Turn κ υ)} {k : κ}
    (legal : Along (scanStep t) LegalTurn begun turns)
    (stays : Along (scanStep t) (Stays t k) begun turns) :
    Always (scanStep t) (fun i => i.through = true → ∃ key ∈ i.seen, sameKey t k key = true)
      begun turns := by
  have start : Ahead t k (begun : Scanning κ υ) := by
    refine ⟨⟨_, simulates_created⟩, Or.inr ⟨?_, rfl⟩⟩
    rw [show (begun : Scanning κ υ).cursor = 0 from rfl, place_zero]
    exact Nat.zero_le _
  have states := always_of_along (fun i turn i' h both done =>
    ahead_step lawful h both.1 both.2 done) start (along_and legal stays)
  refine always_mono (fun i h through => ?_) states
  rcases h.seen with seen | ⟨_, notThrough⟩
  · exact seen
  · rw [through] at notThrough
    cases notThrough

/-- A scan that is not through has passed a block with each call. -/
structure Passing (t : DictType κ υ) (size : Nat) (i : Scanning κ υ) : Prop where
  held : ∃ m, Simulates t i.state m
  passed : i.through = true ∨ i.scans ≤ place i.cursor / block 64 size

theorem passing_step (lawful : Lawful t) {size : Nat} (h : Passing t size i)
    (legal : LegalTurn i turn) (bounded : Bounded size i turn)
    (done : scanStep t i turn = some i') : Passing t size i' := by
  cases turn with
  | call act =>
    rw [scanStep, Option.map_eq_some_iff] at done
    obtain ⟨s', called, rfl⟩ := done
    exact ⟨simulates_next lawful h.held legal called, h.passed⟩
  | scan =>
    obtain ⟨m, sim⟩ := h.held
    obtain ⟨v', emitted, scanned, swept⟩ := dictScan_spec sim.sound i.cursor
    rw [scanStep, scanned] at done
    obtain rfl := Option.some.inj done
    refine ⟨⟨m, sim⟩, ?_⟩
    rcases h.passed with through | passed
    · exact Or.inl (by simp [through])
    rcases swept.further with zero | ⟨e, there, start⟩
    · exact Or.inl (by simp [zero])
    · have order : e ≤ size := by
        rcases there with same | same
        · have bound := bounded.1
          rw [same, dicthtSize] at bound
          exact (Nat.pow_le_pow_iff_right (a := 2) (by decide)).mp bound
        · have bound := bounded.2
          rw [same, dicthtSize] at bound
          exact (Nat.pow_le_pow_iff_right (a := 2) (by decide)).mp bound
      have next := nextStart_le_nextStart (block_dvd (w := 64) order) (block_pos 64 e)
        (place i.cursor)
      rw [← start, nextStart] at next
      refine Or.inr ?_
      dsimp only
      rw [Nat.le_div_iff_mul_le (block_pos 64 size)]
      exact Nat.le_trans (Nat.mul_le_mul_right _ (Nat.succ_le_succ passed)) next

/-- A scan of tables of at most `2 ^ size` buckets is through after `2 ^ size` calls. -/
theorem scan_ends (lawful : Lawful t) {turns : List (Turn κ υ)} {size : Nat} (small : size ≤ 64)
    (legal : Along (scanStep t) LegalTurn begun turns)
    (bounded : Along (scanStep t) (Bounded size) begun turns) :
    Always (scanStep t) (fun i => 2 ^ size ≤ i.scans → i.through = true) begun turns := by
  have states := always_of_along (fun i turn i' h both done =>
    passing_step lawful h both.1 both.2 done) (s := (begun : Scanning κ υ))
    ⟨⟨_, simulates_created⟩, Or.inr (Nat.zero_le _)⟩ (along_and legal bounded)
  refine always_mono (fun i h enough => ?_) states
  rcases h.passed with through | passed
  · exact through
  · have inside : place i.cursor / block 64 size < 2 ^ size := by
      rw [Nat.div_lt_iff_lt_mul (block_pos 64 size), block, ← Nat.pow_add,
        Nat.add_sub_cancel' small]
      exact place_lt _
    omega

end Scans

section Whole
variable {t : DictType κ υ} {d : Dict κ υ} {e : Nat}

/-- Calls of `dictScan` until the cursor is back at zero, and all that they give out. There is
no result when `calls` calls do not get there. -/
def scanAll (d : Dict κ υ) : (calls : Nat) → (v : BitVec 64) → Option (List (DictEntry κ υ))
  | 0, _ => none
  | calls + 1, v =>
    match dictScan d v with
    | none => none
    | some (v, emitted) =>
      if v = 0 then some emitted else (scanAll d calls v).map (emitted ++ ·)

/-- From the start of a block on, all that has its place there or behind is given out. -/
theorem scanAll_spec
    (given : ∀ v, ∃ v' emitted, dictScan d v = some (v', emitted) ∧ Given t d e v v' emitted)
    (calls : Nat) :
    ∀ v : BitVec 64, place v % block 64 e = 0 → 2 ^ 64 ≤ place v + calls * block 64 e →
      ∃ emitted, scanAll d calls v = some emitted ∧
        emitted.Perm ((entries d).filter (within (hashPlace t) (place v) (2 ^ 64))) := by
  induction calls with
  | zero =>
    intro v _ enough
    have inside := place_lt v
    omega
  | succ calls ih =>
    intro v aligned enough
    obtain ⟨v', emitted, scanned, given⟩ := given v
    have first := given.perm aligned
    have positive := lt_nextStart (block_pos 64 e) (place v)
    rw [scanAll, scanned]
    dsimp only
    rcases end_or_start given.next with ⟨rfl, same⟩ | next
    · rw [same] at first
      exact ⟨emitted, if_pos rfl, first⟩
    · have further : v' ≠ 0 := by
        rintro rfl
        rw [place_zero] at next
        omega
      have aligned' : place v' % block 64 e = 0 := by
        rw [next]
        exact Nat.mod_eq_zero_of_dvd (nextStart_dvd _ _)
      have enough' : 2 ^ 64 ≤ place v' + calls * block 64 e := by
        rw [next, nextStart, Nat.add_mul, Nat.one_mul, start_of_dvd (Nat.dvd_refl _) aligned]
        rw [Nat.add_mul, Nat.one_mul] at enough
        omega
      obtain ⟨rest, later, perm⟩ := ih v' aligned' enough'
      have last := Nat.le_of_lt (place_lt v')
      rw [next] at perm last
      refine ⟨emitted ++ rest, by rw [if_neg further, later]; rfl, ?_⟩
      exact (first.append perm).trans (filter_within_append (Nat.le_of_lt positive) last _)

variable [DecidableEq κ]

theorem scanAll_entries (sound : Sound t d) :
    ∃ emitted, scanAll d (dicthtSize d.ht0.sizeExp + 1) 0 = some emitted ∧
      emitted.Perm (entries d) := by
  by_cases empty : dictSize d = 0
  · refine ⟨[], ?_, List.Perm.of_eq (entries_of_size sound empty).symm⟩
    rw [scanAll, dictScan, if_pos empty]
    rfl
  · obtain ⟨e, size, buckets, given⟩ := dictScan_given sound empty
    have bound : e ≤ 64 :=
      Nat.le_trans (size.elim (sound.first.bound e) (sound.second.bound e)) (by decide)
    have start : place (0 : BitVec 64) % block 64 e = 0 := by rw [place_zero, Nat.zero_mod]
    have blocks : 2 ^ e * block 64 e = 2 ^ 64 := by
      rw [block, ← Nat.pow_add, Nat.add_sub_cancel' bound]
    have enough : 2 ^ 64 ≤
        place (0 : BitVec 64) + (dicthtSize d.ht0.sizeExp + 1) * block 64 e := by
      rw [← blocks, place_zero, Nat.zero_add]
      exact Nat.mul_le_mul_right _ (Nat.le_succ_of_le buckets)
    obtain ⟨emitted, scanned, perm⟩ := scanAll_spec given _ 0 start enough
    have below : ∀ he, hashPlace t he < 2 ^ 64 := fun he => place_lt _
    rw [place_zero, filter_within_all below] at perm
    exact ⟨emitted, scanned, perm⟩

/-- In every state of every run, a scan with nothing in between gives out each entry once. -/
theorem scan_whole (lawful : Lawful t) {acts : List (Act κ υ)}
    (legal : Along (next t) Legal created acts) :
    Always (next t) (fun s => ∃ emitted,
      scanAll s.dict (dicthtSize s.dict.ht0.sizeExp + 1) 0 = some emitted ∧
        emitted.Perm (entries s.dict)) created acts :=
  always_mono (fun _ ⟨_, sim⟩ => scanAll_entries sim.sound) (simulates_always lawful legal)

end Whole

section Numbers

instance (i : Scanning κ υ) (turn : Turn κ υ) : Decidable (LegalTurn i turn) :=
  match turn with
  | .call act => inferInstanceAs (Decidable (Legal i.state act))
  | .scan => inferInstanceAs (Decidable True)

instance [DecidableEq κ] (t : DictType κ υ) (k : κ) (i : Scanning κ υ) (turn : Turn κ υ) :
    Decidable (Stays t k i turn) :=
  match turn with
  | .call _ => inferInstanceAs (Decidable True)
  | .scan => inferInstanceAs (Decidable (_ = true))

instance (size : Nat) (i : Scanning κ υ) (turn : Turn κ υ) : Decidable (Bounded size i turn) :=
  match turn with
  | .call _ => inferInstanceAs (Decidable True)
  | .scan => inferInstanceAs (Decidable (_ ∧ _))

/-- The table is grown, and moved in part, while it is scanned. -/
def scannedRun : List (Turn Nat Nat) :=
  [.call (.add 1 10 ⟨100, 0⟩), .call (.add 5 50 ⟨101, 0⟩), .call (.add 2 20 ⟨102, 0⟩), .scan,
    .call (.add 6 60 ⟨103, 0⟩), .call (.add 3 30 ⟨104, 0⟩), .scan, .call (.find 1), .scan,
    .call (.delete 1), .scan, .scan]

theorem scan_complete_scannedRun : Always (scanStep numberType)
    (fun i => i.through = true → ∃ key ∈ i.seen, sameKey numberType 5 key = true)
    begun scannedRun :=
  scan_complete lawful_number (by decide +kernel) (by decide +kernel)

theorem scan_ends_scannedRun : Always (scanStep numberType)
    (fun i => 2 ^ 3 ≤ i.scans → i.through = true) begun scannedRun :=
  scan_ends lawful_number (by decide) (by decide +kernel) (by decide +kernel)

theorem scan_whole_numberRun : Always (next numberType) (fun s => ∃ emitted,
    scanAll s.dict (dicthtSize s.dict.ht0.sizeExp + 1) 0 = some emitted ∧
      emitted.Perm (entries s.dict)) created numberRun :=
  scan_whole lawful_number numberRun_legal

end Numbers

end DictScan
