import Cfgd.DictTable
import Mathlib.Data.List.Nodup
import Mathlib.Data.Nat.Bitwise

/-!
# What keeps a dictionary in order

Every entry lies in the bucket of its hash, the counters count, no two entries have the
same key, and the buckets of the old table before `rehashidx` are empty. Each operation
keeps this, and does to the entries what it is for.
-/

namespace DictSound

open Buckets DictTable

variable {κ υ : Type} [DecidableEq κ]

/-- What is asked of the functions of the caller: equal keys have equal hashes, and the copy
of a key is equal to it. -/
structure Lawful (t : DictType κ υ) : Prop where
  eqv : Equality (sameKey t)
  hash : ∀ {a b}, sameKey t a b = true → t.hashFunction a = t.hashFunction b
  dup : ∀ a, sameKey t (dictSetKey t a) a = true

section Parts
variable (t : DictType κ υ)

/-- A table whose entries lie where their hashes place them. -/
structure TableSound (ht : Table κ υ) : Prop where
  size : ht.buckets.length = dicthtSize ht.sizeExp
  bound : ∀ e, ht.sizeExp = some e → e ≤ 60
  used : ht.used = ht.buckets.flatten.length
  placed : Placed (fun he => slot (t.hashFunction he.key) ht.sizeExp) ht.buckets

/-- A dictionary in order. -/
structure Sound (d : Dict κ υ) : Prop where
  first : TableSound t d.ht0
  second : TableSound t d.ht1
  idle : d.rehashidx = none → d.ht1.sizeExp = none
  moving : ∀ r, d.rehashidx = some r → d.ht0.sizeExp ≠ none ∧ d.ht1.sizeExp ≠ none ∧
    ∀ i < r, d.ht0.buckets[i]? = some []
  apart : Apart (sameKey t) DictEntry.key (entries d)
  addrs : ((entries d).map DictEntry.addr).Nodup

/-- The entry of a key. -/
def entryOf (d : Dict κ υ) (key : κ) : Option (DictEntry κ υ) :=
  under (sameKey t) DictEntry.key (entries d) key

end Parts

variable {t : DictType κ υ} {ht : Table κ υ} {d : Dict κ υ} {key : κ} {e : Nat}

section Tables

theorem slot_lt (hash : BitVec 64) (e : Nat) : slot hash (some e) < dicthtSize (some e) := by
  rw [slot, dicthtSizeMask, Nat.and_two_pow_sub_one_eq_mod]
  exact Nat.mod_lt _ (Nat.two_pow_pos e)

omit [DecidableEq κ] in
theorem tableSound_reset : TableSound t (dictReset : Table κ υ) where
  size := rfl
  bound := by simp [dictReset]
  used := rfl
  placed := placed_replicate _ 0

omit [DecidableEq κ] in
theorem tableSound_new (bound : e ≤ 60) :
    TableSound t (⟨List.replicate (2 ^ e) [], 0, some e⟩ : Table κ υ) where
  size := List.length_replicate
  bound e' same := by rwa [← Option.some.inj same]
  used := by simp
  placed := placed_replicate _ _

omit [DecidableEq κ] in
theorem buckets_eq_nil (sound : TableSound t ht) (none : ht.sizeExp = none) : ht.buckets = [] := by
  have size := sound.size
  rw [none] at size
  exact List.eq_nil_of_length_eq_zero size

omit [DecidableEq κ] in
theorem sizeExp_of_used (sound : TableSound t ht) (used : ht.used ≠ 0) :
    ∃ e, ht.sizeExp = some e := by
  refine Option.ne_none_iff_exists'.mp fun none => used ?_
  rw [sound.used, buckets_eq_nil sound none]
  rfl

omit [DecidableEq κ] in
theorem flatten_of_unused (sound : TableSound t ht) (unused : ht.used = 0) :
    ht.buckets.flatten = [] := List.eq_nil_of_length_eq_zero (sound.used.symm.trans unused)

omit [DecidableEq κ] in
theorem bucket_of_slot (sound : TableSound t ht) (size : ht.sizeExp = some e) (hash : BitVec 64) :
    ∃ chain, ht.buckets[slot hash ht.sizeExp]? = some chain := by
  have inside : slot hash ht.sizeExp < ht.buckets.length := by
    rw [sound.size, size]
    exact slot_lt hash e
  exact ⟨_, List.getElem?_eq_getElem inside⟩

/-- A search in the bucket of a key finds what is in the table. -/
theorem search_chain (lawful : Lawful t) (sound : TableSound t ht) {chain : List (DictEntry κ υ)}
    (here : ht.buckets[slot (t.hashFunction key) ht.sizeExp]? = some chain) :
    searchChain t key chain = under (sameKey t) DictEntry.key ht.buckets.flatten key := by
  refine (find_flatten here fun j other found x mem same => ?_).symm
  rw [← sound.placed j other found x mem]
  exact congrArg (slot · ht.sizeExp) (lawful.hash same).symm

/-- Chains grow at their heads. -/
def Grows (ht ht' : Table κ υ) : Prop :=
  ∀ (i : Nat) (chain : List (DictEntry κ υ)), ht.buckets[i]? = some chain →
    ∃ front, ht'.buckets[i]? = some (front ++ chain)

omit [DecidableEq κ] in
theorem Grows.refl (ht : Table κ υ) : Grows ht ht := fun _ _ there => ⟨[], there⟩

omit [DecidableEq κ] in
/-- An entry is put into its bucket. -/
theorem push_spec (sound : TableSound t ht) (size : ht.sizeExp = some e) (he : DictEntry κ υ) :
    ∃ ht', ht.push (slot (t.hashFunction he.key) ht.sizeExp) he = some ht' ∧ TableSound t ht' ∧
      ht'.sizeExp = ht.sizeExp ∧ ht'.buckets.flatten.Perm (he :: ht.buckets.flatten) ∧
      Grows ht ht' := by
  obtain ⟨chain, here⟩ := bucket_of_slot sound size (t.hashFunction he.key)
  have perm : (ht.buckets.set (slot (t.hashFunction he.key) ht.sizeExp) (he :: chain)).flatten.Perm
      (he :: ht.buckets.flatten) := by
    refine (List.perm_append_right_iff chain).mp ((flatten_set here).trans ?_)
    exact List.perm_middle
  have pushed : ht.push (slot (t.hashFunction he.key) ht.sizeExp) he = some { ht with
      buckets := ht.buckets.set (slot (t.hashFunction he.key) ht.sizeExp) (he :: chain)
      used := ht.used + 1 } := by
    rw [Table.push, here]
    rfl
  refine ⟨_, pushed, ⟨?_, sound.bound, ?_, ?_⟩, rfl, perm, ?_⟩
  · rw [List.length_set]
    exact sound.size
  · rw [perm.length_eq, List.length_cons, sound.used]
  · refine placed_set sound.placed fun x mem => ?_
    rcases List.mem_cons.mp mem with rfl | mem
    · rfl
    · exact sound.placed _ _ here x mem
  · intro i old there
    by_cases same : slot (t.hashFunction he.key) ht.sizeExp = i
    · subst same
      rw [here, Option.some.injEq] at there
      subst there
      exact ⟨[he], List.getElem?_set_self (List.getElem?_eq_some_iff.mp here).1⟩
    · exact ⟨[], by rw [List.getElem?_set_ne same]; exact there⟩

/-- Chains lose this entry at most. -/
def Loses (he : Option (DictEntry κ υ)) (ht ht' : Table κ υ) : Prop :=
  ∀ (i : Nat) (chain : List (DictEntry κ υ)), ht.buckets[i]? = some chain →
    ∃ front back, ht'.buckets[i]? = some (front ++ back) ∧
      (chain = front ++ back ∨ ∃ x, he = some x ∧ chain = front ++ x :: back)

omit [DecidableEq κ] in
theorem Loses.refl (he : Option (DictEntry κ υ)) (ht : Table κ υ) : Loses he ht ht :=
  fun _ chain there => ⟨chain, [], by rw [List.append_nil]; exact there,
    Or.inl (List.append_nil chain).symm⟩

omit [DecidableEq κ] in
theorem Loses.empty {he : Option (DictEntry κ υ)} {ht' : Table κ υ} (h : Loses he ht ht') {i : Nat}
    (empty : ht.buckets[i]? = some []) : ht'.buckets[i]? = some [] := by
  obtain ⟨front, back, there, same | ⟨x, _, more⟩⟩ := h i [] empty
  · rwa [← same] at there
  · cases front <;> cases more

/-- The entry of a key is unlinked, if there is one. -/
theorem unlink_spec (lawful : Lawful t) (sound : TableSound t ht) (size : ht.sizeExp = some e)
    (key : κ) :
    ∃ ht', ht.unlink t key =
        some (ht', under (sameKey t) DictEntry.key ht.buckets.flatten key) ∧
      TableSound t ht' ∧ ht'.sizeExp = ht.sizeExp ∧
      Loses (under (sameKey t) DictEntry.key ht.buckets.flatten key) ht ht' ∧
      ht.buckets.flatten.Perm
        ((under (sameKey t) DictEntry.key ht.buckets.flatten key).toList ++
          ht'.buckets.flatten) := by
  obtain ⟨chain, here⟩ := bucket_of_slot sound size (t.hashFunction key)
  have found := search_chain lawful sound here
  rw [← found, Table.unlink, Option.bind_eq_bind, here, Option.bind_some]
  cases search : searchChain t key chain with
  | none => exact ⟨ht, rfl, sound, rfl, Loses.refl none ht, List.Perm.refl _⟩
  | some he =>
    obtain ⟨front, back, parts, erased⟩ := eraseP_of_find search
    have perm : ht.buckets.flatten.Perm (he :: (ht.buckets.set
        (slot (t.hashFunction key) ht.sizeExp) (front ++ back)).flatten) := by
      refine (List.perm_append_right_iff (front ++ back)).mp ?_
      refine (flatten_set here).symm.trans ?_
      rw [parts]
      exact (List.perm_middle.append_left _).trans List.perm_middle
    refine ⟨_, rfl, ⟨?_, sound.bound, ?_, ?_⟩, rfl, ?_, by rw [erased]; exact perm⟩
    · rw [List.length_set]
      exact sound.size
    · have count := perm.length_eq
      rw [List.length_cons] at count
      rw [erased, sound.used, count, Nat.add_sub_cancel]
    · refine placed_set sound.placed fun x mem => sound.placed _ _ here x ?_
      rw [erased] at mem
      rw [parts]
      exact (List.perm_middle.mem_iff).mpr (List.mem_cons_of_mem _ mem)
    · intro i old there
      by_cases same : slot (t.hashFunction key) ht.sizeExp = i
      · subst same
        rw [here, Option.some.injEq] at there
        subst there
        exact ⟨front, back, by rw [erased]; exact
          List.getElem?_set_self (List.getElem?_eq_some_iff.mp here).1, Or.inr ⟨he, rfl, parts⟩⟩
      · refine ⟨old, [], ?_, Or.inl (List.append_nil old).symm⟩
        rw [List.append_nil, List.getElem?_set_ne same]
        exact there

omit [DecidableEq κ] in
theorem tableSound_mapEntries (sound : TableSound t ht) {f : DictEntry κ υ → DictEntry κ υ}
    (keeps : ∀ he, (f he).key = he.key) : TableSound t (ht.mapEntries f) where
  size := by
    rw [Table.mapEntries, List.length_map]
    exact sound.size
  bound := sound.bound
  used := by
    rw [Table.mapEntries, ← List.map_flatten, List.length_map]
    exact sound.used
  placed := by
    intro i bucket found x mem
    rw [Table.mapEntries, List.getElem?_map] at found
    obtain ⟨chain, here, rfl⟩ := Option.map_eq_some_iff.mp found
    obtain ⟨he, inside, rfl⟩ := List.mem_map.mp mem
    dsimp only
    rw [keeps]
    exact sound.placed i chain here he inside

end Tables

section Rehash
variable {d' : Dict κ υ} {n r idx : Nat} {chain : List (DictEntry κ υ)}

/-- How far a call with `n` steps comes. -/
def Advanced (n : Nat) (d d' : Dict κ υ) : Prop :=
  (d.rehashidx = none ∧ d' = d) ∨
  (∃ r r', d.rehashidx = some r ∧ d'.rehashidx = some r' ∧ r + n ≤ r' ∧ d'.ht0.used ≠ 0 ∧
    d'.ht0.sizeExp = d.ht0.sizeExp ∧ d'.ht1.sizeExp = d.ht1.sizeExp) ∨
  (∃ r, d.rehashidx = some r ∧ d'.rehashidx = none ∧ d'.ht0.sizeExp = d.ht1.sizeExp)

variable (t) in
/-- The same entries in a dictionary in order. -/
structure Kept (d d' : Dict κ υ) : Prop where
  sound : Sound t d'
  perm : (entries d').Perm (entries d)
  pause : d'.pauserehash = d.pauserehash

theorem Kept.refl (sound : Sound t d) : Kept t d d := ⟨sound, List.Perm.refl _, rfl⟩

theorem Kept.trans {d'' : Dict κ υ} (h : Kept t d d') (h' : Kept t d' d'') : Kept t d d'' :=
  ⟨h'.sound, h'.perm.trans h.perm, h'.pause.trans h.pause⟩

theorem dictSize_eq (sound : Sound t d) : dictSize d = (entries d).length := by
  rw [dictSize, sound.first.used, sound.second.used, entries, List.length_append]

theorem Kept.size (h : Kept t d d') (sound : Sound t d) : dictSize d' = dictSize d := by
  rw [dictSize_eq sound, dictSize_eq h.sound, h.perm.length_eq]

theorem entryOf_kept (lawful : Lawful t) (h : Kept t d d') (key : κ) :
    entryOf t d' key = entryOf t d key :=
  under_perm lawful.eqv h.sound.apart h.perm key

/-- What is left to prove of tables that hold the entries of a dictionary in order. -/
theorem sound_of_perm (lawful : Lawful t) (sound : Sound t d) (first : TableSound t d'.ht0)
    (second : TableSound t d'.ht1) (idle : d'.rehashidx = none → d'.ht1.sizeExp = none)
    (moving : ∀ r, d'.rehashidx = some r → d'.ht0.sizeExp ≠ none ∧ d'.ht1.sizeExp ≠ none ∧
      ∀ i < r, d'.ht0.buckets[i]? = some [])
    (perm : (entries d').Perm (entries d)) : Sound t d' where
  first := first
  second := second
  idle := idle
  moving := moving
  apart := (apart_perm lawful.eqv perm).mpr sound.apart
  addrs := (perm.map DictEntry.addr).nodup_iff.mpr sound.addrs

omit [DecidableEq κ] in
theorem skipEmpty_spec {buckets : List (List (DictEntry κ υ))} {visits idx k : Nat}
    {x : DictEntry κ υ} {rest : List (DictEntry κ υ)} (filled : buckets[k]? = some (x :: rest))
    (ahead : idx ≤ k) (empty : ∀ i < idx, buckets[i]? = some []) (visit : visits ≠ 0) :
    ∃ idx' left, skipEmpty buckets visits idx = some (idx', left) ∧
      idx' + left = idx + visits ∧ idx ≤ idx' ∧ (∀ i < idx', buckets[i]? = some []) ∧
      (left ≠ 0 → ∃ y others, buckets[idx']? = some (y :: others)) := by
  induction visits generalizing idx with
  | zero => exact absurd rfl visit
  | succ visits ih =>
    have inside : idx < buckets.length :=
      Nat.lt_of_le_of_lt ahead (List.getElem?_eq_some_iff.mp filled).1
    rw [skipEmpty]
    cases here : buckets[idx]? with
    | none =>
      rw [List.getElem?_eq_none_iff] at here
      omega
    | some chain =>
      cases chain with
      | cons y others =>
        exact ⟨idx, visits + 1, rfl, rfl, Nat.le_refl idx, empty, fun _ => ⟨y, others, here⟩⟩
      | nil =>
        have before : ∀ i < idx + 1, buckets[i]? = some [] := by
          intro i less
          rcases Nat.lt_succ_iff_lt_or_eq.mp less with less | rfl
          · exact empty i less
          · exact here
        by_cases last : visits = 0
        · refine ⟨idx + 1, 0, by simp [last], by omega, by omega, before,
            fun left => absurd rfl left⟩
        · have further : idx + 1 ≤ k := by
            rcases Nat.eq_or_lt_of_le ahead with rfl | less
            · rw [here] at filled
              cases filled
            · exact less
          obtain ⟨idx', left, skipped, sum, order, empty', found⟩ := ih further before last
          refine ⟨idx', left, ?_, by omega, by omega, empty', found⟩
          dsimp only
          rw [if_neg last]
          exact skipped

omit [DecidableEq κ] in
theorem moveChain_spec {new : Table κ υ} (sound : TableSound t new) (size : new.sizeExp = some e)
    (chain : List (DictEntry κ υ)) :
    ∃ new', moveChain t chain new = some new' ∧ TableSound t new' ∧ new'.sizeExp = new.sizeExp ∧
      new'.buckets.flatten.Perm (chain ++ new.buckets.flatten) := by
  induction chain generalizing new with
  | nil => exact ⟨new, rfl, sound, rfl, List.Perm.refl _⟩
  | cons de rest ih =>
    obtain ⟨next, pushed, sound', size', perm, _⟩ := push_spec sound size de
    obtain ⟨new', moved, sound'', size'', perm'⟩ := ih sound' (size'.trans size)
    refine ⟨new', ?_, sound'', size''.trans size', ?_⟩
    · rw [moveChain, moveEntry, pushed]
      exact moved
    · exact perm'.trans ((perm.append_left rest).trans List.perm_middle)

theorem moveBucket_spec (lawful : Lawful t) (sound : Sound t d) (rehashing : d.rehashidx = some r)
    (here : d.ht0.buckets[idx]? = some chain) (empty : ∀ i < idx, d.ht0.buckets[i]? = some []) :
    ∃ d', moveBucket t d idx = some d' ∧ Kept t d d' ∧ d'.rehashidx = some (idx + 1) ∧
      d'.ht0.sizeExp = d.ht0.sizeExp ∧ d'.ht1.sizeExp = d.ht1.sizeExp := by
  obtain ⟨memory, memory', _⟩ := sound.moving r rehashing
  obtain ⟨e, size⟩ := Option.ne_none_iff_exists'.mp memory'
  obtain ⟨new, moved, second, size', perm⟩ := moveChain_spec sound.second size chain
  have cleared : ((d.ht0.buckets.set idx []).flatten ++ chain).Perm d.ht0.buckets.flatten :=
    (flatten_set here).trans (List.Perm.of_eq (List.append_nil _))
  have first : TableSound t { d.ht0 with
      buckets := d.ht0.buckets.set idx [], used := d.ht0.used - chain.length } := by
    refine ⟨?_, sound.first.bound, ?_, placed_set sound.first.placed fun x mem => by cases mem⟩
    · rw [List.length_set]
      exact sound.first.size
    · have count := cleared.length_eq
      rw [List.length_append, ← sound.first.used] at count
      exact (Nat.eq_sub_of_add_eq count).symm
  have all : ((d.ht0.buckets.set idx []).flatten ++ new.buckets.flatten).Perm (entries d) := by
    refine (perm.append_left _).trans ?_
    rw [← List.append_assoc]
    exact cleared.append_right _
  have done : moveBucket t d idx = some { d with
      ht0 := { d.ht0 with
        buckets := d.ht0.buckets.set idx [], used := d.ht0.used - chain.length }
      ht1 := new
      rehashidx := some (idx + 1) } := by
    rw [moveBucket, here]
    dsimp only
    rw [moved]
    rfl
  refine ⟨_, done, ⟨sound_of_perm lawful sound first second (by simp) ?_ all, all, rfl⟩,
    rfl, rfl, size'⟩
  · intro i same
    obtain rfl := Option.some.inj same
    refine ⟨memory, fun none => memory' (size'.symm.trans none), fun i less => ?_⟩
    rcases Nat.lt_succ_iff_lt_or_eq.mp less with less | rfl
    · rw [List.getElem?_set_ne (Nat.ne_of_gt less)]
      exact empty i less
    · exact List.getElem?_set_self (List.getElem?_eq_some_iff.mp here).1

theorem rehashLoop_spec (lawful : Lawful t) (n : Nat) :
    ∀ (visits r : Nat) (d : Dict κ υ), Sound t d → d.rehashidx = some r → (n ≠ 0 → visits ≠ 0) →
      ∃ d' early r', rehashLoop t n visits d = some (d', early) ∧ Kept t d d' ∧
        d'.ht0.sizeExp = d.ht0.sizeExp ∧ d'.ht1.sizeExp = d.ht1.sizeExp ∧
        d'.rehashidx = some r' ∧ (early = true → r + visits ≤ r' ∧ d'.ht0.used ≠ 0) ∧
        (early = false → d'.ht0.used = 0 ∨ r + n ≤ r') := by
  induction n with
  | zero =>
    intro visits r d sound rehashing _
    exact ⟨d, false, r, rfl, Kept.refl sound, rfl, rfl, rehashing, by simp,
      fun _ => Or.inr (Nat.le_refl r)⟩
  | succ n ih =>
    intro visits r d sound rehashing visit
    by_cases unused : d.ht0.used = 0
    · exact ⟨d, false, r, by rw [rehashLoop, if_pos unused], Kept.refl sound, rfl, rfl, rehashing,
        by simp, fun _ => Or.inl unused⟩
    -- an entry is left, and it lies behind the buckets that were moved
    obtain ⟨memory, memory', empty⟩ := sound.moving r rehashing
    obtain ⟨k, x, rest, filled⟩ := exists_filled fun none =>
      unused (sound.first.used.trans (by rw [none]; rfl))
    have ahead : r ≤ k := by
      by_contra less
      rw [empty k (Nat.lt_of_not_le less)] at filled
      cases filled
    have inside : ¬ dicthtSize d.ht0.sizeExp ≤ r := by
      have k_lt := (List.getElem?_eq_some_iff.mp filled).1
      rw [sound.first.size] at k_lt
      omega
    obtain ⟨idx, left, skipped, sum, order, empty', found⟩ :=
      skipEmpty_spec filled ahead empty (visit (Nat.succ_ne_zero n))
    rw [rehashLoop, if_neg unused, rehashing]
    dsimp only
    rw [if_neg inside, skipped]
    cases left with
    | zero =>
      refine ⟨_, true, idx, rfl, ⟨sound_of_perm lawful sound sound.first sound.second (by simp) ?_
        (List.Perm.refl _), List.Perm.refl _, rfl⟩, rfl, rfl, rfl,
        fun _ => ⟨by omega, unused⟩, by simp⟩
      intro r' same
      obtain rfl := Option.some.inj same
      exact ⟨memory, memory', empty'⟩
    | succ left =>
      obtain ⟨y, others, here⟩ := found (Nat.succ_ne_zero left)
      obtain ⟨d₁, moved, kept, rehashing', size, size'⟩ :=
        moveBucket_spec lawful sound rehashing here empty'
      obtain ⟨d', early, r', done, kept', size₁, size₁', rehashing'', gaveUp, through⟩ :=
        ih (left + 1) (idx + 1) d₁ kept.sound rehashing' fun _ => Nat.succ_ne_zero left
      dsimp only
      rw [moved]
      refine ⟨d', early, r', done, kept.trans kept', size₁.trans size, size₁'.trans size',
        rehashing'', fun yes => ?_, fun no => ?_⟩
      · obtain ⟨further, left'⟩ := gaveUp yes
        exact ⟨by omega, left'⟩
      · rcases through no with unused' | further
        · exact Or.inl unused'
        · exact Or.inr (by omega)

theorem kept_takeOver (lawful : Lawful t) (sound : Sound t d) (unused : d.ht0.used = 0) :
    Kept t d (takeOver d) := by
  have same : entries (takeOver d) = entries d := by
    rw [entries, entries, flatten_of_unused sound.first unused]
    exact List.append_nil _
  have perm := List.Perm.of_eq same
  exact ⟨sound_of_perm lawful sound sound.second tableSound_reset (fun _ => rfl)
    (by simp [takeOver])
    perm, perm, rfl⟩

/-- `dictRehash` comes to an end, moves entries and loses none, and makes `n` steps or is
done. -/
theorem dictRehash_spec (lawful : Lawful t) (sound : Sound t d) (n : Nat) :
    ∃ d', dictRehash t d n = some (d', dictIsRehashing d') ∧ Kept t d d' ∧ Advanced n d d' := by
  cases rehashing : d.rehashidx with
  | none =>
    have idle : dictIsRehashing d = false := by rw [dictIsRehashing, rehashing]; rfl
    exact ⟨d, by rw [dictRehash, if_pos idle, idle], Kept.refl sound, Or.inl ⟨rehashing, rfl⟩⟩
  | some r =>
    have busy : ¬ dictIsRehashing d = false := by rw [dictIsRehashing, rehashing]; simp
    obtain ⟨d', early, r', done, kept, size, size', rehashing', gaveUp, through⟩ :=
      rehashLoop_spec lawful n (n * 10) r d sound rehashing (by omega)
    have more : dictIsRehashing d' = true := by rw [dictIsRehashing, rehashing']; rfl
    rw [dictRehash, if_neg busy, done]
    cases early with
    | true =>
      obtain ⟨further, left⟩ := gaveUp rfl
      exact ⟨d', by rw [more], kept,
        Or.inr (Or.inl ⟨r, r', rehashing, rehashing', by omega, left, size, size'⟩)⟩
    | false =>
      dsimp only
      by_cases unused : d'.ht0.used = 0
      · rw [if_pos unused]
        exact ⟨takeOver d', rfl, kept.trans (kept_takeOver lawful kept.sound unused),
          Or.inr (Or.inr ⟨r, rehashing, rfl, size'⟩)⟩
      · rw [if_neg unused]
        exact ⟨d', by rw [more], kept, Or.inr (Or.inl ⟨r, r', rehashing, rehashing',
          (through rfl).resolve_left unused, unused, size, size'⟩)⟩

theorem kept_rehashRounds (lawful : Lawful t) (rounds : Nat) (sound : Sound t d) :
    ∃ d', rehashRounds t rounds d = some d' ∧ Kept t d d' := by
  induction rounds generalizing d with
  | zero =>
    obtain ⟨d', done, kept, _⟩ := dictRehash_spec lawful sound 100
    exact ⟨d', by rw [rehashRounds, done]; rfl, kept⟩
  | succ rounds ih =>
    obtain ⟨d', done, kept, _⟩ := dictRehash_spec lawful sound 100
    rw [rehashRounds, done]
    cases dictIsRehashing d' with
    | false => exact ⟨d', rfl, kept⟩
    | true =>
      obtain ⟨d'', done', kept'⟩ := ih kept.sound
      exact ⟨d'', done', kept.trans kept'⟩

theorem kept_dictRehashMilliseconds (lawful : Lawful t) (rounds : Nat) (sound : Sound t d) :
    ∃ d', dictRehashMilliseconds t d rounds = some d' ∧ Kept t d d' := by
  rw [dictRehashMilliseconds]
  split
  · exact ⟨d, rfl, Kept.refl sound⟩
  · exact kept_rehashRounds lawful rounds sound

/-- The step before a lookup or an update, which a pause leaves out. -/
theorem stepIfRehashing_spec (lawful : Lawful t) (sound : Sound t d) :
    ∃ d', stepIfRehashing t d = some d' ∧ Kept t d d' ∧
      (d.pauserehash = 0 → Advanced 1 d d') ∧ (d.pauserehash ≠ 0 → d' = d) := by
  rw [stepIfRehashing]
  split
  · rw [dictRehashStep]
    split
    · rename_i running
      obtain ⟨d', done, kept, advanced⟩ := dictRehash_spec lawful sound 1
      exact ⟨d', by rw [done]; rfl, kept, fun _ => advanced, fun paused => absurd running paused⟩
    · rename_i paused
      exact ⟨d, rfl, Kept.refl sound, fun running => absurd running paused, fun _ => rfl⟩
  · rename_i idle
    refine ⟨d, rfl, Kept.refl sound, fun _ => Or.inl ⟨?_, rfl⟩, fun _ => rfl⟩
    simpa [dictIsRehashing] using idle

end Rehash

end DictSound
