import Cfgd.ChainCursor
import Cfgd.DictRuns

/-!
# Safe iterators

A safe iterator holds the rehashing back from its first step on, and keeps the address of the
entry that is next. So the dictionary may be changed while it goes on, as long as that entry
is not deleted.
-/

namespace DictIterator

open Buckets ChainCursor DictTable DictSound DictCalls DictRuns Transition

variable {κ υ : Type}

section Model

/-- `dictIterator` with `safe` set; there is no index, or -1, before the first bucket. -/
structure Iterator where
  table : Nat
  index : Option Nat
  entry : Option Nat
  nextEntry : Option Nat

/-- `dictGetSafeIterator` -/
def dictGetSafeIterator : Iterator := ⟨0, none, none, none⟩

def tableOf (d : Dict κ υ) (table : Nat) : Table κ υ := if table = 0 then d.ht0 else d.ht1

/-- The entry at an address of a chain, and the address of the one behind it. -/
def readIn (addr : Nat) : List (DictEntry κ υ) → Option (DictEntry κ υ × Option Nat)
  | [] => none
  | he :: rest =>
    if he.addr = addr then some (he, rest.head?.map DictEntry.addr) else readIn addr rest

/-- Reads an entry through its pointer; there is none when it is in no table any more. -/
def entryAt (d : Dict κ υ) (addr : Nat) : Option (DictEntry κ υ × Option Nat) :=
  (d.ht0.buckets ++ d.ht1.buckets).findSome? (readIn addr)

/-- `iter->index` after its increment. -/
def Iterator.nextIndex (iter : Iterator) : Nat :=
  match iter.index with
  | none => 0
  | some i => i + 1

/-- The loop of `dictNext` where `iter->entry` is NULL. -/
def nextLoop (d : Dict κ υ) : (left : Nat) → Iterator → Option (Iterator × Option (DictEntry κ υ))
  | 0, _ => none
  | left + 1, iter =>
    let stop := dicthtSize (tableOf d iter.table).sizeExp ≤ iter.nextIndex
    if stop ∧ ¬ (dictIsRehashing d ∧ iter.table = 0) then
      some ({ iter with index := some iter.nextIndex }, none)
    else
      let table := if stop then 1 else iter.table
      let index := if stop then 0 else iter.nextIndex
      match (tableOf d table).buckets[index]? with
      | none => none
      | some [] => nextLoop d left ⟨table, some index, none, iter.nextEntry⟩
      | some (he :: rest) =>
        some (⟨table, some index, some he.addr, rest.head?.map DictEntry.addr⟩, some he)

/-- `dictNext`; the first call pauses the rehashing. -/
def dictNext (d : Dict κ υ) (iter : Iterator) :
    Option (Dict κ υ × Iterator × Option (DictEntry κ υ)) :=
  match iter.entry with
  | none =>
    let d := if iter.index = none ∧ iter.table = 0 then
      { d with pauserehash := d.pauserehash + 1 } else d
    (nextLoop d (dictSlots d + 1) iter).map fun (iter, he) => (d, iter, he)
  | some _ =>
    match iter.nextEntry with
    | none => (nextLoop d (dictSlots d + 1) { iter with entry := none }).map fun (iter, he) =>
      (d, iter, he)
    | some addr => (entryAt d addr).map fun (he, nextEntry) =>
      (d, { iter with entry := some addr, nextEntry }, some he)

end Model

section Places
variable {t : DictType κ υ} {d : Dict κ υ} {iter : Iterator} {table index p q : Nat}

/-- The chains of both tables. -/
def chains (d : Dict κ υ) : List (List (DictEntry κ υ)) := d.ht0.buckets ++ d.ht1.buckets

def rows (d : Dict κ υ) : List (List Nat) := (chains d).map (List.map DictEntry.addr)

/-- A bucket of a table is the row `p`. -/
def At (d : Dict κ υ) (table index p : Nat) : Prop :=
  table = 0 ∧ p = index ∧ index < dicthtSize d.ht0.sizeExp ∨
    table = 1 ∧ p = dicthtSize d.ht0.sizeExp + index

/-- The next bucket to be looked at is the row `q`. -/
def From (d : Dict κ υ) (iter : Iterator) (q : Nat) : Prop :=
  iter.table = 0 ∧ q = iter.nextIndex ∧ q ≤ dicthtSize d.ht0.sizeExp ∨
    iter.table = 1 ∧ q = dicthtSize d.ht0.sizeExp + iter.nextIndex

theorem flatten_chains (d : Dict κ υ) : (chains d).flatten = entries d := List.flatten_append

theorem flatten_rows (d : Dict κ υ) : (rows d).flatten = (entries d).map DictEntry.addr := by
  rw [rows, ← List.map_flatten, flatten_chains]

variable [DecidableEq κ]

theorem length_chains (sound : Sound t d) : (chains d).length = dictSlots d := by
  rw [chains, List.length_append, sound.first.size, sound.second.size, dictSlots]

theorem chains_at (sound : Sound t d) (place : At d table index p) :
    (chains d)[p]? = (tableOf d table).buckets[index]? := by
  rcases place with ⟨rfl, rfl, inside⟩ | ⟨rfl, rfl⟩
  · rw [chains, List.getElem?_append_left (by rwa [sound.first.size])]
    rfl
  · rw [chains, List.getElem?_append_right (by rw [sound.first.size]; exact Nat.le_add_right _ _),
      sound.first.size, Nat.add_sub_cancel_left]
    rfl

omit [DecidableEq κ] in
theorem from_next (place : At d table index p) (nextEntry : Option Nat) :
    From d ⟨table, some index, none, nextEntry⟩ (p + 1) := by
  rcases place with ⟨rfl, rfl, inside⟩ | ⟨rfl, rfl⟩
  · exact Or.inl ⟨rfl, rfl, inside⟩
  · exact Or.inr ⟨rfl, rfl⟩

/-- A turn of the loop comes to the end, or to the next row. -/
theorem nextLoop_turn (sound : Sound t d) (start : From d iter q) (left : Nat) :
    (chains d).length ≤ q ∧ (∃ iter', nextLoop d (left + 1) iter = some (iter', none)) ∨
      ∃ table index chain, At d table index q ∧ (chains d)[q]? = some chain ∧
        nextLoop d (left + 1) iter = match chain with
          | [] => nextLoop d left ⟨table, some index, none, iter.nextEntry⟩
          | he :: rest =>
            some (⟨table, some index, some he.addr, rest.head?.map DictEntry.addr⟩, some he) := by
  have visit : ∀ {table index chain}, At d table index q →
      (tableOf d table).buckets[index]? = some chain → (chains d)[q]? = some chain :=
    fun place there => (chains_at sound place).trans there
  rw [nextLoop]
  dsimp only
  rcases start with ⟨table, rfl, inside⟩ | ⟨table, rfl⟩
  · rw [table, show tableOf d 0 = d.ht0 from rfl]
    by_cases stop : dicthtSize d.ht0.sizeExp ≤ iter.nextIndex
    · have last : iter.nextIndex = dicthtSize d.ht0.sizeExp := Nat.le_antisymm inside stop
      cases rehashing : d.rehashidx with
      | none =>
        have idle : ¬ (dictIsRehashing d = true ∧ 0 = 0) := by simp [dictIsRehashing, rehashing]
        rw [if_pos ⟨stop, idle⟩]
        refine Or.inl ⟨?_, _, rfl⟩
        rw [length_chains sound, dictSlots, sound.idle rehashing, last]
        exact Nat.le_refl _
      | some r =>
        obtain ⟨e, size⟩ := Option.ne_none_iff_exists'.mp (sound.moving r rehashing).2.1
        have busy : dictIsRehashing d = true := by rw [dictIsRehashing, rehashing]; rfl
        have inside' : 0 < d.ht1.buckets.length := by
          rw [sound.second.size, size]
          exact Nat.two_pow_pos e
        have there : d.ht1.buckets[0]? = some d.ht1.buckets[0] := List.getElem?_eq_getElem inside'
        have place : At d 1 0 iter.nextIndex := Or.inr ⟨rfl, last⟩
        rw [if_neg (fun h => h.2 ⟨busy, rfl⟩), if_pos stop, if_pos stop,
          show tableOf d 1 = d.ht1 from rfl, there]
        refine Or.inr ⟨1, 0, _, place, visit place there, ?_⟩
        cases d.ht1.buckets[0] <;> rfl
    · have inside' : iter.nextIndex < d.ht0.buckets.length := by
        rw [sound.first.size]
        exact Nat.lt_of_not_le stop
      have there := List.getElem?_eq_getElem inside'
      have place : At d 0 iter.nextIndex iter.nextIndex :=
        Or.inl ⟨rfl, rfl, Nat.lt_of_not_le stop⟩
      rw [if_neg (fun h => stop h.1), if_neg stop, if_neg stop, show tableOf d 0 = d.ht0 from rfl,
        there]
      refine Or.inr ⟨0, iter.nextIndex, _, place, visit place there, ?_⟩
      cases d.ht0.buckets[iter.nextIndex] <;> rfl
  · rw [table, show tableOf d 1 = d.ht1 from rfl]
    by_cases stop : dicthtSize d.ht1.sizeExp ≤ iter.nextIndex
    · rw [if_pos ⟨stop, by simp⟩]
      refine Or.inl ⟨?_, _, rfl⟩
      rw [length_chains sound, dictSlots]
      exact Nat.add_le_add_left stop _
    · have inside' : iter.nextIndex < d.ht1.buckets.length := by
        rw [sound.second.size]
        exact Nat.lt_of_not_le stop
      have there := List.getElem?_eq_getElem inside'
      have place : At d 1 iter.nextIndex (dicthtSize d.ht0.sizeExp + iter.nextIndex) :=
        Or.inr ⟨rfl, rfl⟩
      rw [if_neg (fun h => stop h.1), if_neg stop, if_neg stop, show tableOf d 1 = d.ht1 from rfl,
        there]
      refine Or.inr ⟨1, iter.nextIndex, _, place, visit place there, ?_⟩
      cases d.ht1.buckets[iter.nextIndex] <;> rfl

/-- The iterator rests on an entry of the row `p`, and `back` is behind it there. -/
structure Resting (d : Dict κ υ) (iter : Iterator) (p : Nat) (front back : List Nat) : Prop where
  place : ∃ index, iter.index = some index ∧ At d iter.table index p
  entry : iter.entry ≠ none
  next : iter.nextEntry = back.head?
  here : (rows d)[p]? = some (front ++ back)

/-- The loop finds the first entry from the row `q` on. -/
theorem nextLoop_spec (sound : Sound t d) (left : Nat) :
    ∀ (iter : Iterator) (q : Nat), From d iter q → dictSlots d - q < left →
      (∃ iter', nextLoop d left iter = some (iter', none) ∧ ∀ a, ¬ Upcoming (rows d) q a) ∨
        ∃ iter' p he back, nextLoop d left iter = some (iter', some he) ∧ he ∈ entries d ∧
          Resting d iter' p [he.addr] back ∧ q ≤ p ∧
          ∀ j, q ≤ j → j < p → (rows d)[j]? = some [] := by
  induction left with
  | zero => exact fun _ _ _ enough => absurd enough (Nat.not_lt_zero _)
  | succ left ih =>
    intro iter q start enough
    rcases nextLoop_turn sound start left with ⟨ends, iter', done⟩ |
      ⟨table, index, chain, place, there, turn⟩
    · refine Or.inl ⟨iter', done, ?_⟩
      rintro a ⟨j, row, from_, here, _⟩
      have inside := (List.getElem?_eq_some_iff.mp here).1
      rw [rows, List.length_map] at inside
      omega
    rw [turn]
    have row : (rows d)[q]? = some (chain.map DictEntry.addr) := by
      rw [rows, List.getElem?_map, there]
      rfl
    cases chain with
    | nil =>
      have inside := (List.getElem?_eq_some_iff.mp there).1
      rw [length_chains sound] at inside
      rcases ih _ _ (from_next place iter.nextEntry) (by omega) with ⟨iter', done, none_⟩ |
        ⟨iter', p, he, back, done, mem, resting, further, empty⟩
      · refine Or.inl ⟨iter', done, ?_⟩
        rintro a ⟨j, row', from_, here, mem⟩
        rcases Nat.eq_or_lt_of_le from_ with rfl | later
        · rw [row, Option.some.injEq] at here
          rw [← here] at mem
          cases mem
        · exact none_ a ⟨j, row', later, here, mem⟩
      · refine Or.inr ⟨iter', p, he, back, done, mem, resting, by omega, fun j from_ before => ?_⟩
        rcases Nat.eq_or_lt_of_le from_ with rfl | later
        · exact row
        · exact empty j later before
    | cons he rest =>
      refine Or.inr ⟨_, q, he, rest.map DictEntry.addr, rfl, ?_, ⟨⟨index, rfl, place⟩, by simp,
        List.head?_map.symm, row⟩, Nat.le_refl q, fun j from_ before => by omega⟩
      rw [← flatten_chains]
      exact mem_flatten_of_bucket there List.mem_cons_self

omit [DecidableEq κ] in
theorem readIn_none {addr : Nat} {chain : List (DictEntry κ υ)}
    (outside : addr ∉ chain.map DictEntry.addr) : readIn addr chain = none := by
  induction chain with
  | nil => rfl
  | cons he rest ih =>
    rw [List.map_cons, List.mem_cons, not_or] at outside
    rw [readIn, if_neg (Ne.symm outside.1), ih outside.2]

omit [DecidableEq κ] in
theorem readIn_mem {he : DictEntry κ υ} {front rest : List (DictEntry κ υ)}
    (first : he.addr ∉ front.map DictEntry.addr) :
    readIn he.addr (front ++ he :: rest) = some (he, rest.head?.map DictEntry.addr) := by
  induction front with
  | nil => exact if_pos rfl
  | cons x front ih =>
    rw [List.map_cons, List.mem_cons, not_or] at first
    rw [List.cons_append, readIn, if_neg (Ne.symm first.1), ih first.2]

omit [DecidableEq κ] in
/-- An entry that is in a table is read through its pointer. -/
theorem findSome_chain {l : List (List (DictEntry κ υ))} {he : DictEntry κ υ}
    {front rest : List (DictEntry κ υ)} (nodup : (l.flatten.map DictEntry.addr).Nodup)
    (here : l[p]? = some (front ++ he :: rest)) :
    l.findSome? (readIn he.addr) = some (he, rest.head?.map DictEntry.addr) := by
  induction l generalizing p with
  | nil => cases here
  | cons chain others ih =>
    rw [List.flatten_cons, List.map_append] at nodup
    obtain ⟨first, later, apart⟩ := List.nodup_append.mp nodup
    rw [List.findSome?_cons]
    cases p with
    | zero =>
      obtain rfl : chain = front ++ he :: rest := Option.some.inj here
      rw [List.map_append] at first
      rw [readIn_mem fun mem =>
        (List.nodup_append.mp first).2.2 _ mem _ List.mem_cons_self rfl]
    | succ p =>
      have inside : he ∈ others.flatten :=
        mem_flatten_of_bucket here (List.mem_append_right _ List.mem_cons_self)
      rw [readIn_none fun mem => apart _ mem _ (List.mem_map_of_mem inside) rfl]
      exact ih later here

theorem entryAt_spec (sound : Sound t d) {addr : Nat} {front back : List Nat}
    (here : (rows d)[p]? = some (front ++ addr :: back)) :
    ∃ he ∈ entries d, he.addr = addr ∧ entryAt d addr = some (he, back.head?) := by
  rw [rows, List.getElem?_map, Option.map_eq_some_iff] at here
  obtain ⟨chain, there, parts⟩ := here
  obtain ⟨front', last, rfl, _, parts⟩ := List.map_eq_append_iff.mp parts
  obtain ⟨he, rest, rfl, rfl, rfl⟩ := List.map_eq_cons_iff.mp parts
  refine ⟨he, ?_, rfl, ?_⟩
  · rw [← flatten_chains]
    exact mem_flatten_of_bucket there (List.mem_append_right _ List.mem_cons_self)
  · have nodup : ((chains d).flatten.map DictEntry.addr).Nodup := by
      rw [flatten_chains]
      exact sound.addrs
    rw [List.head?_map]
    exact findSome_chain nodup there

end Places

section Next
variable [DecidableEq κ]
variable {t : DictType κ υ} {d : Dict κ υ} {iter : Iterator} {p q : Nat} {front back : List Nat}

/-- A step of the iterator: at the end nothing is ahead, else the entry that was ahead is
behind, and all others are where they were. -/
inductive Stepped (d : Dict κ υ) (ahead behind : Nat → Prop) :
    Iterator → Option (DictEntry κ υ) → Prop where
  | through (iter' : Iterator) (ends : ∀ a, ¬ ahead a) : Stepped d ahead behind iter' none
  | entry (iter' : Iterator) (p' : Nat) (he : DictEntry κ υ) (front' back' : List Nat)
      (mem : he ∈ entries d) (resting : Resting d iter' p' front' back')
      (given : ahead he.addr) (passed : Behind (rows d) p' front' he.addr)
      (others : ∀ a, a ≠ he.addr → (ahead a → Ahead (rows d) p' back' a) ∧
        (behind a → Behind (rows d) p' front' a)) : Stepped d ahead behind iter' (some he)

theorem loop_stepped (sound : Sound t d) (start : From d iter q) {behind : Nat → Prop}
    (passed : ∀ a, behind a → ∃ j row, j < q ∧ (rows d)[j]? = some row ∧ a ∈ row) :
    ∃ iter' he, nextLoop d (dictSlots d + 1) iter = some (iter', he) ∧
      Stepped d (Upcoming (rows d) q) behind iter' he := by
  rcases nextLoop_spec sound (dictSlots d + 1) iter q start (by omega) with
    ⟨iter', done, ends⟩ | ⟨iter', p, he, back, done, mem, resting, further, empty⟩
  · exact ⟨iter', none, done, .through iter' ends⟩
  · refine ⟨iter', some he, done, .entry iter' p he [he.addr] back mem resting ?_ ?_ ?_⟩
    · exact ⟨p, _, further, resting.here, List.mem_cons_self⟩
    · exact Or.inl List.mem_cons_self
    · refine fun a other => ⟨fun upcoming => ?_, fun before => ?_⟩
      · exact ahead_rest other (ahead_row resting.here empty upcoming)
      · obtain ⟨j, row, less, here, inside⟩ := passed a before
        exact Or.inr ⟨j, row, Nat.lt_of_lt_of_le less further, here, inside⟩

theorem ahead_end (rows : List (List Nat)) (p : Nat) : Ahead rows p [] = Upcoming rows (p + 1) := by
  funext a
  refine propext ⟨fun ahead => ?_, Or.inr⟩
  rcases ahead with mem | later
  · cases mem
  · exact later

/-- `dictNext` from an entry on. -/
theorem dictNext_resting (sound : Sound t d) (resting : Resting d iter p front back) :
    ∃ iter' he, dictNext d iter = some (d, iter', he) ∧
      Stepped d (Ahead (rows d) p back) (Behind (rows d) p front) iter' he := by
  obtain ⟨⟨index, at_, place⟩, entry, next, here⟩ := resting
  obtain ⟨addr, current⟩ := Option.ne_none_iff_exists'.mp entry
  rw [dictNext, current]
  dsimp only
  rw [next]
  cases back with
  | nil =>
    have start : From d ⟨iter.table, iter.index, none, none⟩ (p + 1) := by
      have next := from_next place none
      rwa [← at_] at next
    have passed : ∀ a, Behind (rows d) p front a →
        ∃ j row, j < p + 1 ∧ (rows d)[j]? = some row ∧ a ∈ row := by
      rintro a (mem | ⟨j, row, before, earlier, mem⟩)
      · exact ⟨p, _, Nat.lt_succ_self p, here, List.mem_append_left _ mem⟩
      · exact ⟨j, row, Nat.lt_succ_of_lt before, earlier, mem⟩
    obtain ⟨iter', he, done, stepped⟩ := loop_stepped sound start passed
    rw [ahead_end]
    dsimp only [List.head?_nil]
    rw [done]
    exact ⟨iter', he, rfl, stepped⟩
  | cons a back =>
    obtain ⟨he, mem, rfl, read⟩ := entryAt_spec sound here
    dsimp only [List.head?_cons]
    rw [read]
    refine ⟨_, some he, rfl, .entry _ p he (front ++ [he.addr]) back mem
      ⟨⟨index, at_, place⟩, by simp, rfl, ?_⟩ ?_ ?_ ?_⟩
    · rw [here, List.append_assoc]
      rfl
    · exact Or.inl List.mem_cons_self
    · exact Or.inl (List.mem_append_right _ List.mem_cons_self)
    · exact fun a other => ⟨ahead_rest other, behind_rest⟩

/-- The dictionary, with the rehashing held back once more. -/
def paused (d : Dict κ υ) : Dict κ υ := { d with pauserehash := d.pauserehash + 1 }

theorem sound_paused (sound : Sound t d) : Sound t (paused d) :=
  ⟨sound.first, sound.second, sound.idle, sound.moving, sound.apart, sound.addrs⟩

/-- The first call of `dictNext`. -/
theorem dictNext_first (sound : Sound t d) :
    ∃ iter' he, dictNext d dictGetSafeIterator = some (paused d, iter', he) ∧
      Stepped (paused d) (Upcoming (rows (paused d)) 0) (fun _ => False) iter' he := by
  have start : From (paused d) dictGetSafeIterator 0 := Or.inl ⟨rfl, rfl, Nat.zero_le _⟩
  obtain ⟨iter', he, done, stepped⟩ :=
    loop_stepped (sound_paused sound) start (fun a (none : False) => none.elim)
  refine ⟨iter', he, ?_, stepped⟩
  have first : dictNext d dictGetSafeIterator = (nextLoop (paused d) (dictSlots (paused d) + 1)
      dictGetSafeIterator).map fun (iter, he) => (paused d, iter, he) := rfl
  rw [first, done]
  rfl

end Next

section Calls
variable {t : DictType κ υ} {d d' d'' : Dict κ υ} {iter : Iterator} {p : Nat}
variable {front back : List Nat} {gone : Option Nat} {ht ht' : Table κ υ}

/-- The addresses in the buckets of a table. -/
def addrs (ht : Table κ υ) : List (List Nat) := ht.buckets.map (List.map DictEntry.addr)

theorem rows_eq (d : Dict κ υ) : rows d = addrs d.ht0 ++ addrs d.ht1 := List.map_append

theorem steady_grows (h : Grows ht ht') : Steady none (addrs ht) (addrs ht') := by
  intro j row here
  rw [addrs, List.getElem?_map, Option.map_eq_some_iff] at here
  obtain ⟨chain, there, rfl⟩ := here
  obtain ⟨fresh, there'⟩ := h j chain there
  refine ⟨fresh.map DictEntry.addr, ?_⟩
  rw [addrs, List.getElem?_map, there', spared_none, ← List.map_append]
  rfl

theorem steady_loses {he : Option (DictEntry κ υ)} (h : Loses he ht ht')
    (off : ∀ x, he = some x → x.addr ∉ ht'.buckets.flatten.map DictEntry.addr) :
    Steady (he.map DictEntry.addr) (addrs ht) (addrs ht') := by
  intro j row here
  rw [addrs, List.getElem?_map, Option.map_eq_some_iff] at here
  obtain ⟨chain, there, rfl⟩ := here
  obtain ⟨front, back, there', same⟩ := h j chain there
  have stays : spared (he.map DictEntry.addr) ((front ++ back).map DictEntry.addr) =
      (front ++ back).map DictEntry.addr := by
    refine List.filter_eq_self.mpr fun a mem => decide_eq_true fun lost => ?_
    obtain ⟨x, found, rfl⟩ := Option.map_eq_some_iff.mp lost.symm
    obtain ⟨y, inside, same⟩ := List.mem_map.mp mem
    refine off x found ?_
    rw [← same]
    exact List.mem_map_of_mem (mem_flatten_of_bucket there' inside)
  refine ⟨[], ?_⟩
  rw [addrs, List.getElem?_map, there', List.nil_append]
  refine congrArg some ?_
  rcases same with rfl | ⟨x, rfl, rfl⟩
  · exact stays.symm
  · rw [← stays, spared, spared, List.map_append, List.map_append, List.filter_append,
      List.filter_append, List.map_cons, List.filter_cons_of_neg (by simp)]

variable [DecidableEq κ]

theorem steady_rows (first : Steady gone (addrs d.ht0) (addrs d'.ht0))
    (second : Steady gone (addrs d.ht1) (addrs d'.ht1)) (sound : Sound t d) (sound' : Sound t d')
    (size : d'.ht0.sizeExp = d.ht0.sizeExp) : Steady gone (rows d) (rows d') := by
  rw [rows_eq, rows_eq]
  refine first.append second ?_
  rw [addrs, addrs, List.length_map, List.length_map, sound.first.size, sound'.first.size, size]

variable (t) in
/-- What a call may do to a dictionary under an iterator: rows grow at their heads, at most the
entry `gone` is deleted, and the others stay what they are but for their values. -/
structure Mild (gone : Option Nat) (d d' : Dict κ υ) : Prop where
  size : d'.ht0.sizeExp = d.ht0.sizeExp
  steady : Steady gone (rows d) (rows d')
  stays : ∀ x ∈ entries d, some x.addr ≠ gone →
    ∃ x' ∈ entries d', x'.addr = x.addr ∧ x'.key = x.key
  vanishes : ∀ x ∈ entries d, some x.addr = gone →
    ∀ x' ∈ entries d', sameKey t x.key x'.key = false

theorem mild_same (rows_ : rows d' = rows d) (size : d'.ht0.sizeExp = d.ht0.sizeExp)
    (entries_ : ∀ x ∈ entries d, ∃ x' ∈ entries d', x'.addr = x.addr ∧ x'.key = x.key) :
    Mild t none d d' :=
  ⟨size, rows_ ▸ Steady.refl _, fun x mem _ => entries_ x mem, fun _ _ none => by cases none⟩

theorem Mild.refl (d : Dict κ υ) : Mild t none d d :=
  mild_same rfl rfl fun x mem => ⟨x, mem, rfl, rfl⟩

theorem Mild.trans (h : Mild t none d d') (h' : Mild t none d' d'') : Mild t none d d'' := by
  refine ⟨h'.size.trans h.size, h.steady.trans h'.steady, fun x mem stays => ?_,
    fun _ _ none => by cases none⟩
  obtain ⟨x', mem', addr, key⟩ := h.stays x mem stays
  obtain ⟨x'', mem'', addr', key'⟩ := h'.stays x' mem' (by simp)
  exact ⟨x'', mem'', addr'.trans addr, key'.trans key⟩

/-- A table is made to move the entries to. -/
theorem mild_grown {size : Nat} (sound : Sound t d) (table : d.ht0.sizeExp ≠ none)
    (grown : Grown t size d d') : Mild t none d d' := by
  obtain ⟨kept, idle, _, _, ⟨none_, _⟩ | ⟨_, _, same, _⟩⟩ := grown
  · exact absurd none_ table
  · have empty : addrs d.ht1 = [] := by
      rw [addrs, buckets_eq_nil sound.second (sound.idle idle)]
      rfl
    have second : Steady none (addrs d.ht1) (addrs d'.ht1) := by
      rw [empty]
      intro j row here
      cases here
    have first : Steady none (addrs d.ht0) (addrs d'.ht0) := same ▸ Steady.refl _
    exact ⟨congrArg Table.sizeExp same, steady_rows first second sound kept.sound
      (congrArg Table.sizeExp same), fun x mem _ => ⟨x, kept.perm.mem_iff.mpr mem, rfl, rfl⟩,
      fun _ _ none => by cases none⟩

theorem mild_expandTable (lawful : Lawful t) (sound : Sound t d) (table : d.ht0.sizeExp ≠ none)
    (size : Nat) (heap : Bool) : Mild t none d (expandTable d size heap).1 := by
  rcases expandTable_spec lawful sound size heap with ⟨same, _⟩ | ⟨_, grown⟩
  · rw [same]
    exact Mild.refl d
  · exact mild_grown sound table grown

theorem mild_provided {canResize : Bool} (sound : Sound t d) (table : d.ht0.sizeExp ≠ none)
    (provided : Provided t canResize d d') : Mild t none d d' := by
  cases provided with
  | moving busy => exact Mild.refl d
  | roomy idle size kept => exact Mild.refl d
  | first empty grown => exact absurd empty table
  | grown size full grown => exact mild_grown sound table grown

theorem mild_pushed {he : DictEntry κ υ} (sound : Sound t d) (pushed : Pushed t d he d') :
    Mild t none d d' :=
  ⟨pushed.size0, steady_rows (steady_grows pushed.grows0) (steady_grows pushed.grows1) sound
    pushed.sound pushed.size0,
    fun x mem _ => ⟨x, pushed.perm.mem_iff.mpr (List.mem_cons_of_mem _ mem), rfl, rfl⟩,
    fun _ _ none => by cases none⟩

theorem mild_setVal (d : Dict κ υ) (addr : Nat) (val : υ) :
    Mild t none d (dictSetVal t d addr val) := by
  have same : ∀ ht : Table κ υ,
      addrs (ht.mapEntries (writeVal addr (copyVal t val))) = addrs ht := by
    intro ht
    rw [addrs, addrs, Table.mapEntries, List.map_map]
    refine List.map_congr_left fun chain _ => ?_
    rw [Function.comp_apply, List.map_map]
    exact List.map_congr_left fun x _ => writeVal_addr _ _ x
  refine mild_same ?_ rfl fun x mem => ?_
  · rw [rows_eq, rows_eq, ← same d.ht0, ← same d.ht1]
    rfl
  · refine ⟨writeVal addr (copyVal t val) x, ?_, writeVal_addr _ _ x, writeVal_key _ _ x⟩
    rw [entries_dictSetVal]
    exact List.mem_map_of_mem mem

theorem mild_dropped (lawful : Lawful t) (sound : Sound t d) {he : Option (DictEntry κ υ)}
    (dropped : Dropped t d he d') : Mild t (he.map DictEntry.addr) d d' := by
  have nodup := (dropped.perm.map DictEntry.addr).nodup_iff.mp sound.addrs
  have apart := (apart_perm lawful.eqv dropped.perm).mp sound.apart
  rw [List.map_append] at nodup
  have off : ∀ x, he = some x → x.addr ∉ (entries d').map DictEntry.addr := by
    rintro x rfl mem
    exact (List.nodup_append.mp nodup).2.2 x.addr List.mem_cons_self x.addr mem rfl
  rw [entries, List.map_append] at off
  refine ⟨dropped.size0, steady_rows
    (steady_loses dropped.loses0 fun x lost mem => off x lost (List.mem_append_left _ mem))
    (steady_loses dropped.loses1 fun x lost mem => off x lost (List.mem_append_right _ mem))
    sound dropped.sound dropped.size0, fun x mem stays => ?_, fun x mem lost => ?_⟩
  · rcases List.mem_append.mp (dropped.perm.mem_iff.mp mem) with there | there
    · refine absurd ?_ stays
      rw [Option.mem_toList] at there
      rw [there]
      rfl
    · exact ⟨x, there, rfl, rfl⟩
  · obtain ⟨y, rfl, same⟩ := Option.map_eq_some_iff.mp lost.symm
    have inside : y ∈ entries d := dropped.perm.mem_iff.mpr List.mem_cons_self
    obtain rfl := List.inj_on_of_nodup_map sound.addrs mem inside same.symm
    exact (apart_cons.mp apart).1

theorem resting_mild (mild : Mild t gone d d') (resting : Resting d iter p front back)
    (kept : iter.nextEntry = none ∨ gone ≠ iter.nextEntry) :
    ∃ front', Resting d' iter p front' (spared gone back) ∧
      ∀ a, some a ≠ gone →
        (Ahead (rows d) p back a → Ahead (rows d') p (spared gone back) a) ∧
        (Behind (rows d) p front a → Behind (rows d') p front' a) := by
  obtain ⟨⟨index, at_, place⟩, entry, next, here⟩ := resting
  obtain ⟨front', there, stays⟩ := standing_steady mild.steady here
  rw [next] at kept
  refine ⟨front', ⟨⟨index, at_, ?_⟩, entry, ?_, there⟩, stays⟩
  · rwa [At, mild.size]
  · rw [next, head_spared (kept.imp_left List.head?_eq_none_iff.mp)]

end Calls

section Machine
variable (t : DictType κ υ)

/-- A dictionary with an iterator and the keys that it gave out; `through` when it came to its
end. -/
structure Iterating (κ υ : Type) where
  state : State κ υ
  iter : Iterator
  through : Bool
  seen : List κ

/-- An iterator is made. -/
def begun (s : State κ υ) : Iterating κ υ := ⟨s, dictGetSafeIterator, false, []⟩

/-- A call while the iterator is there, or its next step. -/
inductive Turn (κ υ : Type) where
  | call (act : Act κ υ)
  | next

variable [DecidableEq κ]

def iterStep (i : Iterating κ υ) : Turn κ υ → Option (Iterating κ υ)
  | .call act => (next t i.state act).map fun state => { i with state }
  | .next => (dictNext i.state.dict i.iter).map fun (dict, iter, he) =>
    { state := { i.state with dict }
      iter
      through := he.isNone
      seen := (he.map DictEntry.key).toList ++ i.seen }

/-- The entry that the iterator remembers is not deleted, the rehashing is held back by a
counter that does not wrap around, and the tables are not given up. -/
def Gentle (i : Iterating κ υ) : Act κ υ → Prop
  | .delete key => i.iter.nextEntry = none ∨
    (entryOf t i.state.dict key).map DictEntry.addr ≠ i.iter.nextEntry
  | .unlink key => i.iter.nextEntry = none ∨
    (entryOf t i.state.dict key).map DictEntry.addr ≠ i.iter.nextEntry
  | .rehash _ => False
  | .empty => False
  | .pauseRehashing => i.state.dict.pauserehash < Int16.maxValue
  | .resumeRehashing => 1 < i.state.dict.pauserehash
  | _ => True

def Permitted (i : Iterating κ υ) : Turn κ υ → Prop
  | .call act => Legal i.state act ∧ Gentle t i act
  | .next => i.through = false

/-- The key is in the dictionary. -/
def Stays (k : κ) (i : Iterating κ υ) (_ : Turn κ υ) : Prop :=
  (entryOf t i.state.dict k).isSome = true

end Machine

section Runs
variable {t : DictType κ υ} {i i' : Iterating κ υ} {k : κ}

/-- One pause more, with fewer than 32767 of them outstanding. -/
theorem paused_pos {p : Int16} (pause : 0 ≤ p) (room : p < Int16.maxValue) : 0 < p + 1 := by
  rw [Int16.le_iff_toInt_le, Int16.toInt_zero] at pause
  rw [Int16.lt_iff_toInt_lt, Int16.toInt_maxValue] at room
  rw [Int16.lt_iff_toInt_lt, Int16.toInt_zero, Int16.toInt_add, Int16.toInt_one,
    Int.bmod_eq_of_le (by omega) (by omega)]
  omega

theorem resumed_pos {p : Int16} (pause : 1 < p) : 0 < p - 1 := by
  have top := p.toInt_lt
  rw [Int16.lt_iff_toInt_lt, Int16.toInt_one] at pause
  rw [Int16.lt_iff_toInt_lt, Int16.toInt_zero, Int16.toInt_sub, Int16.toInt_one,
    Int.bmod_eq_of_le (by omega) (by omega)]
  omega

variable [DecidableEq κ]

/-- A paused dictionary is not moved. -/
theorem step_paused (lawful : Lawful t) {d d' : Dict κ υ} (sound : Sound t d)
    (pause : 0 < d.pauserehash) (stepped : stepIfRehashing t d = some d') : d' = d := by
  obtain ⟨d'', stepped', _, _, same⟩ := stepIfRehashing_spec lawful sound
  rw [stepped, Option.some.injEq] at stepped'
  exact stepped'.trans (same (Int16.ne_of_lt pause).symm)

theorem mild_dictAddRaw (lawful : Lawful t) {d : Dict κ υ} (sound : Sound t d)
    (pause : 0 < d.pauserehash) (table : d.ht0.sizeExp ≠ none) (room : dictSize d < 2 ^ 60)
    (canResize : Bool) (key : κ) {block : Block υ}
    (fresh : block.addr ∉ (entries d).map DictEntry.addr) :
    ∃ d' added, dictAddRaw t canResize d key block = some (d', added) ∧ Mild t none d d' ∧
      d'.pauserehash = d.pauserehash := by
  cases there : entryOf t d key with
  | some he =>
    obtain ⟨d₁, d', stepped, _, provided, added, kept⟩ :=
      dictAddRaw_existing lawful sound room canResize there block
    obtain rfl := step_paused lawful sound pause stepped
    exact ⟨d', _, added, mild_provided sound table provided, kept.pause⟩
  | none =>
    obtain ⟨d₁, d₂, d', stepped, _, kept, provided, pushed, added⟩ :=
      dictAddRaw_new lawful sound room canResize there fresh
    obtain rfl := step_paused lawful sound pause stepped
    exact ⟨d', _, added, (mild_provided sound table provided).trans
      (mild_pushed kept.sound pushed), pushed.pause.trans kept.pause⟩

theorem mild_dictResize (lawful : Lawful t) {d : Dict κ υ} (sound : Sound t d)
    (table : d.ht0.sizeExp ≠ none) (canResize : Bool) :
    Mild t none d (dictResize canResize d).1 := by
  rw [dictResize]
  split
  · exact Mild.refl d
  · exact mild_expandTable lawful sound table _ true

/-- The calls that an iterator allows are mild. -/
theorem mild_call (lawful : Lawful t) {s' : State κ υ} (sound : Sound t i.state.dict)
    (pause : 0 < i.state.dict.pauserehash) (table : i.state.dict.ht0.sizeExp ≠ none) {act : Act κ υ}
    (legal : Legal i.state act) (gentle : Gentle t i act) (done : next t i.state act = some s') :
    ∃ gone, Mild t gone i.state.dict s'.dict ∧
      (i.iter.nextEntry = none ∨ gone ≠ i.iter.nextEntry) ∧ 0 < s'.dict.pauserehash := by
  have plain : ∀ {d' : Dict κ υ}, Mild t none i.state.dict d' →
      d'.pauserehash = i.state.dict.pauserehash → s'.dict = d' →
      ∃ gone, Mild t gone i.state.dict s'.dict ∧
        (i.iter.nextEntry = none ∨ gone ≠ i.iter.nextEntry) ∧ 0 < s'.dict.pauserehash := by
    rintro d' mild kept rfl
    refine ⟨none, mild, ?_, kept ▸ pause⟩
    cases i.iter.nextEntry <;> simp
  have dropped : ∀ {key : κ} {d₁ d' : Dict κ υ}, (dictSize i.state.dict = 0 ∧ d₁ = i.state.dict ∨
      stepIfRehashing t i.state.dict = some d₁) → Dropped t d₁ (entryOf t i.state.dict key) d' →
      (i.iter.nextEntry = none ∨
        (entryOf t i.state.dict key).map DictEntry.addr ≠ i.iter.nextEntry) → s'.dict = d' →
      ∃ gone, Mild t gone i.state.dict s'.dict ∧
        (i.iter.nextEntry = none ∨ gone ≠ i.iter.nextEntry) ∧ 0 < s'.dict.pauserehash := by
    rintro key d₁ d' at_ dropped spares rfl
    rw [at_.elim And.right (step_paused lawful sound pause)] at dropped
    exact ⟨_, mild_dropped lawful sound dropped, spares, dropped.pause ▸ pause⟩
  rw [next] at done
  cases act with
  | find key =>
    obtain ⟨d', found, _, at_⟩ := dictFind_spec lawful sound key
    rw [step, found] at done
    obtain rfl := Option.some.inj done
    exact plain (Mild.refl _) rfl (at_.elim And.right (step_paused lawful sound pause))
  | add key val block =>
    obtain ⟨d', result, added, mild, kept⟩ := mild_dictAddRaw lawful sound pause table legal.2
      i.state.canResize key (fresh_entries legal.1)
    rw [step, dictAdd, Option.bind_eq_bind, added] at done
    cases result with
    | entry he =>
      obtain rfl := Option.some.inj done
      exact plain (mild.trans (mild_setVal d' he.addr val)) kept rfl
    | existing he =>
      obtain rfl := Option.some.inj done
      exact plain mild kept rfl
    | refused =>
      obtain rfl := Option.some.inj done
      exact plain mild kept rfl
  | addOrFind key block =>
    obtain ⟨d', result, added, mild, kept⟩ := mild_dictAddRaw lawful sound pause table legal.2
      i.state.canResize key (fresh_entries legal.1)
    rw [step, dictAddOrFind, Option.bind_eq_bind, added] at done
    cases result with
    | entry he =>
      obtain rfl := Option.some.inj done
      exact plain mild kept rfl
    | existing he =>
      obtain rfl := Option.some.inj done
      exact plain mild kept rfl
    | refused =>
      obtain rfl := Option.some.inj done
      exact plain mild kept rfl
  | replace key val block =>
    obtain ⟨d', result, added, mild, kept⟩ := mild_dictAddRaw lawful sound pause table legal.2
      i.state.canResize key (fresh_entries legal.1)
    rw [step, dictReplace, Option.bind_eq_bind, added] at done
    cases result with
    | entry he =>
      obtain rfl := Option.some.inj done
      exact plain (mild.trans (mild_setVal d' he.addr val)) kept rfl
    | existing he =>
      obtain rfl := Option.some.inj done
      exact plain (mild.trans (mild_setVal d' he.addr val)) kept rfl
    | refused => cases done
  | delete key =>
    obtain ⟨d₁, d', deleted, _, lost, at_⟩ := dictGenericDelete_spec lawful sound key
    rw [step, deleted] at done
    obtain rfl := Option.some.inj done
    exact dropped at_ lost gentle rfl
  | unlink key =>
    obtain ⟨d₁, d', deleted, _, lost, at_⟩ := dictGenericDelete_spec lawful sound key
    rw [step, deleted] at done
    obtain rfl := Option.some.inj done
    exact dropped at_ lost gentle rfl
  | freeUnlinkedEntry addr =>
    rw [step, Option.map_map] at done
    obtain ⟨he, _, rfl⟩ := Option.map_eq_some_iff.mp done
    exact plain (Mild.refl _) rfl rfl
  | size =>
    obtain rfl := Option.some.inj done
    exact plain (Mild.refl _) rfl rfl
  | rehash n => cases gentle
  | rehashMilliseconds rounds =>
    rw [step, dictRehashMilliseconds, if_pos pause] at done
    obtain rfl := Option.some.inj done
    exact plain (Mild.refl _) rfl rfl
  | resize =>
    obtain rfl := Option.some.inj done
    exact plain (mild_dictResize lawful sound table _) (kept_dictResize lawful sound _).pause rfl
  | expand size =>
    obtain rfl := Option.some.inj done
    exact plain (mild_expandTable lawful sound table size true)
      (kept_expandTable lawful sound size true).pause rfl
  | tryExpand size heap =>
    obtain rfl := Option.some.inj done
    exact plain (mild_expandTable lawful sound table size heap)
      (kept_expandTable lawful sound size heap).pause rfl
  | empty => cases gentle
  | enableResize =>
    obtain rfl := Option.some.inj done
    exact plain (Mild.refl _) rfl rfl
  | disableResize =>
    obtain rfl := Option.some.inj done
    exact plain (Mild.refl _) rfl rfl
  | pauseRehashing =>
    obtain rfl := Option.some.inj done
    refine ⟨none, mild_same rfl rfl fun x mem => ⟨x, mem, rfl, rfl⟩, ?_,
      paused_pos (Int16.le_of_lt pause) gentle⟩
    cases i.iter.nextEntry <;> simp
  | resumeRehashing =>
    obtain rfl := Option.some.inj done
    refine ⟨none, mild_same rfl rfl fun x mem => ⟨x, mem, rfl, rfl⟩, ?_, resumed_pos gentle⟩
    cases i.iter.nextEntry <;> simp

/-- The iterator is under way: a key that is in the dictionary was given out once and is
behind, or is still ahead. -/
structure Going (t : DictType κ υ) (k : κ) (i : Iterating κ υ) (p : Nat) (front back : List Nat) :
    Prop where
  held : ∃ m, Simulates t i.state m
  pause : 0 < i.state.dict.pauserehash
  open_ : i.through = false
  resting : Resting i.state.dict i.iter p front back
  part : ∀ x, entryOf t i.state.dict k = some x →
    i.seen.countP (sameKey t k) = 0 ∧ Ahead (rows i.state.dict) p back x.addr ∨
      i.seen.countP (sameKey t k) = 1 ∧ Behind (rows i.state.dict) p front x.addr

/-- Under way, or through. -/
def Phase (t : DictType κ υ) (k : κ) (i : Iterating κ υ) : Prop :=
  (∃ p front back, Going t k i p front back) ∨
    (∃ m, Simulates t i.state m) ∧ i.through = true ∧ i.seen.countP (sameKey t k) = 1

theorem part_next (lawful : Lawful t) {d : Dict κ υ} (sound : Sound t d) {seen : List κ}
    {ahead behind : Nat → Prop} {x : DictEntry κ υ} (found : entryOf t d k = some x)
    (part : seen.countP (sameKey t k) = 0 ∧ ahead x.addr ∨
      seen.countP (sameKey t k) = 1 ∧ behind x.addr)
    (apart : ∀ a, ahead a → behind a → False) {iter' : Iterator} {he : Option (DictEntry κ υ)}
    (stepped : Stepped d ahead behind iter' he) :
    he = none ∧ seen.countP (sameKey t k) = 1 ∨
      ∃ y p' front' back', he = some y ∧ Resting d iter' p' front' back' ∧
        ((y.key :: seen).countP (sameKey t k) = 0 ∧ Ahead (rows d) p' back' x.addr ∨
          (y.key :: seen).countP (sameKey t k) = 1 ∧ Behind (rows d) p' front' x.addr) := by
  cases stepped with
  | through ends =>
    refine Or.inl ⟨rfl, ?_⟩
    rcases part with ⟨_, there⟩ | ⟨one, _⟩
    · exact absurd there (ends _)
    · exact one
  | entry p' y front' back' mem resting given passed others =>
    refine Or.inr ⟨y, p', front', back', rfl, resting, ?_⟩
    by_cases this : sameKey t k y.key = true
    · obtain rfl : y = x :=
        Option.some.inj ((under_of_mem lawful.eqv sound.apart mem this).symm.trans found)
      rcases part with ⟨zero, _⟩ | ⟨_, there⟩
      · exact Or.inr ⟨by rw [List.countP_cons_of_pos this, zero], passed⟩
      · exact absurd there fun there => apart _ given there
    · have other : x.addr ≠ y.addr := by
        intro same
        obtain rfl := List.inj_on_of_nodup_map sound.addrs (mem_of_under found) mem same
        exact this (same_of_under found)
      rw [List.countP_cons_of_neg this]
      exact part.imp (fun h => ⟨h.1, (others _ other).1 h.2⟩)
        fun h => ⟨h.1, (others _ other).2 h.2⟩

theorem going_next (lawful : Lawful t) {p : Nat} {front back : List Nat}
    (h : Going t k i p front back) (stays : Stays t k i .next)
    (done : iterStep t i .next = some i') : Phase t k i' := by
  obtain ⟨m, sim⟩ := h.held
  obtain ⟨iter', he, next, stepped⟩ := dictNext_resting sim.sound h.resting
  rw [iterStep, next] at done
  obtain rfl := Option.some.inj done
  obtain ⟨x, found⟩ := Option.isSome_iff_exists.mp stays
  have nodup : (rows i.state.dict).flatten.Nodup := by
    rw [flatten_rows]
    exact sim.sound.addrs
  rcases part_next lawful sim.sound found (h.part x found)
    (fun a => not_both nodup h.resting.here) stepped with
    ⟨rfl, one⟩ | ⟨y, p', front', back', rfl, resting, part⟩
  · exact Or.inr ⟨h.held, rfl, one⟩
  · refine Or.inl ⟨p', front', back', h.held, h.pause, rfl, resting, fun x' found' => ?_⟩
    obtain rfl := Option.some.inj (found.symm.trans found')
    exact part

/-- The first step. -/
theorem phase_first (lawful : Lawful t) {s : State κ υ} {m : Map κ υ} (sim : Simulates t s m)
    (pause : 0 ≤ s.dict.pauserehash) (room : s.dict.pauserehash < Int16.maxValue)
    (stays : Stays t k (begun s) .next)
    (done : iterStep t (begun s) .next = some i') : Phase t k i' := by
  obtain ⟨iter', he, next, stepped⟩ := dictNext_first sim.sound
  have next' : dictNext (begun s).state.dict (begun s).iter = some (paused s.dict, iter', he) :=
    next
  rw [iterStep, next'] at done
  obtain rfl := Option.some.inj done
  obtain ⟨x, found⟩ := Option.isSome_iff_exists.mp stays
  have found : entryOf t (paused s.dict) k = some x := found
  have held : ∃ m, Simulates t { s with dict := paused s.dict } m :=
    ⟨m, sound_paused sim.sound, ⟨sim.shows.get, sim.shows.size⟩, sim.apart, sim.account⟩
  have upcoming : Upcoming (rows (paused s.dict)) 0 x.addr := by
    have mem : x.addr ∈ (rows (paused s.dict)).flatten := by
      rw [flatten_rows]
      exact List.mem_map_of_mem (mem_of_under found)
    obtain ⟨row, inside, mem⟩ := List.mem_flatten.mp mem
    obtain ⟨j, here⟩ := List.getElem?_of_mem inside
    exact ⟨j, row, Nat.zero_le j, here, mem⟩
  rcases part_next lawful (sound_paused sim.sound) found (Or.inl ⟨List.countP_nil, upcoming⟩)
    (fun _ _ none => none) stepped with ⟨rfl, one⟩ | ⟨y, p', front', back', rfl, resting, part⟩
  · exact Or.inr ⟨held, rfl, one⟩
  · refine Or.inl ⟨p', front', back', held, paused_pos pause room, rfl, resting,
      fun x' found' => ?_⟩
    obtain rfl := Option.some.inj (found.symm.trans found')
    exact part

/-- A dictionary in which an iterator rests has its first table. -/
theorem table_of_resting {d : Dict κ υ} (sound : Sound t d) {iter : Iterator} {p : Nat}
    {front back : List Nat} (resting : Resting d iter p front back) : d.ht0.sizeExp ≠ none := by
  obtain ⟨⟨index, _, place⟩, _, _, here⟩ := resting
  intro none
  have inside := (List.getElem?_eq_some_iff.mp here).1
  rw [rows, List.length_map, length_chains sound, dictSlots, none] at inside
  rcases place with ⟨_, _, less⟩ | ⟨_, _⟩
  · rw [none] at less
    exact absurd less (Nat.not_lt_zero _)
  · cases rehashing : d.rehashidx with
    | none =>
      rw [sound.idle rehashing] at inside
      exact absurd inside (Nat.not_lt_zero _)
    | some r => exact (sound.moving r rehashing).1 none

theorem phase_call (lawful : Lawful t) (h : Phase t k i) {act : Act κ υ}
    (permitted : Permitted t i (.call act)) (stays : Stays t k i (.call act))
    (done : iterStep t i (.call act) = some i') : Phase t k i' := by
  rw [iterStep, Option.map_eq_some_iff] at done
  obtain ⟨s', called, rfl⟩ := done
  rcases h with ⟨p, front, back, h⟩ | ⟨held, through, one⟩
  · obtain ⟨m, sim⟩ := h.held
    obtain ⟨gone, mild, spares, pause⟩ := mild_call lawful sim.sound h.pause
      (table_of_resting sim.sound h.resting) permitted.1 permitted.2 called
    obtain ⟨m', sim'⟩ := simulates_next lawful ⟨m, sim⟩ permitted.1 called
    obtain ⟨front', resting, keeps⟩ := resting_mild mild h.resting spares
    obtain ⟨x, found⟩ := Option.isSome_iff_exists.mp stays
    refine Or.inl ⟨p, front', _, ⟨m', sim'⟩, pause, h.open_, resting, fun x' found' => ?_⟩
    have same := same_of_under found
    have same' := same_of_under found'
    by_cases lost : some x.addr = gone
    · have off := mild.vanishes x (mem_of_under found) lost x' (mem_of_under found')
      rw [← lawful.eqv.congr same x'.key, same'] at off
      cases off
    · obtain ⟨y, mem, addr, key⟩ := mild.stays x (mem_of_under found) lost
      have one := under_of_mem lawful.eqv sim'.sound.apart mem (show sameKey t k y.key = true by
        rwa [key])
      obtain rfl := Option.some.inj (one.symm.trans found')
      rw [addr]
      exact (h.part x found).imp (fun h => ⟨h.1, (keeps _ lost).1 h.2⟩)
        fun h => ⟨h.1, (keeps _ lost).2 h.2⟩
  · exact Or.inr ⟨simulates_next lawful held permitted.1 called, through, one⟩

/-- While a safe iterator goes through a dictionary, other calls may be made, as long as they
do not delete the entry that it remembers. Each step comes back then, and a key that is in the
dictionary all the time was given out exactly once when the iterator is through. -/
theorem iterate_complete (lawful : Lawful t) {acts : List (Act κ υ)} {s : State κ υ}
    (legal : Along (next t) Legal created acts) (reached : run (next t) created acts = some s)
    (pause : 0 ≤ s.dict.pauserehash) (room : s.dict.pauserehash < Int16.maxValue)
    {turns : List (Turn κ υ)} {k : κ}
    (permitted : Along (iterStep t) (Permitted t) (begun s) (.next :: turns))
    (stays : Along (iterStep t) (Stays t k) (begun s) (.next :: turns)) :
    Always (iterStep t) (fun i =>
      (i.through = false → (dictNext i.state.dict i.iter).isSome = true) ∧
        (i.through = true → i.seen.countP (sameKey t k) = 1)) (begun s) (.next :: turns) := by
  obtain ⟨m, sim⟩ := always_end (simulates_always lawful legal) reached
  have each : ∀ i turn i', Phase t k i → Permitted t i turn ∧ Stays t k i turn →
      iterStep t i turn = some i' → Phase t k i' := by
    intro i turn i' h ok done
    cases turn with
    | call act => exact phase_call lawful h ok.1 ok.2 done
    | next =>
      rcases h with ⟨p, front, back, h⟩ | ⟨_, through, _⟩
      · exact going_next lawful h ok.2 done
      · have open_ : i.through = false := ok.1
        rw [through] at open_
        cases open_
  refine ⟨⟨fun _ => ?_, fun through => by cases through⟩, fun i done => ?_⟩
  · obtain ⟨iter', he, next, _⟩ := dictNext_first sim.sound
    exact Option.isSome_iff_exists.mpr ⟨_, next⟩
  · refine always_mono (fun i h => ?_) (always_of_along each
      (phase_first lawful sim pause room stays.1 done)
      (along_and (permitted.2 i done) (stays.2 i done)))
    rcases h with ⟨p, front, back, h⟩ | ⟨_, through, one⟩
    · refine ⟨fun _ => ?_, fun through => ?_⟩
      · obtain ⟨m, sim⟩ := h.held
        obtain ⟨iter', he, next, _⟩ := dictNext_resting sim.sound h.resting
        exact Option.isSome_iff_exists.mpr ⟨_, next⟩
      · rw [h.open_] at through
        cases through
    · refine ⟨fun open_ => ?_, fun _ => one⟩
      rw [through] at open_
      cases open_

end Runs

section Numbers
variable [DecidableEq κ]

instance (t : DictType κ υ) (i : Iterating κ υ) (act : Act κ υ) : Decidable (Gentle t i act) :=
  match act with
  | .delete key => inferInstanceAs (Decidable (i.iter.nextEntry = none ∨
      (entryOf t i.state.dict key).map DictEntry.addr ≠ i.iter.nextEntry))
  | .unlink key => inferInstanceAs (Decidable (i.iter.nextEntry = none ∨
      (entryOf t i.state.dict key).map DictEntry.addr ≠ i.iter.nextEntry))
  | .rehash _ | .empty => inferInstanceAs (Decidable False)
  | .pauseRehashing => inferInstanceAs (Decidable (i.state.dict.pauserehash < Int16.maxValue))
  | .resumeRehashing => inferInstanceAs (Decidable (1 < i.state.dict.pauserehash))
  | .find _ | .add _ _ _ | .addOrFind _ _ | .replace _ _ _ | .freeUnlinkedEntry _ | .size
  | .rehashMilliseconds _ | .resize | .expand _ | .tryExpand _ _ | .enableResize
  | .disableResize => inferInstanceAs (Decidable True)

instance (t : DictType κ υ) (i : Iterating κ υ) (turn : Turn κ υ) :
    Decidable (Permitted t i turn) :=
  match turn with
  | .call act => inferInstanceAs (Decidable (Legal i.state act ∧ Gentle t i act))
  | .next => inferInstanceAs (Decidable (i.through = false))

instance (t : DictType κ υ) (k : κ) (i : Iterating κ υ) (turn : Turn κ υ) :
    Decidable (Stays t k i turn) :=
  inferInstanceAs (Decidable ((entryOf t i.state.dict k).isSome = true))

/-- Four keys, which fill the first table. -/
def fourKeys : List (Act Nat Nat) :=
  [.add 1 10 ⟨100, 0⟩, .add 5 50 ⟨101, 0⟩, .add 9 90 ⟨102, 0⟩, .add 2 20 ⟨103, 0⟩]

def fullTable : State Nat Nat where
  dict := ⟨⟨[[], [⟨102, 9, 90⟩, ⟨101, 5, 50⟩, ⟨100, 1, 10⟩], [⟨103, 2, 20⟩], []], 4, some 2⟩,
    dictReset, none, 0⟩
  canResize := true
  unlinked := []
  allocated := [103, 102, 101, 100]
  freed := []

/-- The dictionary is grown under the iterator, and the entry it stands on is deleted. -/
def iteratedRun : List (Turn Nat Nat) :=
  [.next, .call (.add 6 60 ⟨104, 0⟩), .call (.find 1), .call (.delete 5), .next,
    .call (.replace 2 21 ⟨105, 0⟩), .next, .next, .next]

theorem iterate_complete_iteratedRun : Always (iterStep numberType) (fun i =>
    (i.through = false → (dictNext i.state.dict i.iter).isSome = true) ∧
      (i.through = true → i.seen.countP (sameKey numberType 2) = 1))
    (begun fullTable) (.next :: iteratedRun) :=
  iterate_complete lawful_number (show Along (next numberType) Legal created fourKeys by
    decide +kernel) rfl (by decide) (by decide) (by decide +kernel) (by decide +kernel)

end Numbers

end DictIterator
