import Cfgd.DictSound

/-!
# What the calls of a dictionary do

What each call does to the entries of a dictionary in order, which table it makes or comes
to use, and which chains it changes.
-/

namespace DictCalls

open Buckets DictTable DictSound

variable {κ υ : Type} [DecidableEq κ]
variable {t : DictType κ υ} {d : Dict κ υ} {key : κ} {e : Nat}

section Sizes
variable {size : Nat}

theorem nextExpLoop_fits {left e : Nat} (fits : size ≤ 2 ^ (e + left)) :
    size ≤ 2 ^ nextExpLoop size left e := by
  induction left generalizing e with
  | zero => exact fits
  | succ left ih =>
    rw [nextExpLoop]
    split
    · assumption
    · exact ih (by rwa [Nat.add_assoc, Nat.add_comm 1])

theorem nextExpLoop_le {left e e' : Nat} (above : e ≤ e') (fits : size ≤ 2 ^ e') :
    nextExpLoop size left e ≤ e' := by
  induction left generalizing e with
  | zero => exact above
  | succ left ih =>
    rw [nextExpLoop]
    split
    · exact above
    · rename_i small
      rcases Nat.eq_or_lt_of_le above with rfl | less
      · exact absurd fits small
      · exact ih less

/-- The table that is asked for holds `size` entries, and none smaller would. -/
theorem dictNextExp_fits (room : size ≤ 2 ^ 60) : size ≤ 2 ^ dictNextExp size := by
  rw [dictNextExp, if_neg (by omega)]
  exact nextExpLoop_fits (Nat.le_trans room (Nat.pow_le_pow_right (by decide) (by decide)))

theorem dictNextExp_le (room : size ≤ 2 ^ 60) (above : 2 ≤ e) (fits : size ≤ 2 ^ e) :
    dictNextExp size ≤ e := by
  rw [dictNextExp, if_neg (by omega)]
  exact nextExpLoop_le above fits

/-- A table whose bytes are counted without overflow has at most `2 ^ 60` buckets. -/
theorem dictNextExp_bound (counted : 2 ^ dictNextExp size ≤ 2 ^ dictNextExp size * 8 % 2 ^ 64) :
    dictNextExp size ≤ 60 := by
  by_contra large
  obtain ⟨k, same⟩ : ∃ k, dictNextExp size = 61 + k := ⟨_, (Nat.add_sub_cancel' (by omega)).symm⟩
  have none : 2 ^ dictNextExp size * 8 % 2 ^ 64 = 0 := by
    rw [same, Nat.pow_add, show 2 ^ 61 * 2 ^ k * 8 = 2 ^ 64 * 2 ^ k by omega]
    exact Nat.mul_mod_right _ _
  have positive := Nat.two_pow_pos (dictNextExp size)
  omega

/-- The memory for the buckets is counted without overflow. -/
theorem dictNextExp_bytes (room : size ≤ 2 ^ 60) :
    ¬ (2 ^ dictNextExp size < size ∨
      2 ^ dictNextExp size * 8 % 2 ^ 64 < 2 ^ dictNextExp size) := by
  have fits := dictNextExp_fits room
  have bound : 2 ^ dictNextExp size ≤ 2 ^ 60 :=
    Nat.pow_le_pow_right (by decide) (dictNextExp_le room (by decide) room)
  rw [Nat.mod_eq_of_lt (by omega)]
  omega

end Sizes

section Expanding
variable {size : Nat}

variable (t) in
/-- A table for `size` entries was made: the first one, or one to move the entries to. -/
structure Grown (size : Nat) (d d' : Dict κ υ) : Prop where
  kept : Kept t d d'
  idle : d.rehashidx = none
  fits : d.ht0.used ≤ size
  covers : size ≤ 2 ^ dictNextExp size
  made : d.ht0.sizeExp = none ∧ d'.rehashidx = none ∧ d'.ht0.sizeExp = some (dictNextExp size) ∨
    d.ht0.sizeExp ≠ none ∧ d'.rehashidx = some 0 ∧ d'.ht0 = d.ht0 ∧
      d'.ht1.sizeExp = some (dictNextExp size)

/-- `_dictExpand` leaves the dictionary, or makes a table. -/
theorem expandTable_spec (lawful : Lawful t) (sound : Sound t d) (size : Nat) (heap : Bool) :
    ((expandTable d size heap).1 = d ∧ (expandTable d size heap).2 ≠ .ok) ∨
      ((expandTable d size heap).2 = .ok ∧ Grown t size d (expandTable d size heap).1) := by
  rw [expandTable]
  split
  · exact Or.inl ⟨rfl, by simp⟩
  rename_i free
  rw [not_or, Bool.not_eq_true, Nat.not_lt] at free
  have idle : d.rehashidx = none := by simpa [dictIsRehashing] using free.1
  have second := sound.idle idle
  dsimp only
  split
  · exact Or.inl ⟨rfl, by simp⟩
  rename_i counted
  rw [not_or, Nat.not_lt, Nat.not_lt] at counted
  have bound := dictNextExp_bound counted.2
  split
  · exact Or.inl ⟨rfl, by simp⟩
  split
  · exact Or.inl ⟨rfl, by simp⟩
  split
  · rename_i null
    have none : d.ht0.sizeExp = none := by
      have size := sound.first.size
      rw [null] at size
      cases h : d.ht0.sizeExp with
      | none => rfl
      | some e =>
        rw [h, dicthtSize] at size
        exact absurd size.symm (Nat.ne_of_gt (Nat.two_pow_pos e))
    have same : entries { d with
        ht0 := ⟨List.replicate (2 ^ dictNextExp size) [], 0, some (dictNextExp size)⟩ } =
        entries d := by simp [entries, null]
    have perm := List.Perm.of_eq same
    refine Or.inr ⟨rfl, ⟨sound_of_perm lawful sound (tableSound_new bound) sound.second
      (fun _ => second) ?_ perm, perm, rfl⟩, idle, free.2, counted.1, Or.inl ⟨none, idle, rfl⟩⟩
    intro r rehashing
    rw [idle] at rehashing
    cases rehashing
  · rename_i memory
    have there : d.ht0.sizeExp ≠ none := fun none => memory (buckets_eq_nil sound.first none)
    have same : entries { d with
        ht1 := ⟨List.replicate (2 ^ dictNextExp size) [], 0, some (dictNextExp size)⟩,
        rehashidx := some 0 } = entries d := by
      simp [entries, buckets_eq_nil sound.second second]
    have perm := List.Perm.of_eq same
    refine Or.inr ⟨rfl, ⟨sound_of_perm lawful sound sound.first (tableSound_new bound) (by simp) ?_
      perm, perm, rfl⟩, idle, free.2, counted.1, Or.inr ⟨there, rfl, rfl, rfl⟩⟩
    intro r rehashing
    obtain rfl := Option.some.inj rehashing
    exact ⟨there, by simp, fun i less => absurd less (Nat.not_lt_zero i)⟩

theorem kept_expandTable (lawful : Lawful t) (sound : Sound t d) (size : Nat) (heap : Bool) :
    Kept t d (expandTable d size heap).1 := by
  rcases expandTable_spec lawful sound size heap with ⟨same, _⟩ | ⟨_, grown⟩
  · rw [same]
    exact Kept.refl sound
  · exact grown.kept

omit [DecidableEq κ] in
/-- A table is made for what there is, when it is to be of another size. -/
theorem expandTable_ok (idle : d.rehashidx = none) (fits : d.ht0.used ≤ size)
    (room : size ≤ 2 ^ 60) (other : d.ht0.sizeExp ≠ some (dictNextExp size)) :
    (expandTable d size true).2 = .ok := by
  have free : ¬ (dictIsRehashing d = true ∨ size < d.ht0.used) := by
    rw [dictIsRehashing, idle]
    simpa using fits
  rw [expandTable, if_neg free]
  dsimp only
  rw [if_neg (dictNextExp_bytes room), if_neg other, if_neg (by decide)]
  split <;> rfl

theorem kept_dictResize (lawful : Lawful t) (sound : Sound t d) (canResize : Bool) :
    Kept t d (dictResize canResize d).1 := by
  rw [dictResize]
  split
  · exact Kept.refl sound
  · exact kept_expandTable lawful sound _ true

/-- What `_dictExpandIfNeeded` makes, if anything. -/
inductive Provided (t : DictType κ υ) (canResize : Bool) (d : Dict κ υ) : Dict κ υ → Prop where
  | moving (busy : d.rehashidx ≠ none) : Provided t canResize d d
  | roomy {e : Nat} (idle : d.rehashidx = none) (size : d.ht0.sizeExp = some e)
      (kept : ¬ (2 ^ e ≤ d.ht0.used ∧ (canResize ∨ dictForceResizeRatio < d.ht0.used / 2 ^ e) ∧
        dictTypeExpandAllowed t d)) : Provided t canResize d d
  | first {d' : Dict κ υ} (empty : d.ht0.sizeExp = none) (grown : Grown t dictHtInitialSize d d') :
      Provided t canResize d d'
  | grown {e : Nat} {d' : Dict κ υ} (size : d.ht0.sizeExp = some e) (full : 2 ^ e ≤ d.ht0.used)
      (grown : Grown t (d.ht0.used + 1) d d') : Provided t canResize d d'

theorem dictExpandIfNeeded_spec (lawful : Lawful t) (sound : Sound t d)
    (room : dictSize d < 2 ^ 60) (canResize : Bool) :
    ∃ d', dictExpandIfNeeded t canResize d = (d', true) ∧ Kept t d d' ∧
      d'.ht0.sizeExp ≠ none ∧ Provided t canResize d d' := by
  have used : d.ht0.used < 2 ^ 60 := Nat.lt_of_le_of_lt (Nat.le_add_right _ _) room
  rw [dictExpandIfNeeded]
  split
  · rename_i busy
    obtain ⟨r, rehashing⟩ := Option.isSome_iff_exists.mp busy
    exact ⟨d, rfl, Kept.refl sound, (sound.moving r rehashing).1,
      .moving (by rw [rehashing]; simp)⟩
  rename_i free
  have idle : d.rehashidx = none := by simpa [dictIsRehashing] using free
  have grows : ∀ size, d.ht0.used ≤ size → size ≤ 2 ^ 60 →
      d.ht0.sizeExp ≠ some (dictNextExp size) →
      ∃ d', dictExpand d size = (d', true) ∧ Grown t size d d' ∧ d'.ht0.sizeExp ≠ none := by
    intro size fits room other
    have ok := expandTable_ok idle fits room other
    rcases expandTable_spec lawful sound size true with ⟨_, refused⟩ | ⟨_, grown⟩
    · exact absurd ok refused
    · refine ⟨_, ?_, grown, ?_⟩
      · rw [dictExpand]
        simp [ok]
      · rcases grown.made with ⟨_, _, size⟩ | ⟨memory, _, same, _⟩
        · rw [size]
          simp
        · rw [same]
          exact memory
  split
  · rename_i empty
    have null : d.ht0.sizeExp = none := by
      cases h : d.ht0.sizeExp with
      | none => rfl
      | some e =>
        rw [h, dicthtSize] at empty
        exact absurd empty (Nat.ne_of_gt (Nat.two_pow_pos e))
    have unused : d.ht0.used = 0 := by
      rw [sound.first.used, buckets_eq_nil sound.first null]
      rfl
    obtain ⟨d', done, grown, size⟩ := grows dictHtInitialSize (by rw [unused]; exact Nat.zero_le _)
      (by decide) (by rw [null]; simp)
    exact ⟨d', done, grown.kept, size, .first null grown⟩
  rename_i filled
  obtain ⟨e, size⟩ : ∃ e, d.ht0.sizeExp = some e := by
    refine Option.ne_none_iff_exists'.mp fun none => filled ?_
    rw [none]
    rfl
  rw [size, dicthtSize]
  split
  · rename_i needed
    obtain ⟨d', done, grown, size'⟩ := grows (d.ht0.used + 1) (Nat.le_succ _) used fun same => by
      rw [size, Option.some.injEq] at same
      have fits := dictNextExp_fits (show d.ht0.used + 1 ≤ 2 ^ 60 from used)
      rw [← same] at fits
      exact absurd (Nat.le_trans fits needed.1) (Nat.not_succ_le_self _)
    exact ⟨d', done, grown.kept, size', .grown size needed.1 grown⟩
  · rename_i enough
    exact ⟨d, rfl, Kept.refl sound, by rw [size]; simp, .roomy idle size enough⟩

end Expanding

section Api
variable {d' : Dict κ υ} {canResize : Bool} {block : Block υ} {he : DictEntry κ υ}

theorem entries_of_size (sound : Sound t d) (size : dictSize d = 0) : entries d = [] :=
  List.eq_nil_of_length_eq_zero ((dictSize_eq sound).symm.trans size)

/-- A dictionary with entries has its first table. -/
theorem sizeExp_of_size (sound : Sound t d) (size : dictSize d ≠ 0) :
    ∃ e, d.ht0.sizeExp = some e := by
  cases rehashing : d.rehashidx with
  | some r => exact Option.ne_none_iff_exists'.mp (sound.moving r rehashing).1
  | none =>
    refine sizeExp_of_used sound.first fun unused => size ?_
    have null := buckets_eq_nil sound.second (sound.idle rehashing)
    rw [dictSize, unused, sound.second.used, null]
    rfl

/-- Where the entry of a key is looked for. -/
theorem entryOf_searched (lawful : Lawful t) (sound : Sound t d) (size : d.ht0.sizeExp = some e)
    (key : κ) :
    ∃ chain, d.ht0.buckets[slot (t.hashFunction key) d.ht0.sizeExp]? = some chain ∧
      (d.rehashidx = none ∧ entryOf t d key = searchChain t key chain ∨
        ∃ e' chain', d.ht1.sizeExp = some e' ∧
          d.ht1.buckets[slot (t.hashFunction key) d.ht1.sizeExp]? = some chain' ∧
          d.rehashidx ≠ none ∧
          entryOf t d key = (searchChain t key chain).or (searchChain t key chain')) := by
  obtain ⟨chain, here⟩ := bucket_of_slot sound.first size (t.hashFunction key)
  refine ⟨chain, here, ?_⟩
  rw [entryOf, entries, under_append, ← search_chain lawful sound.first here]
  cases rehashing : d.rehashidx with
  | none =>
    refine Or.inl ⟨rfl, ?_⟩
    rw [buckets_eq_nil sound.second (sound.idle rehashing)]
    exact Option.or_none
  | some r =>
    obtain ⟨e', size'⟩ := Option.ne_none_iff_exists'.mp (sound.moving r rehashing).2.1
    obtain ⟨chain', here'⟩ := bucket_of_slot sound.second size' (t.hashFunction key)
    exact Or.inr ⟨e', chain', size', here', by simp,
      by rw [search_chain lawful sound.second here']⟩

/-- `dictFind` finds the entry of the key. -/
theorem dictFind_spec (lawful : Lawful t) (sound : Sound t d) (key : κ) :
    ∃ d', dictFind t d key = some (d', entryOf t d key) ∧ Kept t d d' ∧
      (dictSize d = 0 ∧ d' = d ∨ stepIfRehashing t d = some d') := by
  rw [dictFind]
  split
  · rename_i empty
    refine ⟨d, ?_, Kept.refl sound, Or.inl ⟨empty, rfl⟩⟩
    rw [entryOf, entries_of_size sound empty]
    rfl
  rename_i filled
  obtain ⟨d', stepped, kept, _⟩ := stepIfRehashing_spec lawful sound
  obtain ⟨e, size⟩ := sizeExp_of_size kept.sound (by rwa [kept.size sound])
  refine ⟨d', ?_, kept, Or.inr stepped⟩
  rw [← entryOf_kept lawful kept, Option.bind_eq_bind, stepped, Option.bind_some]
  obtain ⟨chain, here, searched⟩ := entryOf_searched lawful kept.sound size key
  dsimp only
  rw [Option.bind_eq_bind, here, Option.bind_some]
  rcases searched with ⟨idle, found⟩ | ⟨_, chain', _, here', busy, found⟩
  · have idle' : dictIsRehashing d' = false := by rw [dictIsRehashing, idle]; rfl
    rw [found]
    cases searchChain t key chain with
    | some he => rfl
    | none =>
      dsimp only
      rw [if_pos idle']
  · have busy' : ¬ dictIsRehashing d' = false := by
      simpa [dictIsRehashing, Option.isSome_iff_ne_none] using busy
    rw [found]
    cases searchChain t key chain with
    | some he => rfl
    | none =>
      dsimp only
      rw [if_neg busy', here', Option.bind_some, Option.none_or]

/-- The table that new entries go to. -/
def target (d : Dict κ υ) : Table κ υ := if d.rehashidx = none then d.ht0 else d.ht1

theorem dictKeyIndex_spec (lawful : Lawful t) (sound : Sound t d) (room : dictSize d < 2 ^ 60)
    (canResize : Bool) (key : κ) :
    ∃ d', dictExpandIfNeeded t canResize d = (d', true) ∧ Kept t d d' ∧
      (∃ e, (target d').sizeExp = some e) ∧ Provided t canResize d d' ∧
      dictKeyIndex t canResize d key (t.hashFunction key) = some (d',
        match entryOf t d key with
        | some he => .existing he
        | none => .index (slot (t.hashFunction key) (target d').sizeExp)) := by
  obtain ⟨d', expanded, kept, memory, provided⟩ :=
    dictExpandIfNeeded_spec lawful sound room canResize
  obtain ⟨e, size⟩ := Option.ne_none_iff_exists'.mp memory
  obtain ⟨chain, here, searched⟩ := entryOf_searched lawful kept.sound size key
  rw [dictKeyIndex, expanded, ← entryOf_kept lawful kept]
  dsimp only
  rw [Option.bind_eq_bind, here, Option.bind_some]
  rcases searched with ⟨idle, found⟩ | ⟨e', chain', size', here', busy, found⟩
  · have idle' : dictIsRehashing d' = false := by rw [dictIsRehashing, idle]; rfl
    refine ⟨d', rfl, kept, ?_⟩
    rw [found, show target d' = d'.ht0 from if_pos idle]
    refine ⟨⟨e, size⟩, provided, ?_⟩
    cases searchChain t key chain with
    | some he => rfl
    | none =>
      dsimp only
      rw [if_pos idle']
  · have busy' : ¬ dictIsRehashing d' = false := by
      simpa [dictIsRehashing, Option.isSome_iff_ne_none] using busy
    refine ⟨d', rfl, kept, ?_⟩
    rw [found, show target d' = d'.ht1 from if_neg busy]
    refine ⟨⟨e', size'⟩, provided, ?_⟩
    cases searchChain t key chain with
    | some he => rfl
    | none =>
      dsimp only
      rw [if_neg busy', here', Option.bind_some, Option.none_or]
      cases searchChain t key chain' <;> rfl

variable (t) in
/-- An entry was put into the table for new entries. -/
structure Pushed (d : Dict κ υ) (he : DictEntry κ υ) (d' : Dict κ υ) : Prop where
  sound : Sound t d'
  perm : (entries d').Perm (he :: entries d)
  pause : d'.pauserehash = d.pauserehash
  rehashidx : d'.rehashidx = d.rehashidx
  size0 : d'.ht0.sizeExp = d.ht0.sizeExp
  size1 : d'.ht1.sizeExp = d.ht1.sizeExp
  grows0 : Grows d.ht0 d'.ht0
  grows1 : Grows d.ht1 d'.ht1

/-- `dictAddRaw` on a key that is there. -/
theorem dictAddRaw_existing (lawful : Lawful t) (sound : Sound t d) (room : dictSize d < 2 ^ 60)
    (canResize : Bool) (there : entryOf t d key = some he) (block : Block υ) :
    ∃ d₁ d', stepIfRehashing t d = some d₁ ∧ dictExpandIfNeeded t canResize d₁ = (d', true) ∧
      Provided t canResize d₁ d' ∧
      dictAddRaw t canResize d key block = some (d', .existing he) ∧ Kept t d d' := by
  obtain ⟨d₁, stepped, kept₁, _⟩ := stepIfRehashing_spec lawful sound
  obtain ⟨d', expanded, kept₂, _, provided, index⟩ := dictKeyIndex_spec lawful kept₁.sound
    (by rwa [kept₁.size sound]) canResize key
  refine ⟨d₁, d', stepped, expanded, provided, ?_, kept₁.trans kept₂⟩
  rw [dictAddRaw, Option.bind_eq_bind, stepped, Option.bind_some, index,
    entryOf_kept lawful kept₁, there]
  rfl

theorem push_target (lawful : Lawful t) (sound : Sound t d) (size : (target d).sizeExp = some e)
    (new : ∀ other ∈ entries d, sameKey t he.key other.key = false)
    (fresh : he.addr ∉ (entries d).map DictEntry.addr) :
    ∃ d', (if dictIsRehashing d then
        (d.ht1.push (slot (t.hashFunction he.key) (target d).sizeExp) he).map fun ht1 =>
          { d with ht1 }
      else
        (d.ht0.push (slot (t.hashFunction he.key) (target d).sizeExp) he).map fun ht0 =>
          { d with ht0 }) = some d' ∧ Pushed t d he d' := by
  have apart : Apart (sameKey t) DictEntry.key (he :: entries d) :=
    apart_cons.mpr ⟨new, sound.apart⟩
  have addrs : ((he :: entries d).map DictEntry.addr).Nodup :=
    List.nodup_cons.mpr ⟨fresh, sound.addrs⟩
  cases rehashing : d.rehashidx with
  | none =>
    have same : target d = d.ht0 := by rw [target, if_pos rehashing]
    have idle : ¬ dictIsRehashing d = true := by rw [dictIsRehashing, rehashing]; simp
    rw [same] at size ⊢
    obtain ⟨ht, pushed, first, size', perm, grows⟩ := push_spec sound.first size he
    have all : (entries { d with ht0 := ht }).Perm (he :: entries d) := perm.append_right _
    rw [if_neg idle, pushed]
    exact ⟨_, rfl, ⟨⟨first, sound.second, fun _ => sound.idle rehashing, by simp,
      (apart_perm lawful.eqv all).mpr apart, (all.map _).nodup_iff.mpr addrs⟩, all, rfl,
      rehashing.symm, size', rfl, grows, Grows.refl _⟩⟩
  | some r =>
    have same : target d = d.ht1 := by rw [target, if_neg (by rw [rehashing]; simp)]
    have busy : dictIsRehashing d = true := by rw [dictIsRehashing, rehashing]; rfl
    rw [same] at size ⊢
    obtain ⟨ht, pushed, second, size', perm, grows⟩ := push_spec sound.second size he
    have all : (entries { d with ht1 := ht }).Perm (he :: entries d) :=
      (perm.append_left _).trans List.perm_middle
    rw [if_pos busy, pushed]
    refine ⟨_, rfl, ⟨⟨sound.first, second, by simp, fun r' rehashing' => ?_,
      (apart_perm lawful.eqv all).mpr apart, (all.map _).nodup_iff.mpr addrs⟩, all, rfl,
      rehashing.symm, rfl, size', Grows.refl _, grows⟩⟩
    obtain ⟨memory, memory', empty⟩ := sound.moving r' (rehashing.trans rehashing')
    exact ⟨memory, fun none => memory' (size'.symm.trans none), empty⟩

/-- `dictAddRaw` on a key that is not there. -/
theorem dictAddRaw_new (lawful : Lawful t) (sound : Sound t d) (room : dictSize d < 2 ^ 60)
    (canResize : Bool) (new : entryOf t d key = none)
    (fresh : block.addr ∉ (entries d).map DictEntry.addr) :
    ∃ d₁ d₂ d', stepIfRehashing t d = some d₁ ∧
      dictExpandIfNeeded t canResize d₁ = (d₂, true) ∧ Kept t d d₂ ∧
      Provided t canResize d₁ d₂ ∧
      Pushed t d₂ ⟨block.addr, dictSetKey t key, block.val⟩ d' ∧
      dictAddRaw t canResize d key block =
        some (d', .entry ⟨block.addr, dictSetKey t key, block.val⟩) := by
  obtain ⟨d₁, stepped, kept₁, _⟩ := stepIfRehashing_spec lawful sound
  obtain ⟨d₂, expanded, kept₂, ⟨e, size⟩, provided, index⟩ := dictKeyIndex_spec lawful kept₁.sound
    (by rwa [kept₁.size sound]) canResize key
  have kept := kept₁.trans kept₂
  have others : ∀ other ∈ entries d₂, sameKey t (dictSetKey t key) other.key = false :=
    fun other mem => (lawful.eqv.congr (lawful.dup key) other.key).trans
      (under_eq_none.mp new other (kept.perm.mem_iff.mp mem))
  have fresh' : block.addr ∉ (entries d₂).map DictEntry.addr := fun mem =>
    fresh ((kept.perm.map DictEntry.addr).mem_iff.mp mem)
  obtain ⟨d', pushed, entered⟩ := @push_target _ _ _ _ _ _
    ⟨block.addr, dictSetKey t key, block.val⟩ lawful kept.sound size others fresh'
  refine ⟨d₁, d₂, d', stepped, expanded, kept, provided, entered, ?_⟩
  rw [entryOf_kept lawful kept₁, new] at index
  rw [dictAddRaw, Option.bind_eq_bind, stepped, Option.bind_some, index]
  rw [lawful.hash (lawful.dup key)] at pushed
  dsimp only [Option.bind_eq_bind, Option.bind_some]
  split at pushed
  · rename_i busy
    rw [if_pos busy]
    obtain ⟨ht, at_, rfl⟩ := Option.map_eq_some_iff.mp pushed
    rw [at_]
    rfl
  · rename_i idle
    rw [if_neg idle]
    obtain ⟨ht, at_, rfl⟩ := Option.map_eq_some_iff.mp pushed
    rw [at_]
    rfl

variable (t) in
/-- The entry, if it is one, was unlinked. -/
structure Dropped (d : Dict κ υ) (he : Option (DictEntry κ υ)) (d' : Dict κ υ) : Prop where
  sound : Sound t d'
  perm : (entries d).Perm (he.toList ++ entries d')
  pause : d'.pauserehash = d.pauserehash
  rehashidx : d'.rehashidx = d.rehashidx
  size0 : d'.ht0.sizeExp = d.ht0.sizeExp
  size1 : d'.ht1.sizeExp = d.ht1.sizeExp
  loses0 : Loses he d.ht0 d'.ht0
  loses1 : Loses he d.ht1 d'.ht1

/-- What is left of a dictionary in order is in order. -/
theorem sound_of_dropped (lawful : Lawful t) (sound : Sound t d) {he : Option (DictEntry κ υ)}
    (first : TableSound t d'.ht0) (second : TableSound t d'.ht1)
    (perm : (entries d).Perm (he.toList ++ entries d')) (pause : d'.pauserehash = d.pauserehash)
    (rehashidx : d'.rehashidx = d.rehashidx) (size0 : d'.ht0.sizeExp = d.ht0.sizeExp)
    (size1 : d'.ht1.sizeExp = d.ht1.sizeExp) (loses0 : Loses he d.ht0 d'.ht0)
    (loses1 : Loses he d.ht1 d'.ht1) : Dropped t d he d' := by
  refine ⟨⟨first, second, ?_, ?_, ?_, ?_⟩, perm, pause, rehashidx, size0, size1, loses0, loses1⟩
  · rw [rehashidx, size1]
    exact sound.idle
  · rw [rehashidx, size0, size1]
    intro r rehashing
    obtain ⟨memory, memory', empty⟩ := sound.moving r rehashing
    exact ⟨memory, memory', fun i less => loses0.empty (empty i less)⟩
  · exact (List.pairwise_append.mp ((apart_perm lawful.eqv perm).mp sound.apart)).2.1
  · have both := (perm.map DictEntry.addr).nodup_iff.mp sound.addrs
    rw [List.map_append] at both
    exact (List.nodup_append.mp both).2.1

/-- `dictGenericDelete` unlinks the entry of the key. -/
theorem dictGenericDelete_spec (lawful : Lawful t) (sound : Sound t d) (key : κ) :
    ∃ d₁ d', dictGenericDelete t d key = some (d', entryOf t d key) ∧ Kept t d d₁ ∧
      Dropped t d₁ (entryOf t d key) d' ∧
      (dictSize d = 0 ∧ d₁ = d ∨ stepIfRehashing t d = some d₁) := by
  rw [dictGenericDelete]
  split
  · rename_i empty
    have none : entryOf t d key = none := by
      rw [entryOf, entries_of_size sound empty]
      rfl
    rw [none]
    exact ⟨d, d, rfl, Kept.refl sound, sound_of_dropped lawful sound sound.first sound.second
      (List.Perm.refl _) rfl rfl rfl rfl (Loses.refl _ _) (Loses.refl _ _), Or.inl ⟨empty, rfl⟩⟩
  rename_i filled
  obtain ⟨d₁, stepped, kept, _⟩ := stepIfRehashing_spec lawful sound
  obtain ⟨e, size⟩ := sizeExp_of_size kept.sound (by rwa [kept.size sound])
  rw [← entryOf_kept lawful kept, Option.bind_eq_bind, stepped, Option.bind_some]
  obtain ⟨ht0, unlinked, first, size0, loses0, perm0⟩ :=
    unlink_spec lawful kept.sound.first size key
  rw [Option.bind_eq_bind, unlinked, Option.bind_some, entryOf, entries, under_append]
  cases found : under (sameKey t) DictEntry.key d₁.ht0.buckets.flatten key with
  | some he =>
    rw [found] at loses0 perm0
    refine ⟨d₁, { d₁ with ht0 }, rfl, kept, ?_, Or.inr rfl⟩
    exact sound_of_dropped lawful kept.sound first kept.sound.second (perm0.append_right _)
      rfl rfl size0 rfl loses0 (Loses.refl _ _)
  | none =>
    dsimp only
    rw [Option.none_or]
    by_cases rehashing : d₁.rehashidx = none
    · have idle : dictIsRehashing d₁ = false := by rw [dictIsRehashing, rehashing]; rfl
      rw [if_pos idle, buckets_eq_nil kept.sound.second (kept.sound.idle rehashing)]
      exact ⟨d₁, d₁, rfl, kept,
        sound_of_dropped lawful kept.sound kept.sound.first kept.sound.second
          (List.Perm.refl _) rfl rfl rfl rfl (Loses.refl _ _) (Loses.refl _ _), Or.inr rfl⟩
    · obtain ⟨r, rehashing⟩ := Option.ne_none_iff_exists'.mp rehashing
      have busy : ¬ dictIsRehashing d₁ = false := by rw [dictIsRehashing, rehashing]; simp
      obtain ⟨e', size'⟩ := Option.ne_none_iff_exists'.mp (kept.sound.moving r rehashing).2.1
      obtain ⟨ht1, unlinked', second, size1, loses1, perm1⟩ :=
        unlink_spec lawful kept.sound.second size' key
      rw [if_neg busy, unlinked']
      refine ⟨d₁, { d₁ with ht1 }, rfl, kept, ?_, Or.inr rfl⟩
      refine sound_of_dropped lawful kept.sound kept.sound.first second ?_ rfl rfl rfl size1
        (Loses.refl _ _) loses1
      refine (perm1.append_left _).trans ?_
      rw [entries, ← List.append_assoc, ← List.append_assoc]
      exact List.perm_append_comm.append_right _

/-- What is found when the entry of a key is gone. -/
theorem entryOf_dropped (lawful : Lawful t) (sound : Sound t d)
    (dropped : Dropped t d (entryOf t d key) d') (k : κ) :
    entryOf t d' k = if sameKey t k key then none else entryOf t d k := by
  have perm := dropped.perm
  cases found : entryOf t d key with
  | none =>
    rw [found] at perm
    have same : entryOf t d' k = entryOf t d k :=
      under_perm lawful.eqv dropped.sound.apart perm.symm k
    split
    · rename_i right
      rw [same, entryOf, under_eq_none]
      exact fun x mem => (lawful.eqv.congr right x.key).trans (under_eq_none.mp found x mem)
    · exact same
  | some he =>
    rw [found] at perm
    have right := same_of_under found
    have perm' : (entries d).Perm (he :: entries d') := perm
    rw [entryOf, under_rest lawful.eqv sound.apart perm', lawful.eqv.comm k,
      ← lawful.eqv.congr right k, lawful.eqv.comm]
    rfl

/-- What is found when an entry is there. -/
theorem entryOf_pushed (lawful : Lawful t) (pushed : Pushed t d he d') (k : κ) :
    entryOf t d' k = if sameKey t k he.key then some he else entryOf t d k :=
  under_of_perm_cons lawful.eqv pushed.sound.apart pushed.perm k

omit [DecidableEq κ] in
theorem writeVal_key (addr : Nat) (val : υ) (x : DictEntry κ υ) :
    (writeVal addr val x).key = x.key := by
  rw [writeVal]
  split <;> rfl

omit [DecidableEq κ] in
theorem writeVal_addr (addr : Nat) (val : υ) (x : DictEntry κ υ) :
    (writeVal addr val x).addr = x.addr := by
  rw [writeVal]
  split <;> rfl

omit [DecidableEq κ] in
theorem entries_dictSetVal (t : DictType κ υ) (d : Dict κ υ) (addr : Nat) (val : υ) :
    entries (dictSetVal t d addr val) = (entries d).map (writeVal addr (copyVal t val)) := by
  rw [entries, entries, List.map_append, List.map_flatten, List.map_flatten]
  rfl

theorem sound_dictSetVal (sound : Sound t d) (addr : Nat) (val : υ) :
    Sound t (dictSetVal t d addr val) where
  first := tableSound_mapEntries sound.first (writeVal_key _ _)
  second := tableSound_mapEntries sound.second (writeVal_key _ _)
  idle := sound.idle
  moving r rehashing := by
    obtain ⟨memory, memory', empty⟩ := sound.moving r rehashing
    refine ⟨memory, memory', fun i less => ?_⟩
    rw [dictSetVal, Table.mapEntries, List.getElem?_map, empty i less]
    rfl
  apart := by
    rw [entries_dictSetVal]
    exact (apart_map _ (writeVal_key _ _)).mpr sound.apart
  addrs := by
    rw [entries_dictSetVal, List.map_map]
    rw [show DictEntry.addr ∘ writeVal addr (copyVal t val) = DictEntry.addr from
      funext (writeVal_addr (κ := κ) addr (copyVal t val))]
    exact sound.addrs

/-- Setting the value of an entry changes what is found under its key, and nothing else. -/
theorem entryOf_dictSetVal (lawful : Lawful t) (sound : Sound t d) (mem : he ∈ entries d) (val : υ)
    (k : κ) :
    (entryOf t (dictSetVal t d he.addr val) k).map DictEntry.val =
      if sameKey t k he.key then some (copyVal t val) else (entryOf t d k).map DictEntry.val := by
  rw [entryOf, entries_dictSetVal, under_map _ (writeVal_key _ _), Option.map_map]
  split
  · rename_i right
    rw [under_of_mem lawful.eqv sound.apart mem right]
    simp [writeVal]
  · rename_i off
    rw [entryOf]
    cases found : under (sameKey t) DictEntry.key (entries d) k with
    | none => rfl
    | some x =>
      have other : x.addr ≠ he.addr := by
        intro same
        have one := List.inj_on_of_nodup_map sound.addrs (mem_of_under found) mem same
        rw [← one] at off
        exact off (same_of_under found)
      simp [writeVal, other]

omit [DecidableEq κ] in
theorem clearLoop_eq (buckets : List (List (DictEntry κ υ))) :
    clearLoop buckets buckets.flatten.length = buckets.flatten := by
  induction buckets with
  | nil => rfl
  | cons chain rest ih =>
    rw [clearLoop, List.flatten_cons, List.length_append]
    split
    · rename_i empty
      rw [Nat.add_eq_zero_iff] at empty
      rw [List.eq_nil_of_length_eq_zero empty.1, List.eq_nil_of_length_eq_zero empty.2]
      rfl
    · rw [Nat.add_sub_cancel_left, ih]

/-- `dictEmpty` frees every entry. -/
theorem dictEmpty_frees (sound : Sound t d) : (dictEmpty d).2 = entries d := by
  rw [dictEmpty, sound.first.used, sound.second.used]
  dsimp only
  rw [clearLoop_eq, clearLoop_eq]
  rfl

theorem sound_dictCreate : Sound t (dictCreate : Dict κ υ) where
  first := tableSound_reset
  second := tableSound_reset
  idle _ := rfl
  moving r rehashing := by cases rehashing
  apart := List.Pairwise.nil
  addrs := List.nodup_nil

end Api

end DictCalls
