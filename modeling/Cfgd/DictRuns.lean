import Cfgd.DictCalls
import Cfgd.Transition

/-!
# A dictionary is a map

Along any run of calls a dictionary answers as a finite map does, whatever is moved between
its tables on the way, and every entry that was allocated is in it, with the caller, or
freed.
-/

namespace DictRuns

open Buckets DictTable DictSound DictCalls Transition

variable {κ υ : Type} [DecidableEq κ]

section Machine

/-- The calls, with what the heap and the clock make of them. -/
inductive Act (κ υ : Type) where
  | find (key : κ)
  | add (key : κ) (val : υ) (block : Block υ)
  | addOrFind (key : κ) (block : Block υ)
  | replace (key : κ) (val : υ) (block : Block υ)
  | delete (key : κ)
  | unlink (key : κ)
  | freeUnlinkedEntry (addr : Nat)
  | size
  | rehash (n : Nat)
  | rehashMilliseconds (rounds : Nat)
  | resize
  | expand (size : Nat)
  | tryExpand (size : Nat) (heap : Bool)
  | empty
  | enableResize
  | disableResize
  | pauseRehashing
  | resumeRehashing

inductive Answer (υ : Type) where
  | value (val : Option υ)
  | status (ok : Bool)
  | count (n : Nat)
  | done
  deriving DecidableEq, Repr

/-- A dictionary with `dict_can_resize`, the entries that `dictUnlink` gave to the caller,
and an account of the blocks for entries. -/
structure State (κ υ : Type) where
  dict : Dict κ υ
  canResize : Bool
  unlinked : List (DictEntry κ υ)
  allocated : List Nat
  freed : List Nat

/-- After `dictCreate`. -/
def created : State κ υ := ⟨dictCreate, true, [], [], []⟩

/-- The blocks of the entries that are in the dictionary or with the caller. -/
def held (s : State κ υ) : List Nat := (s.unlinked ++ entries s.dict).map DictEntry.addr

variable (t : DictType κ υ)

def step (s : State κ υ) : Act κ υ → Option (State κ υ × Answer υ)
  | .find key => (dictFind t s.dict key).map fun (dict, he) =>
    ({ s with dict }, .value (he.map DictEntry.val))
  | .add key val block => (dictAdd t s.canResize s.dict key val block).map fun (dict, added) =>
    ({ s with
      dict, allocated := if added then block.addr :: s.allocated else s.allocated }, .status added)
  | .addOrFind key block => (dictAddOrFind t s.canResize s.dict key block).map fun (dict, he) =>
    ({ s with
      dict
      allocated := if he.map DictEntry.addr = some block.addr then block.addr :: s.allocated
        else s.allocated }, .value (he.map DictEntry.val))
  | .replace key val block =>
    (dictReplace t s.canResize s.dict key val block).map fun (dict, added) =>
      ({ s with
        dict, allocated := if added then block.addr :: s.allocated else s.allocated },
        .status added)
  | .delete key => (dictGenericDelete t s.dict key).map fun (dict, he) =>
    ({ s with dict, freed := (he.map DictEntry.addr).toList ++ s.freed }, .status he.isSome)
  | .unlink key => (dictGenericDelete t s.dict key).map fun (dict, he) =>
    ({ s with dict, unlinked := he.toList ++ s.unlinked }, .value (he.map DictEntry.val))
  | .freeUnlinkedEntry addr => (s.unlinked.find? (·.addr = addr)).map fun he =>
    ({ s with
      unlinked := s.unlinked.eraseP (·.addr = addr), freed := he.addr :: s.freed }, .done)
  | .size => some (s, .count (dictSize s.dict))
  | .rehash n => (dictRehash t s.dict n).map fun (dict, _) => ({ s with dict }, .done)
  | .rehashMilliseconds rounds => (dictRehashMilliseconds t s.dict rounds).map fun dict =>
    ({ s with dict }, .done)
  | .resize => some ({ s with dict := (dictResize s.canResize s.dict).1 }, .done)
  | .expand size => some ({ s with dict := (dictExpand s.dict size).1 }, .done)
  | .tryExpand size heap => some ({ s with dict := (dictTryExpand s.dict size heap).1 }, .done)
  | .empty => some ({ s with
      dict := (dictEmpty s.dict).1
      freed := (dictEmpty s.dict).2.map DictEntry.addr ++ s.freed }, .done)
  | .enableResize => some ({ s with canResize := true }, .done)
  | .disableResize => some ({ s with canResize := false }, .done)
  | .pauseRehashing =>
    some ({ s with dict := { s.dict with pauserehash := s.dict.pauserehash + 1 } }, .done)
  | .resumeRehashing =>
    some ({ s with dict := { s.dict with pauserehash := s.dict.pauserehash - 1 } }, .done)

/-- What is asked of a call: `zmalloc` gives a block that is free, entries of 24 bytes fit
into the memory, `n * 10` is an `int`, and what is freed is there. -/
def Legal (s : State κ υ) : Act κ υ → Prop
  | .add _ _ block => block.addr ∉ held s ∧ dictSize s.dict < 2 ^ 60
  | .addOrFind _ block => block.addr ∉ held s ∧ dictSize s.dict < 2 ^ 60
  | .replace _ _ block => block.addr ∉ held s ∧ dictSize s.dict < 2 ^ 60
  | .freeUnlinkedEntry addr => addr ∈ s.unlinked.map DictEntry.addr
  | .rehash n => n * 10 < 2 ^ 31
  | _ => True

instance (s : State κ υ) (act : Act κ υ) : Decidable (Legal s act) :=
  match act with
  | .add _ _ block => inferInstanceAs (Decidable (block.addr ∉ held s ∧ _))
  | .addOrFind _ block => inferInstanceAs (Decidable (block.addr ∉ held s ∧ _))
  | .replace _ _ block => inferInstanceAs (Decidable (block.addr ∉ held s ∧ _))
  | .freeUnlinkedEntry addr => inferInstanceAs (Decidable (addr ∈ s.unlinked.map DictEntry.addr))
  | .rehash n => inferInstanceAs (Decidable (n * 10 < 2 ^ 31))
  | .find _ | .delete _ | .unlink _ | .size | .rehashMilliseconds _ | .resize | .expand _
  | .tryExpand _ _ | .empty | .enableResize | .disableResize | .pauseRehashing
  | .resumeRehashing => inferInstanceAs (Decidable True)

/-- The state after a call. -/
def next (s : State κ υ) (act : Act κ υ) : Option (State κ υ) := (step t s act).map Prod.fst

/-- The answers of a run; none if a call of it does not come back. -/
def answers : List (Act κ υ) → State κ υ → Option (List (Answer υ))
  | [], _ => some []
  | act :: rest, s => (step t s act).bind fun (s, answer) => (answers rest s).map (answer :: ·)

end Machine

section Maps

/-- A finite map, and the number of its keys. -/
structure Map (κ υ : Type) where
  get : κ → Option υ
  size : Nat

def Map.empty : Map κ υ := ⟨fun _ => none, 0⟩

variable (same : κ → κ → Bool)

def Map.put (m : Map κ υ) (key : κ) (val : υ) : Map κ υ :=
  ⟨fun k => if same k key then some val else m.get k,
    if (m.get key).isSome then m.size else m.size + 1⟩

def Map.drop (m : Map κ υ) (key : κ) : Map κ υ :=
  ⟨fun k => if same k key then none else m.get k,
    if (m.get key).isSome then m.size - 1 else m.size⟩

variable (t : DictType κ υ)

/-- The calls on a map. -/
def mapStep (m : Map κ υ) : Act κ υ → Map κ υ × Answer υ
  | .find key => (m, .value (m.get key))
  | .add key val _ =>
    if (m.get key).isSome then (m, .status false)
    else (m.put (sameKey t) key (copyVal t val), .status true)
  | .addOrFind key block =>
    match m.get key with
    | some val => (m, .value (some val))
    | none => (m.put (sameKey t) key block.val, .value (some block.val))
  | .replace key val _ => (m.put (sameKey t) key (copyVal t val), .status (m.get key).isNone)
  | .delete key => (m.drop (sameKey t) key, .status (m.get key).isSome)
  | .unlink key => (m.drop (sameKey t) key, .value (m.get key))
  | .size => (m, .count m.size)
  | .empty => (Map.empty, .done)
  | _ => (m, .done)

def mapAnswers : List (Act κ υ) → Map κ υ → List (Answer υ)
  | [], _ => []
  | act :: rest, m => (mapStep t m act).2 :: mapAnswers rest (mapStep t m act).1

end Maps

section Steps
variable {t : DictType κ υ} {d d' : Dict κ υ} {m : Map κ υ} {key k : κ}

variable (t) in
/-- What is found under a key. -/
def valueOf (d : Dict κ υ) (k : κ) : Option υ := (entryOf t d k).map DictEntry.val

variable (t) in
/-- The dictionary holds the map. -/
structure Shows (d : Dict κ υ) (m : Map κ υ) : Prop where
  get : ∀ k, valueOf t d k = m.get k
  size : dictSize d = m.size

variable (t) in
/-- A state in order, which holds the map, with its account of the blocks. -/
structure Simulates (s : State κ υ) (m : Map κ υ) : Prop where
  sound : Sound t s.dict
  shows : Shows t s.dict m
  apart : (held s).Nodup
  account : s.allocated.Perm (s.freed ++ held s)

theorem shows_kept (lawful : Lawful t) (sound : Sound t d) (kept : Kept t d d')
    (shows_ : Shows t d m) : Shows t d' m where
  get k := by rw [valueOf, entryOf_kept lawful kept, ← shows_.get k]; rfl
  size := (kept.size sound).trans shows_.size

/-- Same entries: the same answers, and the same account. -/
theorem simulates_kept (lawful : Lawful t) {s : State κ υ} (h : Simulates t s m)
    (kept : Kept t s.dict d') : Simulates t { s with dict := d' } m := by
  have perm : (held { s with dict := d' }).Perm (held s) :=
    (kept.perm.append_left s.unlinked).map DictEntry.addr
  exact ⟨kept.sound, shows_kept lawful h.sound kept h.shows, perm.nodup_iff.mpr h.apart,
    h.account.trans (perm.symm.append_left _)⟩

theorem isSome_get (h : Shows t d m) (key : κ) : (m.get key).isSome = (entryOf t d key).isSome := by
  rw [← h.get, valueOf, Option.isSome_map]

/-- A value is put under a key that was there. -/
theorem simulates_set (lawful : Lawful t) {s : State κ υ} (h : Simulates t s m)
    (kept : Kept t s.dict d') {he : DictEntry κ υ} (there : entryOf t s.dict key = some he)
    (val : υ) :
    Simulates t { s with dict := dictSetVal t d' he.addr val }
      (m.put (sameKey t) key (copyVal t val)) := by
  have there' : entryOf t d' key = some he := (entryOf_kept lawful kept key).trans there
  have right := same_of_under there'
  have some_ : (m.get key).isSome = true := by rw [isSome_get h.shows, there]; rfl
  have all : (entries (dictSetVal t d' he.addr val)).map DictEntry.addr =
      (entries d').map DictEntry.addr := by
    rw [entries_dictSetVal, List.map_map]
    exact List.map_congr_left fun x _ => writeVal_addr _ _ x
  have perm : (held { s with dict := dictSetVal t d' he.addr val }).Perm (held s) := by
    rw [held, held, List.map_append, List.map_append, all]
    exact (kept.perm.map DictEntry.addr).append_left _
  refine ⟨sound_dictSetVal kept.sound _ _, ⟨fun k => ?_, ?_⟩, perm.nodup_iff.mpr h.apart,
    h.account.trans (perm.symm.append_left _)⟩
  · rw [valueOf, entryOf_dictSetVal lawful kept.sound (mem_of_under there'), Map.put]
    dsimp only
    rw [lawful.eqv.comm k key, lawful.eqv.comm k he.key, lawful.eqv.congr right k,
      entryOf_kept lawful kept, ← h.shows.get k]
    rfl
  · rw [dictSize_eq (sound_dictSetVal kept.sound _ _), entries_dictSetVal, List.length_map,
      ← dictSize_eq kept.sound, kept.size h.sound, h.shows.size, Map.put]
    dsimp only
    rw [if_pos some_]

/-- A new entry. -/
theorem simulates_pushed (lawful : Lawful t) {s : State κ υ} (h : Simulates t s m)
    {block : Block υ} (fresh : block.addr ∉ held s) (kept : Kept t s.dict d)
    (new : entryOf t s.dict key = none)
    (pushed : Pushed t d ⟨block.addr, dictSetKey t key, block.val⟩ d') :
    Simulates t { s with dict := d', allocated := block.addr :: s.allocated }
      (m.put (sameKey t) key block.val) := by
  have none_ : ¬ (m.get key).isSome = true := by rw [isSome_get h.shows, new]; simp
  have perm : (held { s with dict := d', allocated := block.addr :: s.allocated }).Perm
      (block.addr :: held s) := by
    refine ((pushed.perm.trans (kept.perm.cons _)).append_left s.unlinked |>.map _).trans ?_
    exact List.perm_middle.map DictEntry.addr
  refine ⟨pushed.sound, ⟨fun k => ?_, ?_⟩, ?_, ?_⟩
  · rw [valueOf, entryOf_pushed lawful pushed, Map.put]
    dsimp only
    rw [lawful.eqv.comm k key, lawful.eqv.comm k, lawful.eqv.congr (lawful.dup key) k,
      entryOf_kept lawful kept, ← h.shows.get k]
    cases sameKey t key k <;> rfl
  · rw [dictSize_eq pushed.sound, pushed.perm.length_eq, List.length_cons,
      ← dictSize_eq kept.sound, kept.size h.sound, h.shows.size, Map.put]
    dsimp only
    rw [if_neg none_]
  · exact perm.nodup_iff.mpr (List.nodup_cons.mpr ⟨fresh, h.apart⟩)
  · refine (h.account.cons block.addr).trans ?_
    exact List.perm_middle.symm.trans (perm.symm.append_left _)

theorem put_put (lawful : Lawful t) (m : Map κ υ) (key : κ) (val val' : υ) :
    (m.put (sameKey t) key val).put (sameKey t) key val' = m.put (sameKey t) key val' := by
  simp only [Map.put, lawful.eqv.refl, if_true, Option.isSome_some, Map.mk.injEq, and_true]
  funext k
  cases sameKey t k key <;> rfl

/-- A new entry, whose value is set. -/
theorem simulates_entered (lawful : Lawful t) {s : State κ υ} (h : Simulates t s m)
    {block : Block υ} (fresh : block.addr ∉ held s) (kept : Kept t s.dict d)
    (new : entryOf t s.dict key = none)
    (pushed : Pushed t d ⟨block.addr, dictSetKey t key, block.val⟩ d') (val : υ) :
    Simulates t { s with
        dict := dictSetVal t d' block.addr val, allocated := block.addr :: s.allocated }
      (m.put (sameKey t) key (copyVal t val)) := by
  have entered := simulates_pushed lawful h fresh kept new pushed
  have there : entryOf t d' key = some ⟨block.addr, dictSetKey t key, block.val⟩ := by
    rw [entryOf_pushed lawful pushed, if_pos (lawful.eqv.symm (lawful.dup key))]
  have set := simulates_set lawful entered (Kept.refl pushed.sound) there val
  rwa [put_put lawful] at set

theorem held_dropped {s : State κ υ} {he : Option (DictEntry κ υ)} (kept : Kept t s.dict d)
    (dropped : Dropped t d he d') :
    (held s).Perm ((he.toList ++ (s.unlinked ++ entries d')).map DictEntry.addr) := by
  refine List.Perm.map _ (((kept.perm.symm.trans dropped.perm).append_left _).trans ?_)
  rw [← List.append_assoc, ← List.append_assoc]
  exact List.perm_append_comm.append_right _

/-- The entry of a key goes: it is freed, or the caller gets it. -/
theorem simulates_dropped (lawful : Lawful t) {s s' : State κ υ} (h : Simulates t s m)
    (kept : Kept t s.dict d) (dropped : Dropped t d (entryOf t s.dict key) s'.dict)
    (allocated : s'.allocated = s.allocated) {gone : List Nat} (freed : s'.freed = gone ++ s.freed)
    (rest : (held s).Perm (gone ++ held s')) : Simulates t s' (m.drop (sameKey t) key) := by
  refine ⟨dropped.sound, ⟨fun k => ?_, ?_⟩, ?_, ?_⟩
  · rw [← entryOf_kept lawful kept key] at dropped
    rw [valueOf, entryOf_dropped lawful kept.sound dropped, Map.drop]
    dsimp only
    rw [entryOf_kept lawful kept, ← h.shows.get k]
    cases sameKey t k key <;> rfl
  · have count := (kept.perm.symm.trans dropped.perm).length_eq
    rw [List.length_append, ← dictSize_eq h.sound, ← dictSize_eq dropped.sound, h.shows.size]
      at count
    rw [Map.drop]
    dsimp only
    rw [isSome_get h.shows, count]
    cases entryOf t s.dict key <;> simp
  · exact (List.nodup_append.mp (rest.nodup_iff.mp h.apart)).2.1
  · rw [allocated, freed]
    refine (h.account.trans (rest.append_left _)).trans ?_
    rw [← List.append_assoc]
    exact List.perm_append_comm.append_right _

omit [DecidableEq κ] in
theorem fresh_entries {s : State κ υ} {addr : Nat} (fresh : addr ∉ held s) :
    addr ∉ (entries s.dict).map DictEntry.addr := by
  rw [held, List.map_append, List.mem_append, not_or] at fresh
  exact fresh.2

/-- Each call on a dictionary that holds a map is the call on the map. -/
theorem step_simulates (lawful : Lawful t) {s : State κ υ} (h : Simulates t s m) (act : Act κ υ)
    (legal : Legal s act) :
    ∃ s', step t s act = some (s', (mapStep t m act).2) ∧ Simulates t s' (mapStep t m act).1 := by
  cases act with
  | find key =>
    obtain ⟨d', found, kept, _⟩ := dictFind_spec lawful h.sound key
    rw [step, found, mapStep, ← h.shows.get key]
    exact ⟨_, rfl, simulates_kept lawful h kept⟩
  | add key val block =>
    obtain ⟨fresh, room⟩ := legal
    rw [step, dictAdd, Option.bind_eq_bind, mapStep, isSome_get h.shows]
    cases there : entryOf t s.dict key with
    | some he =>
      obtain ⟨_, d', _, _, _, added, kept⟩ :=
        dictAddRaw_existing lawful h.sound room s.canResize there block
      rw [added]
      exact ⟨_, rfl, simulates_kept lawful h kept⟩
    | none =>
      obtain ⟨_, d, d', _, _, kept, _, pushed, added⟩ := dictAddRaw_new lawful h.sound room
        s.canResize there (fresh_entries fresh)
      rw [added]
      exact ⟨_, rfl, simulates_entered lawful h fresh kept there pushed val⟩
  | addOrFind key block =>
    obtain ⟨fresh, room⟩ := legal
    rw [step, dictAddOrFind, Option.bind_eq_bind, mapStep, ← h.shows.get key, valueOf]
    cases there : entryOf t s.dict key with
    | some he =>
      obtain ⟨_, d', _, _, _, added, kept⟩ :=
        dictAddRaw_existing lawful h.sound room s.canResize there block
      have other : he.addr ≠ block.addr := by
        rintro same
        exact fresh_entries fresh (same ▸ List.mem_map_of_mem (mem_of_under there))
      refine ⟨{ s with dict := d' }, ?_, simulates_kept lawful h kept⟩
      rw [added, Option.bind_some, Option.map_some]
      simp only [Option.map_some, Option.some.injEq, other, if_false]
    | none =>
      obtain ⟨_, d, d', _, _, kept, _, pushed, added⟩ := dictAddRaw_new lawful h.sound room
        s.canResize there (fresh_entries fresh)
      refine ⟨_, ?_, simulates_pushed lawful h fresh kept there pushed⟩
      rw [added, Option.bind_some, Option.map_some]
      simp only [Option.map_some, if_true]
      rfl
  | replace key val block =>
    obtain ⟨fresh, room⟩ := legal
    rw [step, dictReplace, Option.bind_eq_bind, mapStep, ← Option.not_isSome, isSome_get h.shows]
    cases there : entryOf t s.dict key with
    | some he =>
      obtain ⟨_, d', _, _, _, added, kept⟩ :=
        dictAddRaw_existing lawful h.sound room s.canResize there block
      rw [added]
      exact ⟨_, rfl, simulates_set lawful h kept there val⟩
    | none =>
      obtain ⟨_, d, d', _, _, kept, _, pushed, added⟩ := dictAddRaw_new lawful h.sound room
        s.canResize there (fresh_entries fresh)
      rw [added]
      exact ⟨_, rfl, simulates_entered lawful h fresh kept there pushed val⟩
  | delete key =>
    obtain ⟨d, d', deleted, kept, dropped, _⟩ := dictGenericDelete_spec lawful h.sound key
    rw [step, deleted, mapStep, isSome_get h.shows]
    refine ⟨_, rfl, simulates_dropped lawful h kept dropped rfl rfl ?_⟩
    refine (held_dropped kept dropped).trans (List.Perm.of_eq ?_)
    rw [List.map_append]
    cases entryOf t s.dict key <;> rfl
  | unlink key =>
    obtain ⟨d, d', deleted, kept, dropped, _⟩ := dictGenericDelete_spec lawful h.sound key
    rw [step, deleted, mapStep, ← h.shows.get key]
    refine ⟨_, rfl, simulates_dropped lawful h kept dropped rfl (List.nil_append _).symm ?_⟩
    refine (held_dropped kept dropped).trans (List.Perm.of_eq ?_)
    rw [held, List.append_assoc]
    rfl
  | freeUnlinkedEntry addr =>
    obtain ⟨he, mem, same⟩ := List.mem_map.mp legal
    cases found : s.unlinked.find? (·.addr = addr) with
    | none =>
      have off := List.find?_eq_none.mp found he mem
      simp [same] at off
    | some he =>
      have perm : (held s).Perm (he.addr :: held { s with
          unlinked := s.unlinked.eraseP (·.addr = addr), freed := he.addr :: s.freed }) := by
        obtain ⟨front, back, parts, erased⟩ := eraseP_of_find found
        rw [held, held, erased, parts]
        exact ((List.perm_middle.append_right _).map DictEntry.addr)
      rw [step, found]
      refine ⟨_, rfl, h.sound, h.shows, ?_, ?_⟩
      · exact (List.nodup_cons.mp (perm.nodup_iff.mp h.apart)).2
      · exact (h.account.trans (perm.append_left _)).trans List.perm_middle
  | size => exact ⟨s, by rw [step, mapStep, h.shows.size], h⟩
  | rehash n =>
    obtain ⟨d', done, kept, _⟩ := dictRehash_spec lawful h.sound n
    rw [step, done]
    exact ⟨_, rfl, simulates_kept lawful h kept⟩
  | rehashMilliseconds rounds =>
    obtain ⟨d', done, kept⟩ := kept_dictRehashMilliseconds lawful rounds h.sound
    rw [step, done]
    exact ⟨_, rfl, simulates_kept lawful h kept⟩
  | resize => exact ⟨_, rfl, simulates_kept lawful h (kept_dictResize lawful h.sound s.canResize)⟩
  | expand size =>
    exact ⟨_, rfl, simulates_kept lawful h (kept_expandTable lawful h.sound size true)⟩
  | tryExpand size heap =>
    exact ⟨_, rfl, simulates_kept lawful h (kept_expandTable lawful h.sound size heap)⟩
  | empty =>
    rw [step, dictEmpty_frees h.sound]
    refine ⟨_, rfl, sound_dictCreate, ⟨fun k => rfl, rfl⟩, ?_, ?_⟩
    · refine h.apart.sublist ?_
      exact (List.Sublist.append_left (List.nil_sublist _) _).map DictEntry.addr
    · refine h.account.trans ?_
      rw [held, List.map_append, ← List.append_assoc]
      refine List.perm_append_comm.trans ?_
      rw [List.append_assoc, held]
      simp [dictEmpty, entries, dictReset]
  | enableResize => exact ⟨_, rfl, h.sound, h.shows, h.apart, h.account⟩
  | disableResize => exact ⟨_, rfl, h.sound, h.shows, h.apart, h.account⟩
  | pauseRehashing => exact ⟨_, rfl, ⟨h.sound.first, h.sound.second, h.sound.idle, h.sound.moving,
      h.sound.apart, h.sound.addrs⟩, ⟨h.shows.get, h.shows.size⟩, h.apart, h.account⟩
  | resumeRehashing => exact ⟨_, rfl, ⟨h.sound.first, h.sound.second, h.sound.idle, h.sound.moving,
      h.sound.apart, h.sound.addrs⟩, ⟨h.shows.get, h.shows.size⟩, h.apart, h.account⟩

end Steps

section Runs
variable {t : DictType κ υ}

theorem simulates_created : Simulates t (created : State κ υ) Map.empty :=
  ⟨sound_dictCreate, ⟨fun _ => rfl, rfl⟩, List.nodup_nil, List.Perm.nil⟩

theorem answers_simulated (lawful : Lawful t) {acts : List (Act κ υ)} {s : State κ υ} {m : Map κ υ}
    (h : Simulates t s m) (legal : Along (next t) Legal s acts) :
    answers t acts s = some (mapAnswers t acts m) := by
  induction acts generalizing s m with
  | nil => rfl
  | cons act rest ih =>
    obtain ⟨s', stepped, h'⟩ := step_simulates lawful h act legal.1
    have later := ih h' (legal.2 s' (by rw [next, stepped]; rfl))
    rw [answers, stepped, Option.bind_some]
    dsimp only
    rw [later]
    rfl

/-- In every run every call comes back, and with the answer of a finite map. -/
theorem answers_eq_mapAnswers (lawful : Lawful t) {acts : List (Act κ υ)}
    (legal : Along (next t) Legal created acts) :
    answers t acts created = some (mapAnswers t acts Map.empty) :=
  answers_simulated lawful simulates_created legal

theorem simulates_next (lawful : Lawful t) {s s' : State κ υ} {act : Act κ υ}
    (h : ∃ m, Simulates t s m) (legal : Legal s act) (done : next t s act = some s') :
    ∃ m, Simulates t s' m := by
  obtain ⟨m, sim⟩ := h
  obtain ⟨s'', stepped, sim'⟩ := step_simulates lawful sim act legal
  rw [next, stepped] at done
  obtain rfl := Option.some.inj done
  exact ⟨_, sim'⟩

/-- Every state of a run is in order, and holds a map. -/
theorem simulates_always (lawful : Lawful t) {acts : List (Act κ υ)}
    (legal : Along (next t) Legal created acts) :
    Always (next t) (fun s => ∃ m, Simulates t s m) created acts :=
  always_of_along (fun _ _ _ h legal done => simulates_next lawful h legal done)
    ⟨_, simulates_created⟩ legal

/-- In every run each block for an entry is in the dictionary, with the caller, or freed as
often as it was allocated. -/
theorem account_always (lawful : Lawful t) {acts : List (Act κ υ)}
    (legal : Along (next t) Legal created acts) :
    Always (next t) (fun s => (held s).Nodup ∧ s.allocated.Perm (s.freed ++ held s)) created acts :=
  always_mono (fun _ ⟨_, h⟩ => ⟨h.apart, h.account⟩) (simulates_always lawful legal)

end Runs

section Numbers

/-- Numbers under numbers, hashed to themselves. -/
def numberType : DictType Nat Nat := ⟨BitVec.ofNat 64, none, none, none, none⟩

theorem sameKey_number (a b : Nat) : sameKey numberType a b = decide (a = b) := by
  simp [sameKey, dictCompareKeys, numberType]

theorem lawful_number : Lawful numberType where
  eqv := ⟨by simp [sameKey_number], by simp +contextual [sameKey_number],
    by simp +contextual [sameKey_number]⟩
  hash same := by
    rw [sameKey_number, decide_eq_true_eq] at same
    rw [same]
  dup a := (sameKey_number _ a).trans (decide_eq_true rfl)

/-- Five keys, so that the table is grown while it is used. -/
def numberRun : List (Act Nat Nat) :=
  [.add 1 10 ⟨100, 0⟩, .add 5 50 ⟨101, 0⟩, .add 9 90 ⟨102, 0⟩, .add 2 20 ⟨103, 0⟩,
    .add 6 60 ⟨104, 0⟩, .find 9, .replace 5 51 ⟨105, 0⟩, .unlink 1, .freeUnlinkedEntry 100,
    .find 1, .size]

theorem numberRun_legal : Along (next numberType) Legal created numberRun := by
  decide +kernel

theorem numberRun_answers : answers numberType numberRun created = some
    (mapAnswers numberType numberRun Map.empty) :=
  answers_eq_mapAnswers lawful_number numberRun_legal

theorem numberRun_account : Always (next numberType)
    (fun s => (held s).Nodup ∧ s.allocated.Perm (s.freed ++ held s)) created numberRun :=
  account_always lawful_number numberRun_legal

end Numbers

end DictRuns
