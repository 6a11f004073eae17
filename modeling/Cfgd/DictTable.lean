import Cfgd.Buckets
import Mathlib.Algebra.Group.Nat.Defs

/-!
# The hash table of the `dict` addon

Two tables of chained buckets, from the first of which the entries are moved into the second
a few buckets at a time while the table is in use. A function gives `none` where the code
reads outside of a table, follows a null pointer or fails an assertion.
-/

namespace DictTable

/-- `dictEntry`, with the address that `zmalloc` gave it. -/
structure DictEntry (κ υ : Type) where
  addr : Nat
  key : κ
  val : υ
  deriving DecidableEq, Repr

/-- What is put into a dictionary: hashing, copying and comparing are functions of the
caller. `expandAllowed` is told the memory to be taken, and the ratio of the entries to the
buckets by these two. -/
structure DictType (κ υ : Type) where
  hashFunction : κ → BitVec 64
  keyDup : Option (κ → κ)
  valDup : Option (υ → υ)
  keyCompare : Option (κ → κ → Bool)
  expandAllowed : Option (Nat → Nat → Nat → Bool)

/-- One of the two tables; without memory it has no buckets, and the exponent -1. -/
structure Table (κ υ : Type) where
  buckets : List (List (DictEntry κ υ))
  used : Nat
  sizeExp : Option Nat

/-- `dict`; `rehashidx` is the next bucket to be moved, -1 when none is. -/
structure Dict (κ υ : Type) where
  ht0 : Table κ υ
  ht1 : Table κ υ
  rehashidx : Option Nat
  pauserehash : Int16

/-- The memory of a new entry, with what happens to lie where its value will be. -/
structure Block (υ : Type) where
  addr : Nat
  val : υ

def dictHtInitialExp : Nat := 2

def dictHtInitialSize : Nat := 2 ^ dictHtInitialExp

def dictForceResizeRatio : Nat := 5

variable {κ υ : Type}

section Parts

/-- `DICTHT_SIZE` -/
def dicthtSize : Option Nat → Nat
  | none => 0
  | some e => 2 ^ e

/-- `DICTHT_SIZE_MASK` -/
def dicthtSizeMask : Option Nat → Nat
  | none => 0
  | some e => 2 ^ e - 1

/-- The bucket of a hash. -/
def slot (hash : BitVec 64) (exp : Option Nat) : Nat := hash.toNat &&& dicthtSizeMask exp

/-- `_dictReset` -/
def dictReset : Table κ υ := ⟨[], 0, none⟩

/-- `dictCreate` -/
def dictCreate : Dict κ υ := ⟨dictReset, dictReset, none, 0⟩

/-- `dictIsRehashing` -/
def dictIsRehashing (d : Dict κ υ) : Bool := d.rehashidx.isSome

/-- `dictSize` -/
def dictSize (d : Dict κ υ) : Nat := d.ht0.used + d.ht1.used

/-- `dictSlots` -/
def dictSlots (d : Dict κ υ) : Nat := dicthtSize d.ht0.sizeExp + dicthtSize d.ht1.sizeExp

/-- The entries of both tables. -/
def entries (d : Dict κ υ) : List (DictEntry κ υ) := d.ht0.buckets.flatten ++ d.ht1.buckets.flatten

/-- An entry is put in front of the chain of a bucket. -/
def Table.push (ht : Table κ υ) (idx : Nat) (he : DictEntry κ υ) : Option (Table κ υ) :=
  (ht.buckets[idx]?).map fun chain =>
    { ht with buckets := ht.buckets.set idx (he :: chain), used := ht.used + 1 }

variable [DecidableEq κ] (t : DictType κ υ)

/-- `dictCompareKeys` -/
def dictCompareKeys (a b : κ) : Bool :=
  match t.keyCompare with
  | none => a = b
  | some compare => compare a b

/-- The test of the searches: the same pointer, or keys that compare equal. -/
def sameKey (a b : κ) : Bool := a = b || dictCompareKeys t a b

/-- A search along the chain of a bucket. -/
def searchChain (key : κ) (chain : List (DictEntry κ υ)) : Option (DictEntry κ υ) :=
  chain.find? fun he => sameKey t key he.key

omit [DecidableEq κ] in
/-- `dictSetKey` -/
def dictSetKey (key : κ) : κ :=
  match t.keyDup with
  | none => key
  | some dup => dup key

/-- `entry->v.val = val` through the pointer to an entry. -/
def writeVal (addr : Nat) (val : υ) (he : DictEntry κ υ) : DictEntry κ υ :=
  if he.addr = addr then { he with val } else he

def Table.mapEntries (f : DictEntry κ υ → DictEntry κ υ) (ht : Table κ υ) : Table κ υ :=
  { ht with buckets := ht.buckets.map (List.map f) }

omit [DecidableEq κ] in
/-- The value that `dictSetVal` puts into an entry. -/
def copyVal (val : υ) : υ :=
  match t.valDup with
  | none => val
  | some dup => dup val

omit [DecidableEq κ] in
/-- `dictSetVal` -/
def dictSetVal (d : Dict κ υ) (addr : Nat) (val : υ) : Dict κ υ :=
  { d with
    ht0 := d.ht0.mapEntries (writeVal addr (copyVal t val))
    ht1 := d.ht1.mapEntries (writeVal addr (copyVal t val)) }

end Parts

section Expand

/-- The loop of `_dictNextExp`. -/
def nextExpLoop (size : Nat) : (left : Nat) → (e : Nat) → Nat
  | 0, e => e
  | left + 1, e => if size ≤ 2 ^ e then e else nextExpLoop size left (e + 1)

/-- `_dictNextExp` -/
def dictNextExp (size : Nat) : Nat :=
  if 2 ^ 63 - 1 ≤ size then 63 else nextExpLoop size 61 dictHtInitialExp

/-- The outcome of `_dictExpand`. -/
inductive Expanded where
  | ok
  | skipped
  | mallocFailed
  deriving DecidableEq, Repr

/-- `_dictExpand`; `heap` tells whether there is memory for the buckets. -/
def expandTable (d : Dict κ υ) (size : Nat) (heap : Bool) : Dict κ υ × Expanded :=
  if dictIsRehashing d ∨ size < d.ht0.used then (d, .skipped)
  else
    let newExp := dictNextExp size
    let newsize := 2 ^ newExp
    if newsize < size ∨ newsize * 8 % 2 ^ 64 < newsize then (d, .skipped)
    else if d.ht0.sizeExp = some newExp then (d, .skipped)
    else if heap = false then (d, .mallocFailed)
    else
      let new : Table κ υ := ⟨List.replicate newsize [], 0, some newExp⟩
      if d.ht0.buckets = [] then ({ d with ht0 := new }, .ok)
      else ({ d with ht1 := new, rehashidx := some 0 }, .ok)

/-- `dictExpand`; `zcalloc` does not come back without memory. -/
def dictExpand (d : Dict κ υ) (size : Nat) : Dict κ υ × Bool :=
  let (d, outcome) := expandTable d size true
  (d, outcome = .ok)

/-- `dictTryExpand` -/
def dictTryExpand (d : Dict κ υ) (size : Nat) (heap : Bool) : Dict κ υ × Bool :=
  let (d, outcome) := expandTable d size heap
  (d, outcome ≠ .mallocFailed)

/-- `dictResize` -/
def dictResize (canResize : Bool) (d : Dict κ υ) : Dict κ υ × Bool :=
  if canResize = false ∨ dictIsRehashing d then (d, false)
  else dictExpand d (max d.ht0.used dictHtInitialSize)

/-- `dictTypeExpandAllowed` -/
def dictTypeExpandAllowed (t : DictType κ υ) (d : Dict κ υ) : Bool :=
  match t.expandAllowed with
  | none => true
  | some allowed =>
    allowed (2 ^ dictNextExp (d.ht0.used + 1) * 8 % 2 ^ 64) d.ht0.used (dicthtSize d.ht0.sizeExp)

/-- `_dictExpandIfNeeded` -/
def dictExpandIfNeeded (t : DictType κ υ) (canResize : Bool) (d : Dict κ υ) : Dict κ υ × Bool :=
  let size := dicthtSize d.ht0.sizeExp
  if dictIsRehashing d then (d, true)
  else if size = 0 then dictExpand d dictHtInitialSize
  else if size ≤ d.ht0.used ∧ (canResize ∨ dictForceResizeRatio < d.ht0.used / size) ∧
      dictTypeExpandAllowed t d then
    dictExpand d (d.ht0.used + 1)
  else (d, true)

end Expand

section Rehash
variable (t : DictType κ υ)

/-- The loop of `dictRehash` over empty buckets: the bucket it comes to and the visits left,
none if it gave up. -/
def skipEmpty (buckets : List (List (DictEntry κ υ))) :
    (visits : Nat) → (idx : Nat) → Option (Nat × Nat)
  | 0, _ => none
  | visits + 1, idx =>
    match buckets[idx]? with
    | none => none
    | some [] => if visits = 0 then some (idx + 1, 0) else skipEmpty buckets visits (idx + 1)
    | some (_ :: _) => some (idx, visits + 1)

def moveEntry (new : Table κ υ) (de : DictEntry κ υ) : Option (Table κ υ) :=
  new.push (slot (t.hashFunction de.key) new.sizeExp) de

/-- Moves all the keys of a bucket into the new table. -/
def moveChain : (chain : List (DictEntry κ υ)) → Table κ υ → Option (Table κ υ)
  | [], new => some new
  | de :: rest, new => (moveEntry t new de).bind (moveChain rest)

/-- The bucket `idx` of the old table is moved. -/
def moveBucket (d : Dict κ υ) (idx : Nat) : Option (Dict κ υ) :=
  match d.ht0.buckets[idx]? with
  | none => none
  | some chain => (moveChain t chain d.ht1).map fun new =>
    { d with
      ht0 := { d.ht0 with
        buckets := d.ht0.buckets.set idx []
        used := d.ht0.used - chain.length }
      ht1 := new
      rehashidx := some (idx + 1) }

/-- The outer loop of `dictRehash`, and whether it gave up among empty buckets. -/
def rehashLoop : (n : Nat) → (visits : Nat) → Dict κ υ → Option (Dict κ υ × Bool)
  | 0, _, d => some (d, false)
  | n + 1, visits, d =>
    if d.ht0.used = 0 then some (d, false)
    else match d.rehashidx with
      | none => none
      | some idx =>
        if dicthtSize d.ht0.sizeExp ≤ idx then none
        else match skipEmpty d.ht0.buckets visits idx with
          | none => none
          | some (idx, 0) => some ({ d with rehashidx := some idx }, true)
          | some (idx, visits + 1) =>
            (moveBucket t d idx).bind (rehashLoop n (visits + 1))

/-- The old table is empty: the new one takes its place. -/
def takeOver (d : Dict κ υ) : Dict κ υ :=
  { d with ht0 := d.ht1, ht1 := dictReset, rehashidx := none }

/-- `dictRehash`, and whether there is more to move. -/
def dictRehash (d : Dict κ υ) (n : Nat) : Option (Dict κ υ × Bool) :=
  if dictIsRehashing d = false then some (d, false)
  else match rehashLoop t n (n * 10) d with
    | none => none
    | some (d, true) => some (d, true)
    | some (d, false) => some (if d.ht0.used = 0 then (takeOver d, false) else (d, true))

/-- The loop of `dictRehashMilliseconds` as often as the clock lets it go on. -/
def rehashRounds : (rounds : Nat) → Dict κ υ → Option (Dict κ υ)
  | 0, d => (dictRehash t d 100).map Prod.fst
  | rounds + 1, d =>
    match dictRehash t d 100 with
    | none => none
    | some (d, false) => some d
    | some (d, true) => rehashRounds rounds d

/-- `dictRehashMilliseconds` -/
def dictRehashMilliseconds (d : Dict κ υ) (rounds : Nat) : Option (Dict κ υ) :=
  if 0 < d.pauserehash then some d else rehashRounds t rounds d

/-- `_dictRehashStep` -/
def dictRehashStep (d : Dict κ υ) : Option (Dict κ υ) :=
  if d.pauserehash = 0 then (dictRehash t d 1).map Prod.fst else some d

/-- The step that lookups and updates make first. -/
def stepIfRehashing (d : Dict κ υ) : Option (Dict κ υ) :=
  if dictIsRehashing d then dictRehashStep t d else some d

end Rehash

section Api
variable [DecidableEq κ] (t : DictType κ υ) (canResize : Bool)

/-- `dictFind` -/
def dictFind (d : Dict κ υ) (key : κ) : Option (Dict κ υ × Option (DictEntry κ υ)) :=
  if dictSize d = 0 then some (d, none)
  else do
    let d ← stepIfRehashing t d
    let h := t.hashFunction key
    let chain ← d.ht0.buckets[slot h d.ht0.sizeExp]?
    match searchChain t key chain with
    | some he => some (d, some he)
    | none =>
      if dictIsRehashing d = false then some (d, none)
      else do
        let chain ← d.ht1.buckets[slot h d.ht1.sizeExp]?
        some (d, searchChain t key chain)

/-- What `_dictKeyIndex` gives: the bucket for a new entry, or -1, with the entry that is
there already or without. -/
inductive KeyIndex (κ υ : Type) where
  | index (idx : Nat)
  | existing (he : DictEntry κ υ)
  | refused

/-- `_dictKeyIndex` -/
def dictKeyIndex (d : Dict κ υ) (key : κ) (hash : BitVec 64) :
    Option (Dict κ υ × KeyIndex κ υ) :=
  match dictExpandIfNeeded t canResize d with
  | (d, false) => some (d, .refused)
  | (d, true) => do
    let idx := slot hash d.ht0.sizeExp
    let chain ← d.ht0.buckets[idx]?
    match searchChain t key chain with
    | some he => some (d, .existing he)
    | none =>
      if dictIsRehashing d = false then some (d, .index idx)
      else do
        let idx := slot hash d.ht1.sizeExp
        let chain ← d.ht1.buckets[idx]?
        match searchChain t key chain with
        | some he => some (d, .existing he)
        | none => some (d, .index idx)

/-- The entry that `dictAddRaw` gives, or the one that is there already. -/
inductive Added (κ υ : Type) where
  | entry (he : DictEntry κ υ)
  | existing (he : DictEntry κ υ)
  | refused

/-- `dictAddRaw` -/
def dictAddRaw (d : Dict κ υ) (key : κ) (block : Block υ) : Option (Dict κ υ × Added κ υ) := do
  let d ← stepIfRehashing t d
  match ← dictKeyIndex t canResize d key (t.hashFunction key) with
  | (d, .refused) => some (d, .refused)
  | (d, .existing he) => some (d, .existing he)
  | (d, .index idx) =>
    let he := ⟨block.addr, dictSetKey t key, block.val⟩
    if dictIsRehashing d then
      (d.ht1.push idx he).map fun ht1 => ({ d with ht1 }, .entry he)
    else
      (d.ht0.push idx he).map fun ht0 => ({ d with ht0 }, .entry he)

/-- `dictAdd` -/
def dictAdd (d : Dict κ υ) (key : κ) (val : υ) (block : Block υ) : Option (Dict κ υ × Bool) := do
  match ← dictAddRaw t canResize d key block with
  | (d, .entry he) => some (dictSetVal t d he.addr val, true)
  | (d, _) => some (d, false)

/-- `dictReplace`, and whether the key was added; after a refusal it follows a null
pointer. -/
def dictReplace (d : Dict κ υ) (key : κ) (val : υ) (block : Block υ) :
    Option (Dict κ υ × Bool) := do
  match ← dictAddRaw t canResize d key block with
  | (d, .entry he) => some (dictSetVal t d he.addr val, true)
  | (d, .existing he) => some (dictSetVal t d he.addr val, false)
  | (_, .refused) => none

/-- `dictAddOrFind` -/
def dictAddOrFind (d : Dict κ υ) (key : κ) (block : Block υ) :
    Option (Dict κ υ × Option (DictEntry κ υ)) := do
  match ← dictAddRaw t canResize d key block with
  | (d, .entry he) => some (d, some he)
  | (d, .existing he) => some (d, some he)
  | (d, .refused) => some (d, none)

/-- A turn of the loop of `dictGenericDelete` over the tables. -/
def Table.unlink (ht : Table κ υ) (key : κ) :
    Option (Table κ υ × Option (DictEntry κ υ)) := do
  let idx := slot (t.hashFunction key) ht.sizeExp
  let chain ← ht.buckets[idx]?
  match searchChain t key chain with
  | none => some (ht, none)
  | some he =>
    some ({ ht with
      buckets := ht.buckets.set idx (chain.eraseP fun he => sameKey t key he.key)
      used := ht.used - 1 }, some he)

/-- `dictGenericDelete`; the entry that it unlinks is freed by `dictDelete`. -/
def dictGenericDelete (d : Dict κ υ) (key : κ) : Option (Dict κ υ × Option (DictEntry κ υ)) :=
  if dictSize d = 0 then some (d, none)
  else do
    let d ← stepIfRehashing t d
    match ← d.ht0.unlink t key with
    | (ht0, some he) => some ({ d with ht0 }, some he)
    | (_, none) =>
      if dictIsRehashing d = false then some (d, none)
      else do
        let (ht1, he) ← d.ht1.unlink t key
        some ({ d with ht1 }, he)

end Api

section Clear

/-- The loop of `_dictClear`, with the entries in the order in which they are freed. -/
def clearLoop : (buckets : List (List (DictEntry κ υ))) → (used : Nat) → List (DictEntry κ υ)
  | [], _ => []
  | chain :: rest, used =>
    if used = 0 then [] else chain ++ clearLoop rest (used - chain.length)

/-- `dictEmpty` -/
def dictEmpty (d : Dict κ υ) : Dict κ υ × List (DictEntry κ υ) :=
  (⟨dictReset, dictReset, none, 0⟩,
    clearLoop d.ht0.buckets d.ht0.used ++ clearLoop d.ht1.buckets d.ht1.used)

end Clear

end DictTable
