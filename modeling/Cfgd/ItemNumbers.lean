import Cfgd.Catalog
import Cfgd.DeleteDoc
import Cfgd.HeapGrowth
import Cfgd.Transition
import Cfgd.TreeWide

/-!
# The numbers of array items

The place of an item in its array is written down three times: the item stands there in the
list, its name is the number of the place, and the value of an object item is the name of
the array with that number. Loading and appending write all three. Deleting an item moves
those behind it, and renames them, but leaves their values.
-/

namespace ItemNumbers

open AvlTree CText CJson CJson.Item Request ConfigNode Loader FsImage Runtime DocTree DeleteRange
open KeyShape Reach DeleteTargets DeleteDoc SearchSound UpdateCases RegularTree AppendSteps
open HeapEdit HeapGrowth TreeWide
open Catalog Orders Transition

variable {ν : Type}

/-- The text `name[k]`. -/
def itemText (arrayName : Bytes) (k : Nat) : Bytes :=
  arrayName ++ leftBracket :: printInt k ++ [rightBracket]

/-- The three encodings of the places in an array agree. -/
structure Numbered (c : Node) : Prop where
  size : c.info.arraysize = c.array.length
  names : ∀ (k : Nat) item, c.array[k]? = some item → item.info.scopeName = printInt k
  values : ∀ (k : Nat) item, c.array[k]? = some item → item.info.jsl = .arrayItem →
    item.info.scopeValue = itemText c.info.scopeName k

/-- They agree in every array of the tree. -/
def Represented (root : Avl Node) : Prop :=
  ∀ path c, (rootNode root).getAt path = some c → c.info.jsl = .array → Numbered c

section Machine
variable [DoubleText ν]
variable (print : Item ν → Bytes)

/-- A write request with one line of payload. -/
def writeStep (world : World ν) (payload : Bytes) : Option (World ν) :=
  match rtCreateJrp payload with
  | none => some world
  | some jrp => (proVariableWrite print world jrp).map Answered.world

/-- The array and the place of the item that a request deletes. -/
def deletedItem (root : Avl Node) (jrp : Jrp) : Option (Node × Nat) :=
  if jrp.valuestring ≠ some keywordDeleted then none
  else (rtReachLastMatchScope root jrp.segm).bind fun reached => reached.last.bind fun here =>
    match (rootNode root).getAt here, reached.segm.getLast? with
    | some c, some segm =>
      if c.info.jsl = .array then (placeOf c.info.arraysize segm.index).map fun k => (c, k)
      else none
    | _, _ => none

/-- The request deletes no item that an object item stands behind. -/
def LeavesObjects (world : World ν) (payload : Bytes) : Prop :=
  ∀ jrp ∈ rtCreateJrp payload, ∀ target ∈ deletedItem world.root jrp,
    ∀ item ∈ target.1.array.drop (target.2 + 1), item.info.jsl ≠ .arrayItem

instance (world : World ν) (payload : Bytes) : Decidable (LeavesObjects world payload) :=
  inferInstanceAs (Decidable (∀ jrp ∈ rtCreateJrp payload, _))

end Machine

section Texts

theorem atoi_printNat {k : Nat} (small : k < 2 ^ 31) : atoi (printInt k) = k := by
  have digits : printInt k = ofChars (Nat.toDigits 10 k) := by
    rw [printInt, if_neg (by omega)]
    rfl
  have value := digitsValue_toDigits k
  rw [digitsValue] at value
  rw [atoi, digits, value]
  have same : (BitVec.ofNat 32 (min k (2 ^ 63 - 1))).toNat = k := by
    rw [BitVec.toNat_ofNat]
    omega
  rw [BitVec.toInt_eq_toNat_of_lt (by omega), same]

/-- The buffer of the value has room for the name of an array and a number. -/
theorem itemValue_eq {arrayName : Bytes} (short : arrayName.length < maxPreSegSize) {k : Nat}
    (small : (k : Int) < jaSymLast) : itemValue arrayName k = itemText arrayName k := by
  have last : jaSymLast < 2 ^ 63 := by decide
  have digits := length_printInt (n := (k : Int)) (by omega) (by omega)
  rw [itemValue, itemText, List.take_of_length_le]
  simp only [maxPreSegSize] at short
  simp only [List.length_append, List.length_cons, List.length_nil, maxValueSize]
  omega

end Texts

section Tally

/-- The item is an object in memory, as long as it is in memory at all. -/
def HoldsObject (heap : Heap ν) (item : NodeInfo) : Prop :=
  ∃ a, item.jsonptr = some a ∧ a < heap.nextAddr ∧
    ∀ x ∈ heap.roots.flatMap items, x.addr = a → x.kind = .cjsonObject

/-- What an array and its items keep to. -/
structure Tallied (heap : Heap ν) (array : NodeInfo) (items : List NodeInfo) : Prop where
  size : array.arraysize = items.length
  short : array.scopeName.length < maxPreSegSize
  room : (items.length : Int) < jaSymLast
  names : ∀ (k : Nat) item, items[k]? = some item → item.scopeName = printInt k
  values : ∀ (k : Nat) item, items[k]? = some item → item.jsl = .arrayItem →
    item.scopeValue = itemText array.scopeName k
  objects : ∀ item ∈ items, item.jsl = .arrayItem → HoldsObject heap item
  apart : (items.map NodeInfo.ident).Nodup
  older : ∀ item ∈ items, item.ident < heap.nextAddr

/-- Every array of a tree is tallied. -/
def tally (heap : Heap ν) : Law := fun _ info items => info.jsl = .array → Tallied heap info items

theorem HoldsObject.extends {heap heap' : Heap ν} {item : NodeInfo} (h : HoldsObject heap item)
    (later : Extends heap heap') : HoldsObject heap' item := by
  obtain ⟨a, ptr, old, object⟩ := h
  refine ⟨a, ptr, Nat.lt_of_lt_of_le old later.next, ?_⟩
  intro x mem addr
  rcases later.items x mem with ⟨y, inside, addr', kind⟩ | ⟨new, _⟩
  · rw [← kind]
    exact object y inside (addr'.trans addr)
  · rw [addr] at new
    exact absurd old (Nat.not_lt.mpr new)

variable {heap heap' : Heap ν} {array item : NodeInfo} {before after list : List NodeInfo}

theorem Tallied.extends (h : Tallied heap array list) (later : Extends heap heap') :
    Tallied heap' array list where
  size := h.size
  short := h.short
  room := h.room
  names := h.names
  values := h.values
  objects i mem level := (h.objects i mem level).extends later
  apart := h.apart
  older i mem := Nat.lt_of_lt_of_le (h.older i mem) later.next

theorem Everywhere.extends {above : List Bytes} {n : Node} (h : Everywhere (tally heap) above n)
    (later : Extends heap heap') : Everywhere (tally heap') above n :=
  Everywhere.mono (fun _ _ _ tallied isArray => (tallied isArray).extends later) h

/-- A new item is an object when it was made as one. -/
theorem holdsObject_of_adds (bounded : Bounded heap) (adds : Adds heap .cjsonObject heap')
    (ptr : item.jsonptr = some heap.nextAddr) : HoldsObject heap' item := by
  refine ⟨heap.nextAddr, ptr, by rw [adds.next]; exact Nat.lt_succ_self _, ?_⟩
  intro x mem addr
  rcases adds.items x mem with ⟨y, inside, addr', _⟩ | ⟨_, kind⟩
  · have old := bounded y inside
    rw [addr', addr] at old
    exact absurd old (Nat.lt_irrefl _)
  · exact kind

/-- One item more, at the end. -/
theorem tallied_append (h : Tallied heap array list) (later : Extends heap heap')
    (small : array.arraysize < maxArySize) (name : item.scopeName = printInt array.arraysize)
    (value : item.jsl = .arrayItem → item.scopeValue = itemValue array.scopeName array.arraysize)
    (object : item.jsl = .arrayItem → HoldsObject heap' item)
    (ident : item.ident = heap.nextAddr) (newer : heap.nextAddr < heap'.nextAddr) :
    Tallied heap' { array with arraysize := array.arraysize + 1 } (list ++ [item]) := by
  have size := h.size
  have bound : maxArySize < jaSymLast := by decide
  have parts : ∀ {i : NodeInfo}, i ∈ list ++ [item] → i ∈ list ∨ i = item := by
    intro i mem
    simpa using mem
  have places : ∀ {k : Nat} {i : NodeInfo}, (list ++ [item])[k]? = some i →
      list[k]? = some i ∨ k = list.length ∧ i = item := by
    intro k i found
    rw [List.getElem?_append] at found
    split at found
    · exact Or.inl found
    · rw [List.getElem?_singleton] at found
      split at found
      · exact Or.inr ⟨by omega, (Option.some.inj found).symm⟩
      · cases found
  constructor
  · rw [List.length_append, size]
    rfl
  · exact h.short
  · rw [List.length_append, List.length_singleton]
    omega
  · intro k i found
    rcases places found with old | ⟨rfl, rfl⟩
    · exact h.names k i old
    · rw [name, size]
  · intro k i found level
    rcases places found with old | ⟨rfl, rfl⟩
    · exact h.values k i old level
    · rw [value level, size]
      exact itemValue_eq h.short (by omega)
  · intro i mem level
    rcases parts mem with old | rfl
    · exact (h.objects i old level).extends later
    · exact object level
  · rw [List.map_append, List.map_singleton]
    refine List.nodup_append'.mpr ⟨h.apart, List.nodup_singleton _, ?_⟩
    intro a inside here
    obtain ⟨i, mem, rfl⟩ := List.mem_map.mp inside
    have old := h.older i mem
    rw [List.mem_singleton.mp here, ident] at old
    exact absurd old (Nat.lt_irrefl _)
  · intro i mem
    rcases parts mem with old | rfl
    · exact Nat.lt_of_lt_of_le (h.older i old) later.next
    · rw [ident]
      exact newer

/-- The members of an item that has moved down by one. -/
def lowered (item : NodeInfo) : NodeInfo :=
  { item with scopeName := printInt (atoi item.scopeName - 1) }

theorem decreaseIndex_info (n : Node) : (decreaseIndex n).info = lowered n.info := by
  rw [decreaseIndex, Node.info_setInfo]
  rfl

/-- One item less, with no object behind it. -/
theorem tallied_drop (h : Tallied heap array (before ++ item :: after))
    (plain : ∀ i ∈ after, i.jsl ≠ .arrayItem) :
    Tallied heap { array with arraysize := array.arraysize - 1 } (before ++ after.map lowered) := by
  have size := h.size
  have room := h.room
  have last : jaSymLast < 2 ^ 31 := by decide
  rw [List.length_append, List.length_cons] at size room
  -- what stands at a place stood there before, or one place further on
  have places : ∀ {k : Nat} {i : NodeInfo}, (before ++ after.map lowered)[k]? = some i →
      (before ++ item :: after)[k]? = some i ∨ ∃ j ∈ after,
        (before ++ item :: after)[k + 1]? = some j ∧ i = lowered j := by
    intro k i found
    rw [List.getElem?_append] at found
    split at found
    · rename_i inside
      rw [List.getElem?_append_left inside]
      exact Or.inl found
    · rename_i outside
      rw [List.getElem?_map, Option.map_eq_some_iff] at found
      obtain ⟨j, there, rfl⟩ := found
      refine Or.inr ⟨j, List.mem_of_getElem? there, ?_, rfl⟩
      have next : k + 1 - before.length = (k - before.length) + 1 := by omega
      rw [List.getElem?_append_right (by omega), next, List.getElem?_cons_succ]
      exact there
  have parts : ∀ {i : NodeInfo}, i ∈ before ++ after.map lowered →
      i ∈ before ++ item :: after ∨ ∃ j ∈ after, i = lowered j := by
    intro i mem
    rcases List.mem_append.mp mem with old | renamed
    · exact Or.inl (List.mem_append_left _ old)
    · obtain ⟨j, there, rfl⟩ := List.mem_map.mp renamed
      exact Or.inr ⟨j, there, rfl⟩
  have idents : (before ++ after.map lowered).map NodeInfo.ident =
      (before ++ after).map NodeInfo.ident := by
    simp [lowered, Function.comp_def]
  have fewer : (before ++ after).Sublist (before ++ item :: after) :=
    (List.sublist_cons_self item after).append_left before
  constructor
  · rw [List.length_append, List.length_map]
    change array.arraysize - 1 = _
    omega
  · exact h.short
  · rw [List.length_append, List.length_map]
    omega
  · intro k i found
    rcases places found with old | ⟨j, _, old, rfl⟩
    · exact h.names k i old
    · have inside : k + 1 < (before ++ item :: after).length := by
        by_contra outside
        rw [List.getElem?_eq_none (by omega)] at old
        cases old
      rw [List.length_append, List.length_cons] at inside
      rw [lowered, h.names (k + 1) j old, atoi_printNat (by omega)]
      exact congrArg printInt (by omega)
  · intro k i found level
    rcases places found with old | ⟨j, there, _, rfl⟩
    · exact h.values k i old level
    · exact absurd level (plain j there)
  · intro i mem level
    rcases parts mem with old | ⟨j, there, rfl⟩
    · exact h.objects i old level
    · exact absurd level (plain j there)
  · rw [idents]
    exact h.apart.sublist (fewer.map _)
  · intro i mem
    rcases parts mem with old | ⟨j, there, rfl⟩
    · exact h.older i old
    · exact h.older j (List.mem_append_right _ (List.mem_cons_of_mem _ there))

/-- Another value for an item that is no object. -/
theorem tallied_set (h : Tallied heap array list) {k : Nat} {change : NodeInfo → NodeInfo}
    (found : list[k]? = some item) (plain : item.jsl ≠ .arrayItem)
    (name : (change item).scopeName = item.scopeName) (jsl : (change item).jsl = item.jsl)
    (ident : (change item).ident = item.ident) : Tallied heap array (list.modify k change) := by
  have places : ∀ {j : Nat} {i : NodeInfo}, (list.modify k change)[j]? = some i →
      list[j]? = some i ∨ list[j]? = some item ∧ i = change item := by
    intro j i there
    rw [List.getElem?_modify] at there
    obtain ⟨i', old, rfl⟩ := Option.map_eq_some_iff.mp there
    split
    · rename_i here
      subst here
      obtain rfl := Option.some.inj (found.symm.trans old)
      exact Or.inr ⟨found, rfl⟩
    · exact Or.inl old
  have parts : ∀ {i : NodeInfo}, i ∈ list.modify k change → i ∈ list ∨ i = change item := by
    intro i mem
    obtain ⟨j, there⟩ := List.getElem?_of_mem mem
    rcases places there with old | ⟨_, same⟩
    · exact Or.inl (List.mem_of_getElem? old)
    · exact Or.inr same
  have idents : (list.modify k change).map NodeInfo.ident = list.map NodeInfo.ident := by
    apply List.ext_getElem?
    intro j
    simp only [List.getElem?_map, List.getElem?_modify]
    by_cases here : k = j
    · subst here
      simp [found, ident]
    · simp [here]
  constructor
  · rw [List.length_modify]
    exact h.size
  · exact h.short
  · rw [List.length_modify]
    exact h.room
  · intro j i there
    rcases places there with old | ⟨old, rfl⟩
    · exact h.names j i old
    · rw [name]
      exact h.names j item old
  · intro j i there level
    rcases places there with old | ⟨_, rfl⟩
    · exact h.values j i old level
    · exact absurd (jsl ▸ level) plain
  · intro i mem level
    rcases parts mem with old | rfl
    · exact h.objects i old level
    · exact absurd (jsl ▸ level) plain
  · rw [idents]
    exact h.apart
  · intro i mem
    rcases parts mem with old | rfl
    · exact h.older i old
    · rw [ident]
      exact h.older item (List.mem_of_getElem? found)

/-- An array without items. -/
theorem tallied_nil (size : array.arraysize = 0) (short : array.scopeName.length < maxPreSegSize) :
    Tallied heap array [] := by
  constructor
  · exact size
  · exact short
  · decide
  · exact fun k item found => nomatch found
  · exact fun k item found => nomatch found
  · exact fun item mem => nomatch mem
  · exact List.nodup_nil
  · exact fun item mem => nomatch mem

end Tally

section Appending
variable {above : List Bytes} {store : Store ν} {node : Node}

theorem everywhere_leaf' {n : Node} {heap : Heap ν} (tree : n.nextScope = .nil)
    (array : n.array = []) (level : n.info.jsl ≠ .array) : Everywhere (tally heap) above n :=
  everywhere_leaf tree array fun isArray => absurd isArray level

/-- Appending keeps to the tally, and to what is in memory. -/
structure AppendKeeps (above : List Bytes) (store : Store ν) (after : Appended ν) : Prop where
  grows : Extends store.heap after.store.heap
  tallied : Everywhere (tally after.store.heap) above after.node

/-- A member whose node was made last, with what was appended below it. -/
theorem appendKeeps_insert {store' : Store ν} {below : Appended ν} {archive : Option Path}
    (h : Everywhere (tally store.heap) above node) (ordered : Ordered Node.scopeKey node.nextScope)
    (made : Extends store.heap store'.heap)
    (kept : AppendKeeps (above ++ [below.node.scopeKey]) store' below) :
    AppendKeeps above store
      { below with node := insertScope node below.node, archive := archive } := by
  have grows := made.trans kept.grows
  exact ⟨grows, everywhere_insertScope (Everywhere.extends h grows) ordered kept.tallied⟩

/-- An item at the end of an array. -/
theorem appendKeeps_item {store' : Store ν} {below : Appended ν} {kind : Kind ν} {value : Bytes}
    {level : Jsl} (h : Everywhere (tally store.heap) above node) (isArray : node.info.jsl = .array)
    (small : node.info.arraysize < maxArySize)
    (adds : Adds store.heap kind store'.heap) (kept : AppendKeeps above store' below)
    (info : below.node.info = (newNode (cjsonCreate store.heap kind).2 node
      (printInt node.info.arraysize) value level).info)
    (text : level = .arrayItem → value = itemValue node.info.scopeName node.info.arraysize)
    (object : level = .arrayItem → kind = .cjsonObject) (bounded : Bounded store.heap) :
    Everywhere (tally below.store.heap) above (addItem node below.node) := by
  have grows := adds.extends.trans kept.grows
  have later := Everywhere.extends h grows
  refine everywhere_withItems later (by simp [addItem]) ?_ ?_
  · intro _
    have before := h.here isArray
    have items : (addItem node below.node).array.map Node.info =
        node.array.map Node.info ++ [below.node.info] := by simp [addItem]
    have members : (addItem node below.node).info =
        { node.info with arraysize := node.info.arraysize + 1 } := by simp [addItem]
    rw [items, members]
    refine tallied_append before grows small (by rw [info]; rfl) ?_ ?_ (by rw [info]; rfl) ?_
    · rw [info]
      exact text
    · intro isItem
      rw [info] at isItem
      have made := object isItem
      subst made
      refine HoldsObject.extends (holdsObject_of_adds bounded adds ?_) kept.grows
      rw [info]
      rfl
    · have more := kept.grows.next
      rw [adds.next] at more
      exact more
  · intro c mem
    have cases : c ∈ node.array ∨ c = below.node := by simpa [addItem] using mem
    rcases cases with old | rfl
    · exact later.item old
    · exact kept.tallied

theorem appendKeeps (v : Bytes) (segms : List Segment) (names : ∀ segm ∈ segms, NameFits segm.name)
    (ordered : Ordered Node.scopeKey node.nextScope) (bounded : Bounded store.heap)
    (h : Everywhere (tally store.heap) above node) :
    AppendKeeps above store (rtAppend v store node segms) := by
  induction segms generalizing above store node with
  | nil => exact ⟨Extends.refl _, h⟩
  | cons segm rest ih =>
    have unchanged : AppendKeeps above store ⟨store, node, 0, none⟩ := ⟨Extends.refl _, h⟩
    have names' := fun s mem => names s (List.mem_cons_of_mem _ mem)
    have short := (names segm List.mem_cons_self).2
    have empty : Ordered Node.scopeKey (.nil : Avl Node) := ordered_nil _
    -- an array that takes the segment, be it new or not
    have extended : ∀ {above : List Bytes} {store : Store ν} {array : Node},
        Bounded store.heap → Everywhere (tally store.heap) above array →
        array.info.jsl = .array → array.info.arraysize < maxArySize →
        AppendKeeps above store (addTo v store array rest) := by
      intro above store array bounded tallied isArray small
      rw [addTo]
      split
      · have adds := adds_cjsonAddItemToArray store.heap (.cjsonString v) array.info.jsonptr
        have kept : AppendKeeps above (rtAllocateArrayField store array v).1
            ⟨(rtAllocateArrayField store array v).1, (rtAllocateArrayField store array v).2, 0,
              none⟩ := ⟨Extends.refl _, everywhere_leaf' rfl rfl (by rintro ⟨⟩)⟩
        exact ⟨adds.extends,
          appendKeeps_item tallied isArray small adds kept rfl (by simp) (by simp) bounded⟩
      · have adds := adds_cjsonAddItemToArray store.heap (.cjsonObject) array.info.jsonptr
        have kept : AppendKeeps above (rtAllocateArrayItem store array).1
            (rtAppend v (rtAllocateArrayItem store array).1 (rtAllocateArrayItem store array).2
              rest) :=
          ih names' empty (adds.extends.bounded bounded) (everywhere_leaf' rfl rfl (by rintro ⟨⟩))
        refine ⟨adds.extends.trans kept.grows, ?_⟩
        exact appendKeeps_item tallied isArray small adds kept
          ((rtAppend_kept ..).2.2 (by rintro ⟨⟩)) (fun _ => rfl) (fun _ => rfl) bounded
    rcases segm with ⟨name, index, level⟩
    cases level with
    | dir => exact unchanged
    | arrayItem => exact unchanged
    | arrayItemAsField => exact unchanged
    | field =>
      have adds := adds_cjsonAddItemToObject store.heap (.cjsonString v) node.info.jsonptr name
      rw [rtAppend_field]
      refine ⟨adds.extends, ?_⟩
      exact everywhere_insertScope (Everywhere.extends h adds.extends) ordered
        (everywhere_leaf' rfl rfl (by rintro ⟨⟩))
    | logicScope =>
      have adds := adds_cjsonAddItemToObject store.heap .cjsonObject node.info.jsonptr name
      have kept : AppendKeeps (above ++ [(rtAllocateLogicScope store node name).2.scopeKey])
          (rtAllocateLogicScope store node name).1
          (rtAppend v (rtAllocateLogicScope store node name).1
            (rtAllocateLogicScope store node name).2 rest) :=
        ih names' empty (adds.extends.bounded bounded)
          (everywhere_leaf' rfl rfl (by rintro ⟨⟩))
      rw [rtAppend_scope]
      rw [← scopeKey_rtAppend v (rtAllocateLogicScope store node name).1 _ rest] at kept
      exact appendKeeps_insert h ordered adds.extends kept
    | archive =>
      rw [rtAppend_archive]
      split
      · exact ⟨Extends.refl _, h⟩
      · split
        · exact ⟨Extends.refl _, h⟩
        · rename_i fs fsSection _ _ archive made
          have leaf : archive.nextScope = .nil ∧ archive.array = [] ∧
              archive.info.jsl = .archive := by
            rw [archiveNode] at made
            split at made
            · cases made
            · obtain rfl := Option.some.inj made
              exact ⟨rfl, rfl, rfl⟩
          obtain ⟨tree, array, isArchive⟩ := leaf
          have adds : Adds store.heap .cjsonObject ((cjsonCreate store.heap .cjsonObject).1.addRoot
              (cjsonCreate store.heap .cjsonObject).2) := adds_root _ _ rfl rfl rfl
          have other : archive.info.jsl ≠ .array := by
            rw [isArchive]
            simp
          have made' : Extends store.heap
              (Store.heap ⟨(cjsonCreate store.heap .cjsonObject).1.addRoot
                (cjsonCreate store.heap .cjsonObject).2, fs, store.freed,
                store.deletedCheckpoints⟩) := adds.extends
          rw [makeArchive]
          refine appendKeeps_insert h ordered made' ?_
          rw [scopeKey_rtAppend]
          refine ih names' ?_ (adds.extends.bounded bounded) (everywhere_leaf' ?_ ?_ ?_)
          · rw [Node.nextScope_setInfo, tree]
            exact empty
          · simpa using tree
          · simpa using array
          · simpa using other
    | array =>
      rw [rtAppend_array]
      split
      · rename_i fits
        have small := (appendable_iff.mp fits).2.2
        split
        · rename_i isArray
          exact extended bounded h isArray small
        · rw [makeArray]
          have adds := adds_cjsonAddItemToObject store.heap .cjsonArray node.info.jsonptr name
          have fresh : ∀ above, Everywhere (tally (rtAllocateArray store node name).1.heap) above
              (rtAllocateArray store node name).2 :=
            fun above => everywhere_leaf rfl rfl fun _ => tallied_nil rfl short
          split
          · rename_i fits'
            have kept : AppendKeeps (above ++ [(rtAllocateArray store node name).2.scopeKey])
                (rtAllocateArray store node name).1 (addTo v (rtAllocateArray store node name).1
                  (rtAllocateArray store node name).2 rest) :=
              extended (adds.extends.bounded bounded) (fresh _) rfl (appendable_iff.mp fits').2.2
            rw [← scopeKey_addTo v (rtAllocateArray store node name).1 _ rest] at kept
            exact appendKeeps_insert h ordered adds.extends kept
          · refine ⟨adds.extends, ?_⟩
            exact everywhere_insertScope (Everywhere.extends h adds.extends) ordered (fresh _)
      · exact ⟨Extends.refl _, h⟩

end Appending

/-- The state of a server that keeps the numbers of its items. -/
structure Kept (world : World ν) : Prop where
  regular : Regular 0 (rootNode world.root)
  bounded : Bounded world.store.heap
  tallied : Everywhere (tally world.store.heap) [] (rootNode world.root)

theorem Kept.represented {world : World ν} (h : Kept world) : Represented world.root := by
  intro path c there isArray
  have tallied := h.tallied path c there isArray
  constructor
  · simpa using tallied.size
  · intro k item found
    exact tallied.names k item.info (by rw [List.getElem?_map, found]; rfl)
  · intro k item found level
    exact tallied.values k item.info (by rw [List.getElem?_map, found]; rfl) level

section Deleting
variable {above : List Bytes} {depth : Nat} {store : Store ν} {n c e : Node} {segm : Segment}

/-- An array once an item with no object behind it is gone. -/
theorem everywhere_dropItem {heap : Heap ν} (h : Everywhere (tally heap) above c)
    (isArray : c.info.jsl = .array) (elements : ∀ e ∈ c.array, e.info.jsl ≠ .array) {k : Nat}
    (found : c.array[k]? = some e)
    (plain : ∀ item ∈ c.array.drop (k + 1), item.info.jsl ≠ .arrayItem) :
    Everywhere (tally heap) above (dropItem c e) := by
  have tallied := h.here isArray
  obtain ⟨inside, there⟩ := List.getElem?_eq_some_iff.mp found
  have split : c.array = c.array.take k ++ e :: c.array.drop (k + 1) := by
    rw [← there, List.getElem_cons_drop, List.take_append_drop]
  have infos : c.array.map Node.info = (c.array.take k).map Node.info ++
      e.info :: (c.array.drop (k + 1)).map Node.info := by
    conv_lhs => rw [split]
    rw [List.map_append, List.map_cons]
  have apart : ∀ b ∈ c.array.take k, b.info.ident ≠ e.info.ident := by
    intro b mem same
    have nodup := tallied.apart
    rw [infos, List.map_append, List.nodup_append'] at nodup
    refine nodup.2.2 (List.mem_map_of_mem (List.mem_map_of_mem mem)) ?_
    rw [same]
    exact List.mem_cons_self
  have dropped := dropItem_split split apart
  have renamed : (dropItem c e).array.map Node.info = (c.array.take k).map Node.info ++
      ((c.array.drop (k + 1)).map Node.info).map lowered := by
    rw [dropped, List.map_append, List.map_map, List.map_map]
    simp [Function.comp_def, decreaseIndex_info]
  refine everywhere_withItems h (by simp [dropItem]) ?_ ?_
  · intro _
    rw [infos] at tallied
    have info : (dropItem c e).info =
        { c.info with arraysize := c.info.arraysize - 1 } := by simp [dropItem]
    rw [renamed, info]
    refine tallied_drop tallied ?_
    intro i mem
    obtain ⟨item, behind, rfl⟩ := List.mem_map.mp mem
    exact plain item behind
  · intro d mem
    rw [dropped] at mem
    rcases List.mem_append.mp mem with before | after
    · exact h.item (List.mem_of_mem_take before)
    · obtain ⟨item, behind, rfl⟩ := List.mem_map.mp after
      have inside := List.mem_of_mem_drop behind
      refine everywhere_setInfo (h.item inside) fun isArray' => ?_
      exact absurd isArray' (elements item inside)

/-- The parent of what `rt_delete` was called for. -/
theorem everywhere_rtDelete (regular : Regular depth n) (h : Everywhere (tally store.heap) above n)
    (found : n.follow (.scope (fold segm.name)) = some c) (target : Named c segm) {fuel : Nat}
    {deleted : Deleted ν} (call : rtDelete fuel store c n segm = some deleted)
    (plain : ∀ k, c.info.jsl = .array → placeOf c.info.arraysize segm.index = some k →
      ∀ item ∈ c.array.drop (k + 1), item.info.jsl ≠ .arrayItem) :
    Everywhere (tally deleted.store.heap) above deleted.parentnode := by
  have grows := extends_rtDelete call
  have later := Everywhere.extends h grows
  have regularC := regular.follow found
  have level := regular.here.level c (mem_of_avlsearch Node.scopeKey found)
  have below := later.follow found
  have gone : ∀ {c' : Node}, Same c c' →
      Everywhere (tally deleted.store.heap) above (parentAfter c' n) := by
    intro c' same
    rw [(parentAfter_congr same n).1, parentAfter, if_neg level]
    exact everywhere_removeScope later regular.here.ordered _
  by_cases ok : 0 ≤ deleted.retval
  · have room : c.info.arraysize < jaSymLast := by
      by_cases isArray : c.info.jsl = .array
      · have tallied := below.here isArray
        rw [tallied.size]
        exact tallied.room
      · rw [regularC.here.size, regularC.here.noItems isArray]
        decide
    cases rtDelete_done target room call ok with
    | scope _ _ _ call' _ above' =>
      have done := (rtDeleteRange_unlinks true fuel _ _ _ _ _ _ call').above
      rw [above', done]
      exact gone (same_refl c)
    | entire _ _ drained call' _ above' =>
      have done := (rtDeleteRange_unlinks true fuel _ _ _ _ _ _ call').above
      rw [above', done]
      exact gone (deleteAllItems_same drained)
    | @item k e r isArray place entered call' _ above' =>
      have done := (rtDeleteRange_unlinks true fuel _ _ _ _ _ _ call').above
      have same := same_parentAfter e c
      have key := key_of_avlsearch Node.scopeKey found
      have keys : (parentAfter e c).scopeKey = fold segm.name := (scopeKey_of_same same).trans key
      have there : n.getAt [.scope (fold segm.name)] = some c := by
        rw [Node.getAt, found]
        rfl
      rw [above', done, keys]
      refine everywhere_modifyAt later there ?_ (scopeKey_of_same same) ?_
      · rw [parentAfter]
        split
        · exact everywhere_dropItem below isArray regularC.here.elements entered
            (plain k isArray place)
        · exact everywhere_removeScope below regularC.here.ordered _
      · intro before j last
        cases before with
        | nil => cases last
        | cons s rest => simp at last
  · obtain ⟨store', parent⟩ := rtDelete_negative call (by omega)
    rw [parent]
    exact later

end Deleting

section Updating
variable {world : World ν} {jrp : Jrp} {u : Updated ν}

/-- From one world to the next. -/
structure Passes (world world' : World ν) : Prop where
  grows : Extends world.store.heap world'.store.heap
  tallied : Everywhere (tally world'.store.heap) [] (rootNode world'.root)

theorem passes_refl (kept : Kept world) : Passes world world := ⟨Extends.refl _, kept.tallied⟩

/-- A write to the tree. -/
theorem passes_write (kept : Kept world) {path : Path} {m m' : Node} {store : Store ν}
    (there : (rootNode world.root).getAt path = some m) (written : Regular path.length m')
    (grows : Extends world.store.heap store.heap)
    (tallied : Everywhere (tally store.heap) (scopeKeys path) m')
    (info : m'.info = m.info ∧ m'.array = m.array ∨
      path ≠ [] ∧ m'.scopeKey = m.scopeKey ∧ m'.info.jsl = m.info.jsl)
    (still : ∀ before k, path = before ++ [.item k] → m'.info = m.info) :
    Passes world (world.modifyAt (fun _ => m') path store) := by
  have same := (regular_world kept.regular there written info store).1
  have key : m'.scopeKey = m.scopeKey := by
    rcases info with ⟨members, _⟩ | ⟨_, key, _⟩
    · rw [Node.scopeKey, members, Node.scopeKey]
    · exact key
  refine ⟨grows, ?_⟩
  rw [same]
  exact @everywhere_modifyAt _ _ _ _ _ (fun _ => m') (Everywhere.extends kept.tallied grows) there
    tallied key still

theorem notItem_scope {path before : Path} {key : Bytes} {k : Nat} :
    path ++ [Step.scope key] ≠ before ++ [.item k] := by
  intro same
  have last := congrArg List.getLast? same
  simp at last

variable [DoubleText ν]

/-- A deletion that moves no object. -/
theorem passes_delete (kept : Kept world) (accepted : AcceptedKey jrp.segm)
    (value : jrp.valuestring = some keywordDeleted)
    (plain : ∀ target ∈ deletedItem world.root jrp, ∀ item ∈ target.1.array.drop (target.2 + 1),
      item.info.jsl ≠ .arrayItem)
    (done : rtConfigUpdate world jrp = some u) : Passes world u.world := by
  rw [rtConfigUpdate, value] at done
  dsimp only at done
  split at done
  · obtain rfl := Option.some.inj done
    exact passes_refl kept
  split at done
  · obtain rfl := Option.some.inj done
    exact passes_refl kept
  rename_i reached hreach
  split at done
  · rename_i _ _ here last
    obtain ⟨path, passed, n, c, segm, walk, found, rfl, final, target⟩ :=
      found_at kept.regular.built accepted hreach last
    have there := getAt_of_walks walk
    have place := getAt_member walk found
    have above : (path ++ [Step.scope (fold segm.name)]).dropLast = path := by simp
    rw [updateFound, place, above, there, final] at done
    simp only [if_true] at done
    obtain ⟨deleted, call, rfl⟩ := Option.map_eq_some_iff.mp done
    have same : rtDelete c.idents.length world.store c n segm = some deleted := call
    have behind : ∀ k, c.info.jsl = .array → placeOf c.info.arraysize segm.index = some k →
        ∀ item ∈ c.array.drop (k + 1), item.info.jsl ≠ .arrayItem := by
      intro k isArray index
      refine plain (c, k) ?_
      simp [deletedItem, value, hreach, last, place, final, isArray, index]
    have regular := regular_at kept.regular there
    have tallied := kept.tallied.getAt there
    have level := regular.here.level c (mem_of_avlsearch Node.scopeKey found)
    obtain ⟨after, info, array⟩ := regular_reduced regular found (rtDelete_reduced level call)
    have parent := everywhere_rtDelete regular tallied found target same behind
    have grows := extends_rtDelete same
    split
    · exact passes_write kept there after grows parent (Or.inl ⟨info, array⟩) fun _ _ _ => info
    · exact passes_write kept there after grows parent (Or.inl ⟨info, array⟩) fun _ _ _ => info
  · obtain rfl := Option.some.inj done
    rw [updateMissing]
    split
    · exact passes_refl kept
    · simp only [if_true]
      split
      · exact passes_refl kept
      · split
        · exact passes_refl kept
        · exact passes_refl kept
  · obtain rfl := Option.some.inj done
    exact passes_refl kept

/-- A new value for an item: the item is a string or a number in memory, and no object. -/
theorem tallied_itemUpdate {above : List Bytes} {store : Store ν} {c : Node} {index : Int}
    {k : Nat} {e : Node} {v : Bytes} (h : Everywhere (tally store.heap) above c)
    (isArray : c.info.jsl = .array) (notArray : e.info.jsl ≠ .array)
    (place : placeOf c.info.arraysize index = some k) (entered : c.follow (.item k) = some e) :
    Extends store.heap (rtArrayFieldUpdate store c index v).1.heap ∧
      Everywhere (tally (rtArrayFieldUpdate store c index v).1.heap) above
        (rtArrayFieldUpdate store c index v).2.1 := by
  rcases rtArrayFieldUpdate_cases store v place entered isArray with ⟨same, node, _⟩ |
    ⟨array, heap, item, _, made, same⟩
  · rw [same, node]
    exact ⟨Extends.refl _, h⟩
  · have tallied := h.here isArray
    have found : c.array[k]? = some e := entered
    have inside : e.info ∈ c.array.map Node.info :=
      List.mem_map_of_mem (List.mem_of_getElem? found)
    have plain : e.info.jsl ≠ .arrayItem := by
      intro level
      obtain ⟨a, ptr, _, object⟩ := tallied.objects e.info inside level
      rw [newOne, ptr, Option.bind_some] at made
      cases hd : store.heap.deref a with
      | none => simp [hd] at made
      | some x =>
        have mem := List.mem_of_find?_eq_some hd
        have addr : x.addr = a := by
          have test := List.find?_some hd
          simpa using test
        simp [hd, object x mem addr] at made
    have grows : Extends store.heap (cjsonReplaceItemInArray heap array k item) := by
      obtain ⟨kind, created⟩ := newOne_eq made
      obtain ⟨rfl, rfl⟩ := Prod.mk.inj created
      exact (adds_cjsonReplaceItemInArray store.heap kind array k).extends
    rw [same]
    refine ⟨grows, ?_⟩
    have later := Everywhere.extends h grows
    refine everywhere_withItems later (by simp [Node.modifyAt]) ?_ ?_
    · intro _
      have infos : (c.modifyAt (setValue v item.addr) [.item k]).array.map Node.info =
          (c.array.map Node.info).modify k fun info =>
            { info with scopeValue := v, jsonptr := some item.addr } := by
        apply List.ext_getElem?
        intro j
        simp only [Node.modifyAt, Node.array_setArray, List.getElem?_map, List.getElem?_modify]
        by_cases here : k = j
        · subst here
          simp [found, setValue]
        · simp [here]
      dsimp only
      rw [infos, modifyAt_info]
      have there : (c.array.map Node.info)[k]? = some e.info := by
        rw [List.getElem?_map, found]
        rfl
      exact tallied_set (later.here isArray) there plain rfl rfl rfl
    · intro d mem
      simp only [Node.modifyAt, Node.array_setArray] at mem
      obtain ⟨j, hj⟩ := List.getElem?_of_mem mem
      rw [List.getElem?_modify] at hj
      obtain ⟨d', old, rfl⟩ := Option.map_eq_some_iff.mp hj
      have inside' := later.item (List.mem_of_getElem? old)
      split
      · rename_i here
        subst here
        obtain rfl := Option.some.inj (found.symm.trans old)
        exact everywhere_setInfo inside' fun isArray' => absurd isArray' notArray
      · exact inside'

theorem nameFits_of_accepted {segms : List Segment} (accepted : AcceptedKey segms) :
    ∀ segm ∈ segms, NameFits segm.name := by
  have inBelow : ∀ {segms : List Segment}, Below segms → ∀ segm ∈ segms, NameFits segm.name := by
    intro segms below
    induction below with
    | field fits => simpa using fits
    | array fits range => simpa using fits
    | scope fits below ih => exact List.forall_mem_cons.mpr ⟨fits, ih⟩
    | item fits range single below ih => exact List.forall_mem_cons.mpr ⟨fits, ih⟩
  cases accepted with
  | dir fits => simpa using fits
  | archive fits fits' => simpa using ⟨fits, fits'⟩
  | below fits fits' below =>
    exact List.forall_mem_cons.mpr ⟨fits, List.forall_mem_cons.mpr ⟨fits', inBelow below⟩⟩

/-- Every update that is no such deletion. -/
theorem passes_update (kept : Kept world) (accepted : AcceptedKey jrp.segm)
    (plain : ∀ target ∈ deletedItem world.root jrp, ∀ item ∈ target.1.array.drop (target.2 + 1),
      item.info.jsl ≠ .arrayItem)
    (done : rtConfigUpdate world jrp = some u) : Passes world u.world := by
  cases value : jrp.valuestring with
  | none =>
    rw [rtConfigUpdate, value] at done
    obtain rfl := Option.some.inj done
    exact passes_refl kept
  | some v =>
    by_cases keyword : v = keywordDeleted
    · subst keyword
      exact passes_delete kept accepted value plain done
    · cases update_cases kept.regular.built accepted value done with
      | refused archive => exact passes_refl kept
      | delete walk found target isKeyword => exact absurd isKeyword keyword
      | @field path passed n c segm walk found level level' notDeleted archive =>
        have there := getAt_member walk found
        have node := rtFieldUpdate_node world.store c v
        obtain ⟨after, key, jsl⟩ := regular_rtFieldUpdate (regular_at kept.regular there)
          world.store v
        have grows := extends_rtFieldUpdate world.store level v
        have later := Everywhere.extends (kept.tallied.getAt there) grows
        refine passes_write kept there after grows ?_ (Or.inr ⟨by simp, key, jsl⟩)
          fun before k same => absurd same notItem_scope
        rcases node with same | ⟨ptr, same⟩
        · rw [same]
          exact later
        · rw [same, setValue]
          refine everywhere_setInfo later fun isArray => ?_
          have other : c.info.jsl = .array := isArray
          rw [level] at other
          cases other
      | @item path passed n c segm walk found level level' place notDeleted archive =>
        have there := getAt_member walk found
        have regular := regular_at kept.regular there
        have tallied := kept.tallied.getAt there
        obtain ⟨after, key, jsl⟩ := regular_rtArrayFieldUpdate regular world.store segm.index v
        have kinds : Extends world.store.heap
              (rtArrayFieldUpdate world.store c segm.index v).1.heap ∧
            Everywhere (tally (rtArrayFieldUpdate world.store c segm.index v).1.heap)
              ([] ++ scopeKeys (path ++ [.scope (fold segm.name)]))
              (rtArrayFieldUpdate world.store c segm.index v).2.1 := by
          rcases place with ⟨k, place⟩ | entire
          · obtain ⟨e, entered⟩ := placeOf_entered regular.here.size place
            have notArray := regular.here.elements e (List.mem_of_getElem? entered)
            exact tallied_itemUpdate tallied level notArray place entered
          · have room := (tallied.here level).room
            rw [← (tallied.here level).size] at room
            have order : jaSymLast < jaSymEntire := by decide
            rw [entire, rtArrayFieldUpdate_entire _ _ (by omega)]
            exact ⟨Extends.refl _, tallied⟩
        exact passes_write kept there after kinds.1 kinds.2 (Or.inr ⟨by simp, key, jsl⟩)
          fun before k same => absurd same notItem_scope
      | @missing path passed rest m segm walk started missing level noFile notDeleted archive =>
        have there := getAt_of_walks walk
        have regular := regular_at kept.regular there
        have notArray := notArray_of_walks walk kept.regular (by rintro ⟨⟩)
        have after := regular_rtAppend v world.store (segm :: rest) regular
          (segmsFit_of_walks accepted walk started) fun isArray => absurd isArray notArray
        have info := rtAppend_kept v world.store m (segm :: rest)
        have names := fun s mem => nameFits_of_accepted accepted s
          ((suffix_of_walks walk).subset mem)
        have appended := appendKeeps v (segm :: rest) names regular.here.ordered kept.bounded
          (kept.tallied.getAt there)
        exact passes_write kept there after appended.grows appended.tallied
          (Or.inr ⟨started, scopeKey_rtAppend .., info.2.1⟩) fun _ _ _ => info.2.2 notArray
      | @extend path passed rest m c segm walk found level level' next notDeleted archive =>
        have there := getAt_member walk found
        have regular := regular_at kept.regular there
        have fits := segmsFit_array accepted walk level'
        have after := regular_rtAppend v world.store (segm :: rest) regular
          (by rwa [List.length_append]) fun _ => by
            rintro _ ⟨⟩
            exact level'
        have info := rtAppend_kept v world.store c (segm :: rest)
        have names := fun s mem => nameFits_of_accepted accepted s
          ((suffix_of_walks walk).subset mem)
        have appended := appendKeeps v (segm :: rest) names regular.here.ordered kept.bounded
          (kept.tallied.getAt there)
        exact passes_write kept there after appended.grows appended.tallied
          (Or.inr ⟨by simp, scopeKey_rtAppend .., info.2.1⟩)
          fun before k same => absurd same notItem_scope

theorem kept_update (kept : Kept world) (accepted : AcceptedKey jrp.segm)
    (plain : ∀ target ∈ deletedItem world.root jrp, ∀ item ∈ target.1.array.drop (target.2 + 1),
      item.info.jsl ≠ .arrayItem)
    (done : rtConfigUpdate world jrp = some u) : Kept u.world := by
  have passes := passes_update kept accepted plain done
  exact ⟨regular_update kept.regular accepted done, passes.grows.bounded kept.bounded,
    passes.tallied⟩

/-- A write request that moves no object. -/
theorem kept_writeStep (print : Item ν → Bytes) {world' : World ν} {payload : Bytes}
    (kept : Kept world) (plain : LeavesObjects world payload)
    (done : writeStep print world payload = some world') : Kept world' := by
  rw [writeStep] at done
  split at done
  · obtain rfl := Option.some.inj done
    exact kept
  · rename_i jrp parsed
    have accepted := (acceptedKey_of_rtCreateJrp parsed).1
    obtain ⟨answered, served, rfl⟩ := Option.map_eq_some_iff.mp done
    rw [proVariableWrite] at served
    split at served
    · obtain rfl := Option.some.inj served
      exact kept
    · obtain ⟨u, updated, rfl⟩ := Option.map_eq_some_iff.mp served
      have after := kept_update kept accepted (plain jrp parsed) updated
      have saved : ∀ archive, Kept (saveArchive print u.world archive).world := by
        intro archive
        rw [saveArchive]
        split
        · exact after
        · exact ⟨after.regular, after.bounded, after.tallied⟩
      split
      · exact after
      · split
        · exact saved _
        · exact after

end Updating

section Loading
variable {heap : Heap ν} {depth : Nat}

/-- The counts and the names of the arrays in a document fit into the members of a node. -/
def ArraysFit (document : Item ν) : Prop := ∀ x ∈ document.items, x.kind = .cjsonArray →
  (x.child.length : Int) < jaSymLast ∧ ∀ name ∈ x.string, name.length < maxPreSegSize

def InMemory (heap : Heap ν) (document : Item ν) : Prop :=
  ∀ x ∈ document.items, x ∈ heap.roots.flatMap items

/-- What a node keeps to while documents are loaded. -/
structure Fine (heap : Heap ν) (depth : Nat) (n : Node) : Prop where
  regular : Regular depth n
  tallied : ∀ above, Everywhere (tally heap) above n

theorem fine_insertScope {n c : Node} (h : Fine heap depth n) (child : Fine heap (depth + 1) c)
    (level : ¬ IsItem c) (notArray : n.info.jsl ≠ .array) : Fine heap depth (insertScope n c) where
  regular := regular_insertScope h.regular child.regular level notArray
  tallied above := everywhere_insertScope (h.tallied above) h.regular.here.ordered (child.tallied _)

theorem fine_leaf {n : Node} (tree : n.nextScope = .nil) (array : n.array = [])
    (size : n.info.arraysize = 0) (stands : AtDepth depth n.info.jsl)
    (level : n.info.jsl ≠ .array) : Fine heap depth n where
  regular := regular_leaf tree array size stands
  tallied _ := everywhere_leaf' tree array level

variable [DoubleText ν]

/-- What the induction over a document proves of each item in it. -/
structure LoadsFine (heap : Heap ν) (j : Item ν) : Prop where
  children : ∀ depth, 2 ≤ depth → ∀ parent, Fine heap depth parent → parent.info.jsl ≠ .array →
    Fine heap depth (loadChildren parent j)
  member : ∀ depth, 2 ≤ depth → ∀ jsonparentptr node, memberNode jsonparentptr j = some node →
    Fine heap (depth + 1) node ∧ ¬ IsItem node
  element : ∀ depth, 2 ≤ depth → ∀ array arrayName i,
    Fine heap (depth + 1) (elementNode array arrayName i j)

theorem fine_ldrNextMisc (deep : 2 ≤ depth) (jsonparentptr : Option Addr) {l : List (Item ν)}
    (each : ∀ c ∈ l, LoadsFine heap c) {parent : Node} (h : Fine heap depth parent)
    (notArray : parent.info.jsl ≠ .array) :
    Fine heap depth (ldrNextMisc jsonparentptr parent l) := by
  induction l generalizing parent with
  | nil =>
    rw [ldrNextMisc]
    exact h
  | cons item rest ih =>
    have here := each item List.mem_cons_self
    have later := fun c hc => each c (List.mem_cons_of_mem _ hc)
    by_cases named : item.string = none
    · rw [ldrNextMisc.eq_def]
      simp only [named]
      split
      · exact h
      · exact here.children depth deep parent h notArray
      · exact here.children depth deep parent h notArray
      · exact ih later h notArray
    · rw [ldrNextMisc_named jsonparentptr parent named]
      split
      · exact ih later h notArray
      · rename_i node made
        obtain ⟨fine, level⟩ := here.member depth deep jsonparentptr node made
        refine ih later (fine_insertScope h fine level notArray) ?_
        rwa [insertScope_info]

theorem elementInfo_jsl (array : Addr) (arrayName : Bytes) (i : Nat) (item : Item ν) :
    (elementInfo array arrayName i item).jsl ≠ .array ∧
      (elementInfo array arrayName i item).jsl ≠ .archive ∧
      (elementInfo array arrayName i item).scopeName = printInt i ∧
      (elementInfo array arrayName i item).ident = item.addr ∧
      (elementInfo array arrayName i item).arraysize = 0 ∧
      ((elementInfo array arrayName i item).jsl = .arrayItem → item.kind = .cjsonObject ∧
        (elementInfo array arrayName i item).scopeValue = itemValue arrayName i ∧
        (elementInfo array arrayName i item).jsonptr = some item.addr) := by
  cases hk : item.kind <;> simp [elementInfo, hk, NodeInfo.blank]

/-- The items that are loaded for an array. -/
theorem tallied_elements (separate : Separate heap) {array : NodeInfo} {j : Item ν} {name : Bytes}
    (memory : ∀ c ∈ j.child, c ∈ heap.roots.flatMap items)
    (apart : (j.child.map Item.addr).Nodup) (size : array.arraysize = j.child.length)
    (named : array.scopeName = name) (short : name.length < maxPreSegSize)
    (room : (j.child.length : Int) < jaSymLast) :
    Tallied heap array ((ldrArrayItems j.addr name 0 j.child).map Node.info) := by
  have places : ∀ {k : Nat} {i : NodeInfo},
      ((ldrArrayItems j.addr name 0 j.child).map Node.info)[k]? = some i →
      ∃ c, j.child[k]? = some c ∧ i = elementInfo j.addr name k c := by
    intro k i found
    rw [List.getElem?_map, getElem_ldrArrayItems, Nat.zero_add, Option.map_map,
      Option.map_eq_some_iff] at found
    obtain ⟨c, there, rfl⟩ := found
    exact ⟨c, there, elementNode_info j.addr name k c⟩
  have length : ((ldrArrayItems j.addr name 0 j.child).map Node.info).length = j.child.length := by
    rw [List.length_map, length_ldrArrayItems]
  have parts : ∀ {i : NodeInfo}, i ∈ (ldrArrayItems j.addr name 0 j.child).map Node.info →
      ∃ k c, j.child[k]? = some c ∧ i = elementInfo j.addr name k c := by
    intro i mem
    obtain ⟨k, found⟩ := List.getElem?_of_mem mem
    exact ⟨k, places found⟩
  constructor
  · rw [length, size]
  · rwa [named]
  · rwa [length]
  · intro k i found
    obtain ⟨c, _, rfl⟩ := places found
    exact (elementInfo_jsl j.addr name k c).2.2.1
  · intro k i found level
    obtain ⟨c, there, rfl⟩ := places found
    have inside : k < j.child.length := by
      by_contra outside
      rw [List.getElem?_eq_none (by omega)] at there
      cases there
    rw [((elementInfo_jsl j.addr name k c).2.2.2.2.2 level).2.1, named]
    exact itemValue_eq short (by omega)
  · intro i mem level
    obtain ⟨k, c, there, rfl⟩ := parts mem
    obtain ⟨object, _, ptr⟩ := (elementInfo_jsl j.addr name k c).2.2.2.2.2 level
    have inside := memory c (List.mem_of_getElem? there)
    refine ⟨c.addr, ptr, bounded_of_separate separate c inside, ?_⟩
    intro x mem' addr
    have same := deref_of_mem separate mem'
    rw [addr, deref_of_mem separate inside] at same
    rw [← Option.some.inj same]
    exact object
  · have idents : ((ldrArrayItems j.addr name 0 j.child).map Node.info).map NodeInfo.ident =
        j.child.map Item.addr := by
      apply List.ext_getElem?
      intro k
      simp only [List.getElem?_map, getElem_ldrArrayItems, Nat.zero_add, Option.map_map]
      cases j.child[k]? with
      | none => rfl
      | some c =>
        simp only [Option.map_some, Function.comp_apply, elementNode_info]
        exact congrArg some (elementInfo_jsl j.addr name k c).2.2.2.1
    rw [idents]
    exact apart
  · intro i mem
    obtain ⟨k, c, there, rfl⟩ := parts mem
    rw [(elementInfo_jsl j.addr name k c).2.2.2.1]
    exact bounded_of_separate separate c (memory c (List.mem_of_getElem? there))

omit [DoubleText ν] in
theorem sublist_addrs (l : List (Item ν)) : (l.map Item.addr).Sublist (l.flatMap addrs) := by
  induction l with
  | nil => exact List.Sublist.slnil
  | cons c rest ih =>
    rw [List.map_cons, List.flatMap_cons, addrs_eq, List.cons_append]
    exact (ih.trans (List.sublist_append_right _ _)).cons_cons _

omit [DoubleText ν] in
/-- The elements of an array in memory have different addresses. -/
theorem nodup_child (separate : Separate heap) {j : Item ν} (mem : j ∈ heap.roots.flatMap items) :
    (j.child.map Item.addr).Nodup := by
  obtain ⟨fill, rest, hole⟩ := hole_of_mem mem
  have nodup := (hole.nodup separate.apart).1
  rw [addrs_eq, List.nodup_cons] at nodup
  exact nodup.2.sublist (sublist_addrs j.child)

theorem memberInfo_members {jsonparentptr : Option Addr} {j : Item ν} {name : Bytes}
    {info : NodeInfo} (h : memberInfo jsonparentptr j name = some info) :
    info.jsl ≠ .archive ∧ info.jsl ≠ .arrayItem ∧ info.jsl ≠ .arrayItemAsField ∧
      (j.kind = .cjsonArray → info.jsl = .array ∧ info.scopeName = name ∧
        info.arraysize = j.child.length) ∧
      (j.kind ≠ .cjsonArray → info.jsl ≠ .array ∧ info.arraysize = 0) := by
  rw [memberInfo] at h
  cases hk : j.kind with
  | cjsonFalse => simp [hk] at h
  | cjsonTrue => simp [hk] at h
  | cjsonNull => simp [hk] at h
  | cjsonObject =>
    simp only [hk, Option.map_eq_some_iff] at h
    obtain ⟨scopeName, _, rfl⟩ := h
    simp [NodeInfo.blank]
  | cjsonNumber v =>
    simp only [hk, Option.map_eq_some_iff] at h
    obtain ⟨scopeName, _, rfl⟩ := h
    simp [NodeInfo.blank]
  | cjsonString v =>
    simp only [hk, Option.map_eq_some_iff] at h
    obtain ⟨scopeName, _, rfl⟩ := h
    simp [NodeInfo.blank]
  | cjsonArray =>
    simp only [hk, Option.some.injEq] at h
    subst h
    simp [cjsonGetArraySize]

/-- The node of a named array. -/
theorem fine_array (separate : Separate heap) (deep : 2 ≤ depth) {j : Item ν} {name : Bytes}
    {info : NodeInfo} (memory : InMemory heap j) (named : j.string = some name)
    (each : ∀ c ∈ j.child, LoadsFine heap c) (isArray : info.jsl = .array)
    (same : info.scopeName = name) (size : info.arraysize = j.child.length)
    (room : (j.child.length : Int) < jaSymLast) (short : name.length < maxPreSegSize) :
    Fine heap (depth + 1) (.mk info .nil (loadElements j)) := by
  have elements : loadElements j = ldrArrayItems j.addr name 0 j.child := by
    cases j with
    | mk addr string kind child =>
      rw [Item.string_mk] at named
      rw [loadElements, named]
      rfl
  have parts : ∀ c ∈ ldrArrayItems j.addr name 0 j.child,
      ∃ k, ∃ d ∈ j.child, c = elementNode j.addr name k d := by
    intro c mem
    obtain ⟨k, found⟩ := List.getElem?_of_mem mem
    rw [getElem_ldrArrayItems, Option.map_eq_some_iff] at found
    obtain ⟨d, there, rfl⟩ := found
    exact ⟨0 + k, d, List.mem_of_getElem? there, rfl⟩
  have inside := memory j (self_mem_items j)
  have children : ∀ c ∈ j.child, c ∈ heap.roots.flatMap items :=
    fun c mem => memory c (mem_items_of_child mem (self_mem_items c))
  rw [elements]
  constructor
  · refine .mk ⟨ordered_nil _, ?_, ?_, fun _ => rfl, (by rintro _ ⟨⟩), ?_, ?_⟩ (by rintro _ ⟨⟩) ?_
    · rw [Node.info_mk, Node.array_mk, length_ldrArrayItems, size]
    · exact fun other => absurd isArray other
    · intro c mem
      obtain ⟨k, d, _, rfl⟩ := parts c mem
      rw [elementNode_info]
      exact (elementInfo_jsl j.addr name k d).1
    · refine atDepth_inner deep ?_
      rw [Node.info_mk, isArray]
      simp
    · intro c mem
      obtain ⟨k, d, child, rfl⟩ := parts c mem
      exact ((each d child).element (depth + 1) (Nat.le_succ_of_le deep) j.addr name k).regular
  · intro above
    apply everywhere_of_follow
    · exact fun _ => tallied_elements separate children (nodup_child separate inside) size same
        short room
    · intro s c found
      cases s with
      | scope key => cases found
      | item i =>
        obtain ⟨k, d, child, rfl⟩ := parts c (List.mem_of_getElem? found)
        exact ((each d child).element depth deep j.addr name k).tallied _

theorem loadsFine (separate : Separate heap) (j : Item ν) : InMemory heap j → ArraysFit j →
    LoadsFine heap j := by
  induction j using Item.induct with
  | step j ih =>
    intro memory fit
    have each : ∀ c ∈ j.child, LoadsFine heap c := by
      intro c mem
      exact ih c mem (fun x hx => memory x (mem_items_of_child mem hx))
        (fun x hx => fit x (mem_items_of_child mem hx))
    have children : ∀ depth, 2 ≤ depth → ∀ parent, Fine heap depth parent →
        parent.info.jsl ≠ .array → Fine heap depth (loadChildren parent j) := by
      intro depth deep parent fine notArray
      obtain ⟨addr, string, kind, child⟩ := j
      rw [loadChildren]
      exact fine_ldrNextMisc deep (some addr) each fine notArray
    refine ⟨children, ?_, ?_⟩
    · intro depth deep jsonparentptr node made
      rw [memberNode, Option.bind_eq_some_iff] at made
      obtain ⟨name, named, made⟩ := made
      obtain ⟨info, hinfo, rfl⟩ := Option.map_eq_some_iff.mp made
      obtain ⟨notArchive, notItem, notItem', array, other⟩ := memberInfo_members hinfo
      have stands : AtDepth (depth + 1) info.jsl := atDepth_inner deep notArchive
      have level : ∀ {n : Node}, n.info = info → ¬ IsItem n := by
        intro n same
        rw [IsItem, same]
        exact not_or.mpr ⟨notItem, notItem'⟩
      split
      · rename_i isArray
        obtain ⟨arrayLevel, same, size⟩ := array isArray
        obtain ⟨room, short⟩ := fit j (self_mem_items j) isArray
        exact ⟨fine_array separate deep memory named each arrayLevel same size room
          (short name named), level rfl⟩
      · rename_i isObject
        obtain ⟨notArray, size⟩ := other (by simp [isObject])
        have leaf : Fine heap (depth + 1) (.mk info .nil []) :=
          fine_leaf rfl rfl size stands notArray
        refine ⟨children (depth + 1) (Nat.le_succ_of_le deep) _ leaf notArray, level ?_⟩
        exact (kept_loadChildren j _).1
      · rename_i notArray _
        obtain ⟨notArray, size⟩ := other notArray
        exact ⟨fine_leaf rfl rfl size stands notArray, level rfl⟩
    · intro depth deep array arrayName i
      obtain ⟨notArray, notArchive, _, _, size, _⟩ := elementInfo_jsl array arrayName i j
      have leaf : Fine heap (depth + 1) (.mk (elementInfo array arrayName i j) .nil []) :=
        fine_leaf rfl rfl size (atDepth_inner deep notArchive) notArray
      rw [elementNode]
      split
      · exact children (depth + 1) (Nat.le_succ_of_le deep) _ leaf notArray
      · exact leaf

omit [DoubleText ν] in
theorem fine_insertScopes {children : List Node} {n : Node} (h : Fine heap depth n)
    (notArray : n.info.jsl ≠ .array)
    (each : ∀ c ∈ children, Fine heap (depth + 1) c ∧ ¬ IsItem c) :
    Fine heap depth (children.foldl insertScope n) := by
  induction children generalizing n with
  | nil => exact h
  | cons c rest ih =>
    obtain ⟨fine, level⟩ := each c List.mem_cons_self
    refine ih (fine_insertScope h fine level notArray) ?_
      fun d mem => each d (List.mem_cons_of_mem _ mem)
    rwa [insertScope_info]

/-- What is loaded: documents in memory whose arrays fit into the nodes. -/
structure Loadable (images : List (DirImage ν)) (heap : Heap ν) : Prop where
  separate : Separate heap
  memory : ∀ dir ∈ images, ∀ image ∈ dir.archives, image.document ∈ heap.roots
  fit : ∀ dir ∈ images, ∀ image ∈ dir.archives, ArraysFit image.document

theorem fine_loadedRoot {images : List (DirImage ν)} (loadable : Loadable images heap) :
    Fine heap 0 (rootNode (loadedRoot images)) := by
  have whole : rootNode (loadedRoot images) =
      (images.map dirImageNode).foldl insertScope (rootNode .nil) := by
    rw [loadedRoot, ldrFilesystemLoadDir_eq]
    have info := insertScopes_info (images.map dirImageNode) (rootNode .nil)
    have array := insertScopes_array (images.map dirImageNode) (rootNode .nil)
    generalize (images.map dirImageNode).foldl insertScope (rootNode .nil) = node at info array ⊢
    obtain ⟨i, t, a⟩ := node
    rw [rootNode]
    simp only [Node.info_mk, Node.array_mk] at info array
    rw [info, array]
    rfl
  have archives : ∀ dir ∈ images, ∀ image ∈ dir.archives, ∀ node,
      archiveImageNode (loadedDir dir.ident dir.name) image = some node →
      Fine heap 2 node ∧ ¬ IsItem node := by
    intro dir hd image hi node made
    obtain ⟨archive, accepted, rfl⟩ := Option.map_eq_some_iff.mp made
    have fresh : archive.nextScope = .nil ∧ archive.array = [] ∧ archive.info.arraysize = 0 ∧
        archive.info.jsl = .archive := by
      rw [archiveNode] at accepted
      split at accepted
      · cases accepted
      · obtain rfl := Option.some.inj accepted
        exact ⟨rfl, rfl, rfl, rfl⟩
    obtain ⟨tree, array, size, level⟩ := fresh
    have document := loadsFine loadable.separate image.document
      (fun x hx => List.mem_flatMap.mpr ⟨_, loadable.memory dir hd image hi, hx⟩)
      (loadable.fit dir hd image hi)
    have leaf : Fine heap 2 (archive.setInfo fun info =>
        { info with fsSection := image.fsSection }) := by
      refine fine_leaf (by simpa using tree) (by simpa using array) (by simpa using size) ?_ ?_
      · rw [Node.info_setInfo]
        exact level
      · rw [Node.info_setInfo, level]
        simp
    have single : ∀ c ∈ [image.document], LoadsFine heap c := by
      intro c hc
      rwa [List.mem_singleton.mp hc]
    have kept := kept_ldrNextMisc [image.document] none
      (archive.setInfo fun info => { info with fsSection := image.fsSection })
    refine ⟨fine_ldrNextMisc (Nat.le_refl 2) none single leaf ?_, ?_⟩
    · rw [Node.info_setInfo, level]
      simp
    · rw [ldrLoadArchive, IsItem, kept.1, Node.info_setInfo, level]
      exact not_or.mpr ⟨by simp, by simp⟩
  have dirs : ∀ dir ∈ images, Fine heap 1 (dirImageNode dir) := by
    intro dir hd
    rw [dirImageNode, ldrFilesystemLoadArchive_eq]
    refine fine_insertScopes (fine_leaf rfl rfl rfl rfl (by rintro ⟨⟩)) (by rintro ⟨⟩) ?_
    intro c hc
    obtain ⟨image, hi, made⟩ := List.mem_filterMap.mp hc
    exact archives dir hd image hi c made
  rw [whole]
  refine fine_insertScopes (fine_leaf rfl rfl rfl rfl (by rintro ⟨⟩)) (by rintro ⟨⟩) ?_
  intro c hc
  obtain ⟨dir, hd, rfl⟩ := List.mem_map.mp hc
  refine ⟨dirs dir hd, ?_⟩
  rw [IsItem, dirImageNode_info]
  exact not_or.mpr ⟨by rintro ⟨⟩, by rintro ⟨⟩⟩

theorem kept_loaded {images : List (DirImage ν)} {store : Store ν}
    (loadable : Loadable images store.heap) : Kept ⟨loadedRoot images, store⟩ := by
  have fine := fine_loadedRoot loadable
  exact ⟨fine.regular, bounded_of_separate loadable.separate, fine.tallied []⟩

end Loading

variable [DoubleText ν]

/-- In every run of write requests that delete no item in front of an object item, the
places in every array are written down alike. -/
theorem always_represented (print : Item ν → Bytes) {images : List (DirImage ν)} {store : Store ν}
    (loadable : Loadable images store.heap) {payloads : List Bytes}
    (leaves : Along (writeStep print) LeavesObjects ⟨loadedRoot images, store⟩ payloads) :
    Always (writeStep print) (fun world => Represented world.root) ⟨loadedRoot images, store⟩
      payloads := by
  have always := always_of_along
    (fun world payload world' kept plain done => kept_writeStep print kept plain done)
    (kept_loaded loadable) leaves
  exact always_mono (fun world kept => kept.represented) always

section TwoObjects

/-- `{"arr":[{},{}],"l":["x"]}` -/
def objectsDocument : Item Nat :=
  .mk 1 none .cjsonObject
    [.mk 2 (some (ofChars ['a', 'r', 'r'])) .cjsonArray
      [.mk 3 none .cjsonObject [], .mk 4 none .cjsonObject []],
      .mk 5 (some (ofChars ['l'])) .cjsonArray [.mk 6 none (.cjsonString (ofChars ['x'])) []]]

def objectsStore : Store Nat :=
  ⟨⟨[objectsDocument], 8⟩, .zero, [], []⟩

theorem objects_loadable : Loadable (PlainDoc.oneArchive objectsDocument) objectsStore.heap := by
  have single : ∀ {P : Item Nat → Prop}, P objectsDocument →
      ∀ dir ∈ PlainDoc.oneArchive objectsDocument, ∀ image ∈ dir.archives, P image.document := by
    intro P h dir hd image hi
    obtain rfl := List.mem_singleton.mp hd
    obtain rfl := List.mem_singleton.mp hi
    exact h
  have addresses : objectsStore.heap.roots.flatMap addrs = [1, 2, 3, 4, 5, 6] := rfl
  refine ⟨⟨?_, ?_⟩, single (List.mem_singleton.mpr rfl), @single ArraysFit ?_⟩
  · rw [addresses]
    decide
  · rw [addresses]
    decide
  · have fits : ∀ x ∈ objectsDocument.items,
        (x.child.length : Int) < jaSymLast ∧ ∀ name ∈ x.string, name.length < maxPreSegSize := by
      decide
    exact fun x hx _ => fits x hx

def noText : Item Nat → Bytes := fun _ => []

/-- `d.a.arr[0]=deleted` -/
def dropFirst : Bytes := ofChars ['d', '.', 'a', '.', 'a', 'r', 'r', '[', '0', ']', '=', 'd', 'e',
  'l', 'e', 't', 'e', 'd']

/-- `d.a.l[+]=y`, `d.a.l[0]=deleted`, `d.a.arr[+].f=z`, `d.a.arr[$]=deleted` -/
def growAndShrink : List Bytes :=
  [ofChars ['d', '.', 'a', '.', 'l', '[', '+', ']', '=', 'y'],
    ofChars ['d', '.', 'a', '.', 'l', '[', '0', ']', '=', 'd', 'e', 'l', 'e', 't', 'e', 'd'],
    ofChars ['d', '.', 'a', '.', 'a', 'r', 'r', '[', '+', ']', '.', 'f', '=', 'z'],
    ofChars ['d', '.', 'a', '.', 'a', 'r', 'r', '[', '$', ']', '=', 'd', 'e', 'l', 'e', 't', 'e',
      'd']]

theorem always_represented_growAndShrink : Always (writeStep noText)
    (fun world => Represented world.root)
    ⟨loadedRoot (PlainDoc.oneArchive objectsDocument), objectsStore⟩ growAndShrink := by
  refine always_represented noText objects_loadable ?_
  decide +kernel

/-- The first of two objects is deleted; the other one still shows the place 1. -/
theorem not_always_represented : ¬ ∀ (images : List (DirImage Nat)) (store : Store Nat),
    Loadable images store.heap → ∀ payloads : List Bytes,
      Always (writeStep noText) (fun world => Represented world.root) ⟨loadedRoot images, store⟩
        payloads := by
  intro all
  have after := (all _ _ objects_loadable [dropFirst]).2
  have shown : ∃ world, writeStep noText
      ⟨loadedRoot (PlainDoc.oneArchive objectsDocument), objectsStore⟩ dropFirst = some world ∧
      ((rootNode world.root).getAt [.scope (ofChars ['d']), .scope (ofChars ['a']),
        .scope (ofChars ['a', 'r', 'r'])]).map (fun c => (c.info.jsl, c.info.scopeName,
          c.array.map fun item => (item.info.jsl, item.info.scopeValue))) =
        some (.array, ofChars ['a', 'r', 'r'],
          [(.arrayItem, itemText (ofChars ['a', 'r', 'r']) 1)]) :=
    ⟨_, rfl, by decide +kernel⟩
  obtain ⟨world, done, there⟩ := shown
  obtain ⟨c, found, members⟩ := Option.map_eq_some_iff.mp there
  obtain ⟨level, name, items⟩ : c.info.jsl = .array ∧ c.info.scopeName = ofChars ['a', 'r', 'r'] ∧
      c.array.map (fun item => (item.info.jsl, item.info.scopeValue)) =
        [(.arrayItem, itemText (ofChars ['a', 'r', 'r']) 1)] := by
    simpa only [Prod.mk.injEq] using members
  have numbered : Numbered c := after world done _ c found level
  obtain ⟨item, rest, split⟩ : ∃ item rest, c.array = item :: rest := by
    cases split : c.array with
    | nil => simp [split] at items
    | cons item rest => exact ⟨item, rest, rfl⟩
  rw [split, List.map_cons, List.cons.injEq, Prod.mk.injEq] at items
  have value := numbered.values 0 item (by rw [split]; rfl) items.1.1
  rw [items.1.2, name] at value
  exact absurd value (by decide)

end TwoObjects

end ItemNumbers
