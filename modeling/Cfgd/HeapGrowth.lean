import Cfgd.DeleteSteps
import Cfgd.HeapEdit

/-!
# Addresses are used once

The operations on the documents in memory give every new item an address of its own and
never change the type of an item. An update therefore leaves in memory only items that were
there before, and items at new addresses.
-/

namespace HeapGrowth

open AvlTree CText CJson CJson.Item Request ConfigNode Loader FsImage Runtime HeapEdit
open DeleteSteps AppendSteps UpdateCases

variable {ν : Type}

/-- An item of this address and type is in memory. -/
def Holds (heap : Heap ν) (x : Item ν) : Prop :=
  ∃ y ∈ heap.roots.flatMap items, y.addr = x.addr ∧ y.kind = x.kind

/-- From one heap to a later one. -/
structure Extends (heap heap' : Heap ν) : Prop where
  next : heap.nextAddr ≤ heap'.nextAddr
  items : ∀ x ∈ heap'.roots.flatMap items,
    Holds heap x ∨ (heap.nextAddr ≤ x.addr ∧ x.addr < heap'.nextAddr)

/-- One item more, at the next address. -/
structure Adds (heap : Heap ν) (kind : Kind ν) (heap' : Heap ν) : Prop where
  next : heap'.nextAddr = heap.nextAddr + 1
  items : ∀ x ∈ heap'.roots.flatMap items,
    Holds heap x ∨ (x.addr = heap.nextAddr ∧ x.kind = kind)

/-- Every address in memory was given out. -/
def Bounded (heap : Heap ν) : Prop := ∀ x ∈ heap.roots.flatMap items, x.addr < heap.nextAddr

theorem Extends.refl (heap : Heap ν) : Extends heap heap :=
  ⟨Nat.le_refl _, fun x mem => Or.inl ⟨x, mem, rfl, rfl⟩⟩

theorem Extends.trans {heap heap' heap'' : Heap ν} (h : Extends heap heap')
    (h' : Extends heap' heap'') : Extends heap heap'' := by
  refine ⟨Nat.le_trans h.next h'.next, fun x mem => ?_⟩
  rcases h'.items x mem with ⟨y, inside, addr, kind⟩ | ⟨lower, upper⟩
  · rcases h.items y inside with ⟨z, inside', addr', kind'⟩ | ⟨lower, upper⟩
    · exact Or.inl ⟨z, inside', addr'.trans addr, kind'.trans kind⟩
    · rw [addr] at lower upper
      exact Or.inr ⟨lower, Nat.lt_of_lt_of_le upper h'.next⟩
  · exact Or.inr ⟨Nat.le_trans h.next lower, upper⟩

theorem Adds.extends {heap heap' : Heap ν} {kind : Kind ν} (h : Adds heap kind heap') :
    Extends heap heap' := by
  refine ⟨h.next ▸ Nat.le_succ _, fun x mem => ?_⟩
  rcases h.items x mem with old | ⟨addr, _⟩
  · exact Or.inl old
  · rw [addr, h.next]
    exact Or.inr ⟨Nat.le_refl _, Nat.lt_succ_self _⟩

theorem Extends.bounded {heap heap' : Heap ν} (h : Extends heap heap') (bounded : Bounded heap) :
    Bounded heap' := by
  intro x mem
  rcases h.items x mem with ⟨y, inside, addr, _⟩ | ⟨_, upper⟩
  · have below := bounded y inside
    rw [addr] at below
    exact Nat.lt_of_lt_of_le below h.next
  · exact upper

theorem bounded_of_separate {heap : Heap ν} (separate : Separate heap) : Bounded heap :=
  fun _ mem => separate.below _ (addr_mem_of_mem mem)

section Edits

/-- What a change of the children of one item leaves. -/
theorem mem_items_update {a : Addr} {f : List (Item ν) → List (Item ν)} {j x : Item ν}
    (mem : x ∈ (j.update a (setChild f)).items) :
    (∃ y ∈ j.items, y.addr = x.addr ∧ y.kind = x.kind) ∨
      ∃ l, ∃ c ∈ f l, c ∉ l ∧ x ∈ c.items := by
  induction j using Item.induct with
  | step j ih =>
    by_cases here : j.addr = a
    · subst here
      rw [update_here, items_eq, child_setChild] at mem
      rcases List.mem_cons.mp mem with rfl | below
      · exact Or.inl ⟨j, self_mem_items j, (addr_setChild f j).symm, (kind_setChild f j).symm⟩
      · obtain ⟨c, inside, deep⟩ := List.mem_flatMap.mp below
        by_cases old : c ∈ j.child
        · exact Or.inl ⟨x, mem_items_of_child old deep, rfl, rfl⟩
        · exact Or.inr ⟨j.child, c, inside, old, deep⟩
    · rw [update_below here, items_eq, child_setChild] at mem
      rcases List.mem_cons.mp mem with rfl | below
      · exact Or.inl ⟨j, self_mem_items j, (addr_setChild ..).symm, (kind_setChild ..).symm⟩
      · obtain ⟨c', inside, deep⟩ := List.mem_flatMap.mp below
        obtain ⟨c, child, rfl⟩ := List.mem_map.mp inside
        rcases ih c child deep with ⟨y, hy, same⟩ | new
        · exact Or.inl ⟨y, mem_items_of_child child hy, same⟩
        · exact Or.inr new

theorem mem_roots_update {heap : Heap ν} {a : Addr} {f : List (Item ν) → List (Item ν)}
    {x : Item ν} (mem : x ∈ (heap.update a (setChild f)).roots.flatMap items) :
    Holds heap x ∨ ∃ l, ∃ c ∈ f l, c ∉ l ∧ x ∈ c.items := by
  obtain ⟨j', inside, deep⟩ := List.mem_flatMap.mp mem
  obtain ⟨j, root, rfl⟩ := List.mem_map.mp inside
  rcases mem_items_update deep with ⟨y, hy, same⟩ | new
  · exact Or.inl ⟨y, List.mem_flatMap.mpr ⟨j, root, hy⟩, same⟩
  · exact Or.inr new

variable (heap : Heap ν) (kind : Kind ν)

theorem adds_root {item : Item ν} (addr : item.addr = heap.nextAddr) (same : item.kind = kind)
    (leaf : item.child = []) : Adds heap kind ((cjsonCreate heap kind).1.addRoot item) := by
  refine ⟨rfl, fun x mem => ?_⟩
  have parts : x ∈ heap.roots.flatMap items ∨ x ∈ item.items := by
    simpa [cjsonCreate, Heap.addRoot] using mem
  rcases parts with old | new
  · exact Or.inl ⟨x, old, rfl, rfl⟩
  · rw [items_eq, leaf] at new
    obtain rfl := List.mem_singleton.mp new
    exact Or.inr ⟨addr, same⟩

/-- A new item among the children of another. -/
theorem adds_update (a : Addr) {f : List (Item ν) → List (Item ν)} {item : Item ν}
    (addr : item.addr = heap.nextAddr) (same : item.kind = kind) (leaf : item.child = [])
    (children : ∀ l, ∀ c ∈ f l, c ∈ l ∨ c = item) :
    Adds heap kind ((cjsonCreate heap kind).1.update a (setChild f)) := by
  refine ⟨rfl, fun x mem => ?_⟩
  rcases mem_roots_update mem with old | ⟨l, c, inside, new, deep⟩
  · exact Or.inl old
  · obtain rfl := (children l c inside).resolve_left new
    rw [items_eq, leaf] at deep
    obtain rfl := List.mem_singleton.mp deep
    exact Or.inr ⟨addr, same⟩

/-- Fewer children of an item. -/
theorem extends_shrink (a : Addr) {f : List (Item ν) → List (Item ν)}
    (children : ∀ l, ∀ c ∈ f l, c ∈ l) : Extends heap (heap.update a (setChild f)) := by
  refine ⟨Nat.le_refl _, fun x mem => ?_⟩
  rcases mem_roots_update mem with old | ⟨l, c, inside, new, _⟩
  · exact Or.inl old
  · exact absurd (children l c inside) new

theorem adds_cjsonAddItemToObject (parent : Option Addr) (name : Bytes) :
    Adds heap kind (cjsonAddItemToObject (cjsonCreate heap kind).1 parent name
      (cjsonCreate heap kind).2) := by
  cases parent with
  | none => exact adds_root heap kind rfl rfl rfl
  | some a =>
    refine @adds_update _ heap kind a _ ((cjsonCreate heap kind).2.setString name) rfl rfl rfl ?_
    intro l c mem
    simpa using mem

theorem adds_cjsonAddItemToArray (parent : Option Addr) :
    Adds heap kind (cjsonAddItemToArray (cjsonCreate heap kind).1 parent
      (cjsonCreate heap kind).2) := by
  cases parent with
  | none => exact adds_root heap kind rfl rfl rfl
  | some a =>
    refine @adds_update _ heap kind a _ (cjsonCreate heap kind).2 rfl rfl rfl ?_
    intro l c mem
    simpa using mem

theorem adds_cjsonReplaceItemInObject (parent : Addr) (name : Bytes) :
    Adds heap kind (cjsonReplaceItemInObject (cjsonCreate heap kind).1 parent name
      (cjsonCreate heap kind).2) := by
  rw [cjsonReplaceItemInObject]
  split
  · exact adds_root heap kind rfl rfl rfl
  · refine @adds_update _ heap kind parent _ ((cjsonCreate heap kind).2.setString name)
      rfl rfl rfl ?_
    exact fun l c mem => List.mem_or_eq_of_mem_set mem

theorem adds_cjsonReplaceItemInArray (array : Addr) (which : Nat) :
    Adds heap kind (cjsonReplaceItemInArray (cjsonCreate heap kind).1 array which
      (cjsonCreate heap kind).2) := by
  rw [cjsonReplaceItemInArray]
  split
  · exact adds_root heap kind rfl rfl rfl
  · refine @adds_update _ heap kind array _ (cjsonCreate heap kind).2 rfl rfl rfl ?_
    exact fun l c mem => List.mem_or_eq_of_mem_set mem

theorem extends_cjsonDeleteItemFromObject (parent : Addr) (name : Bytes) :
    Extends heap (cjsonDeleteItemFromObject heap parent name) :=
  extends_shrink heap parent fun _ _ mem => List.mem_of_mem_eraseP mem

theorem extends_cjsonDetachAndDelete (parent item : Addr) :
    Extends heap (cjsonDetachAndDelete heap parent item) :=
  extends_shrink heap parent fun _ _ mem => (List.mem_filter.mp mem).1

theorem extends_cjsonDelete (item : Addr) : Extends heap (cjsonDelete heap item) := by
  refine ⟨Nat.le_refl _, fun x mem => ?_⟩
  obtain ⟨j, root, deep⟩ := List.mem_flatMap.mp mem
  exact Or.inl ⟨x, List.mem_flatMap.mpr ⟨j, (List.mem_filter.mp root).1, deep⟩, rfl, rfl⟩

end Edits

section Updates
variable [DoubleText ν]

omit [DoubleText ν] in
/-- Deleting only takes items out of memory. -/
theorem stepwise_extends :
    Stepwise (ν := ν) fun store store' => Extends store.heap store'.heap where
  refl store := Extends.refl store.heap
  trans := Extends.trans
  scope deep store n parent := by
    rw [unlinkScope.eq_def]
    dsimp only [Store.free]
    split
    · exact extends_cjsonDeleteItemFromObject ..
    · exact extends_cjsonDelete ..
    · exact Extends.refl _
  array deep store n parent := by
    rw [unlinkArray.eq_def]
    dsimp only [Store.free]
    split
    · exact extends_cjsonDeleteItemFromObject ..
    · exact Extends.refl _
  item deep store n parent := by
    rw [rtDeleteArrayItem.eq_def]
    dsimp only [Store.free]
    split
    · exact extends_cjsonDetachAndDelete ..
    · exact Extends.refl _

omit [DoubleText ν] in
theorem extends_rtDelete {fuel : Nat} {store : Store ν} {n parent : Node} {segm : Segment}
    {deleted : Deleted ν} (h : rtDelete fuel store n parent segm = some deleted) :
    Extends store.heap deleted.store.heap := by
  have kept := rtDelete_keeps stepwise_extends h
  rw [beforeDelete] at kept
  split at kept
  · exact kept
  · exact kept

/-- A new value makes a new item of the type of the old one. -/
theorem newOne_eq {heap heap' : Heap ν} {jsonptr : Option Addr} {v : Bytes} {item : Item ν}
    (h : newOne heap jsonptr v = some (heap', item)) :
    ∃ kind, (heap', item) = cjsonCreate heap kind := by
  rw [newOne] at h
  split at h
  · exact ⟨_, (Option.some.inj h).symm⟩
  · exact ⟨_, (Option.some.inj h).symm⟩
  · cases h

theorem extends_rtFieldUpdate (store : Store ν) {node : Node} (level : node.info.jsl = .field)
    (v : Bytes) : Extends store.heap (rtFieldUpdate store node v).1.heap := by
  rcases rtFieldUpdate_cases store v level with ⟨same, _⟩ | ⟨parent, heap, item, _, made, same⟩
  · rw [same]
    exact Extends.refl _
  · obtain ⟨kind, created⟩ := newOne_eq made
    obtain ⟨rfl, rfl⟩ := Prod.mk.inj created
    rw [same]
    exact (adds_cjsonReplaceItemInObject store.heap kind parent node.info.scopeName).extends

end Updates

end HeapGrowth
