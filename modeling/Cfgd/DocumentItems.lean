import Cfgd.HeapGrowth

/-!
# What the documents are made of

A property of the address, the name and the type of an item. Operations on the documents
in memory keep it when the new item has it, and so does `rt_append` when the items that its
segments call for have it.
-/

namespace DocumentItems

open CText CJson CJson.Item Request ConfigNode Loader FsImage Runtime HeapGrowth DeleteSteps
open AppendSteps

variable {ν : Type} {P : Addr → Option Bytes → Kind ν → Prop} {heap : Heap ν}

/-- Every item in memory has the property. -/
def Each (P : Addr → Option Bytes → Kind ν → Prop) (heap : Heap ν) : Prop :=
  ∀ x ∈ heap.roots.flatMap items, P x.addr x.string x.kind

section Edits

theorem each_addRoot (h : Each P heap) {item : Item ν} (new : P item.addr item.string item.kind)
    (leaf : item.child = []) : Each P (heap.addRoot item) := by
  intro x mem
  have parts : x ∈ heap.roots.flatMap items ∨ x ∈ item.items := by
    simpa [Heap.addRoot] using mem
  rcases parts with old | here
  · exact h x old
  · rw [items_eq, leaf] at here
    obtain rfl := List.mem_singleton.mp here
    exact new

/-- A change of the children of one item. -/
theorem each_items_update {a : Addr} {f : List (Item ν) → List (Item ν)} {j : Item ν}
    (h : ∀ x ∈ j.items, P x.addr x.string x.kind)
    (children : ∀ l, ∀ c ∈ f l, c ∈ l ∨ ∀ x ∈ c.items, P x.addr x.string x.kind) :
    ∀ x ∈ (j.update a (setChild f)).items, P x.addr x.string x.kind := by
  induction j using Item.induct with
  | step j ih =>
    have own : ∀ g, P (j.setChild g).addr (j.setChild g).string (j.setChild g).kind := by
      intro g
      rw [addr_setChild, string_setChild, kind_setChild]
      exact h j (self_mem_items j)
    intro x mem
    by_cases here : j.addr = a
    · subst here
      rw [update_here, items_eq, child_setChild] at mem
      rcases List.mem_cons.mp mem with rfl | below
      · exact own f
      · obtain ⟨c, inside, deep⟩ := List.mem_flatMap.mp below
        rcases children j.child c inside with old | new
        · exact h x (mem_items_of_child old deep)
        · exact new x deep
    · rw [update_below here, items_eq, child_setChild] at mem
      rcases List.mem_cons.mp mem with rfl | below
      · exact own _
      · obtain ⟨c', inside, deep⟩ := List.mem_flatMap.mp below
        obtain ⟨c, child, rfl⟩ := List.mem_map.mp inside
        exact ih c child (fun y hy => h y (mem_items_of_child child hy)) x deep

theorem each_update (h : Each P heap) (a : Addr) {f : List (Item ν) → List (Item ν)}
    (children : ∀ l, ∀ c ∈ f l, c ∈ l ∨ ∀ x ∈ c.items, P x.addr x.string x.kind) :
    Each P (heap.update a (setChild f)) := by
  intro x mem
  obtain ⟨j', inside, deep⟩ := List.mem_flatMap.mp mem
  obtain ⟨j, root, rfl⟩ := List.mem_map.mp inside
  exact each_items_update (fun y hy => h y (List.mem_flatMap.mpr ⟨j, root, hy⟩)) children x deep

/-- A new item, which has nothing below it, among the children of another. -/
theorem each_put (h : Each P heap) (a : Addr) {f : List (Item ν) → List (Item ν)} {item : Item ν}
    (new : P item.addr item.string item.kind) (leaf : item.child = [])
    (children : ∀ l, ∀ c ∈ f l, c ∈ l ∨ c = item) : Each P (heap.update a (setChild f)) := by
  refine each_update h a fun l c mem => (children l c mem).imp id ?_
  rintro rfl x here
  rw [items_eq, leaf] at here
  obtain rfl := List.mem_singleton.mp here
  exact new

theorem each_shrink (h : Each P heap) (a : Addr) {f : List (Item ν) → List (Item ν)}
    (children : ∀ l, ∀ c ∈ f l, c ∈ l) : Each P (heap.update a (setChild f)) :=
  each_update h a fun l c mem => Or.inl (children l c mem)

variable {item : Item ν}

theorem each_cjsonAddItemToArray (h : Each P heap) (parent : Option Addr)
    (leaf : item.child = []) (new : P item.addr item.string item.kind) :
    Each P (cjsonAddItemToArray heap parent item) := by
  cases parent with
  | none => exact each_addRoot h new leaf
  | some a => exact each_put h a new leaf fun l c mem => by simpa using mem

/-- Where there is no parent the item keeps to itself, and has no name. -/
theorem each_cjsonAddItemToObject (h : Each P heap) (parent : Option Addr) (name : Bytes)
    (leaf : item.child = []) (alone : P item.addr item.string item.kind)
    (new : P item.addr (some name) item.kind) :
    Each P (cjsonAddItemToObject heap parent name item) := by
  cases parent with
  | none => exact each_addRoot h alone leaf
  | some a =>
    refine @each_put _ _ _ h a _ (item.setString name) ?_ (by rwa [child_setString]) ?_
    · rwa [addr_setString, string_setString, kind_setString]
    · exact fun l c mem => by simpa using mem

theorem each_cjsonReplaceItemInObject (h : Each P heap) (parent : Addr) (name : Bytes)
    (leaf : item.child = []) (new : P item.addr (some name) item.kind) :
    Each P (cjsonReplaceItemInObject heap parent name item) := by
  have named : P (item.setString name).addr (item.setString name).string
      (item.setString name).kind := by
    rwa [addr_setString, string_setString, kind_setString]
  have leaf' : (item.setString name).child = [] := by rwa [child_setString]
  rw [cjsonReplaceItemInObject]
  split
  · exact each_addRoot h named leaf'
  · exact each_put h parent named leaf' fun l c mem => List.mem_or_eq_of_mem_set mem

theorem each_cjsonReplaceItemInArray (h : Each P heap) (array : Addr) (which : Nat)
    (leaf : item.child = []) (new : P item.addr item.string item.kind) :
    Each P (cjsonReplaceItemInArray heap array which item) := by
  rw [cjsonReplaceItemInArray]
  split
  · exact each_addRoot h new leaf
  · exact each_put h array new leaf fun l c mem => List.mem_or_eq_of_mem_set mem

end Edits

section Updates
variable [DoubleText ν] {v : Bytes}

omit [DoubleText ν] in
/-- Deleting only takes items out of memory. -/
theorem stepwise_each : Stepwise (ν := ν) fun store store' => Each P store.heap →
    Each P store'.heap where
  refl store h := h
  trans first second h := second (first h)
  scope deep store n parent h := by
    rw [unlinkScope.eq_def]
    dsimp only [Store.free]
    split
    · exact each_shrink h _ fun _ _ mem => List.mem_of_mem_eraseP mem
    · intro x mem
      obtain ⟨j, root, deep⟩ := List.mem_flatMap.mp mem
      exact h x (List.mem_flatMap.mpr ⟨j, (List.mem_filter.mp root).1, deep⟩)
    · exact h
  array deep store n parent h := by
    rw [unlinkArray.eq_def]
    dsimp only [Store.free]
    split
    · exact each_shrink h _ fun _ _ mem => List.mem_of_mem_eraseP mem
    · exact h
  item deep store n parent h := by
    rw [rtDeleteArrayItem.eq_def]
    dsimp only [Store.free]
    split
    · exact each_shrink h _ fun _ _ mem => (List.mem_filter.mp mem).1
    · exact h

omit [DoubleText ν] in
theorem each_rtDelete {fuel : Nat} {store : Store ν} {n parent : Node} {segm : Segment}
    {deleted : Deleted ν} (h : Each P store.heap)
    (call : rtDelete fuel store n parent segm = some deleted) : Each P deleted.store.heap := by
  refine rtDelete_keeps stepwise_each call ?_
  rw [beforeDelete]
  split
  · exact h
  · exact h

/-- The items that appending makes for these segments have the property. -/
structure Admits (P : Addr → Option Bytes → Kind ν → Prop) (next : Addr) (v : Bytes)
    (segms : List Segment) : Prop where
  alone : ∀ a, next ≤ a → P a none .cjsonObject ∧ P a none .cjsonArray ∧ P a none (.cjsonString v)
  field : ∀ a, next ≤ a → ∀ segm ∈ segms, segm.jsl = .field → P a (some segm.name) (.cjsonString v)
  scope : ∀ a, next ≤ a → ∀ segm ∈ segms, segm.jsl = .logicScope →
    P a (some segm.name) .cjsonObject
  array : ∀ a, next ≤ a → ∀ segm ∈ segms, segm.jsl = .array → P a (some segm.name) .cjsonArray

omit [DoubleText ν] in
theorem Admits.mono {next : Addr} {segms segms' : List Segment} (h : Admits P next v segms)
    (fewer : segms' ⊆ segms) : Admits P next v segms' where
  alone := h.alone
  field a new s mem := h.field a new s (fewer mem)
  scope a new s mem := h.scope a new s (fewer mem)
  array a new s mem := h.array a new s (fewer mem)

/-- What `rt_append` does to the documents from some address on. -/
def AppendsEach (P : Addr → Option Bytes → Kind ν → Prop) (next : Addr) (v : Bytes)
    (segms : List Segment) : Prop := ∀ (store : Store ν) (node : Node),
  next ≤ store.heap.nextAddr → Each P store.heap → Each P (rtAppend v store node segms).store.heap

omit [DoubleText ν] in
/-- A new item of an array. -/
theorem each_addTo {next : Addr} {segms rest : List Segment} (admits : Admits P next v segms)
    (later : AppendsEach P next v rest) {store : Store ν} {node : Node}
    (new : next ≤ store.heap.nextAddr) (h : Each P store.heap) :
    Each P (addTo v store node rest).store.heap := by
  obtain ⟨object, _, text⟩ := admits.alone store.heap.nextAddr new
  have same : ∀ kind, Each P (cjsonCreate store.heap kind).1 := fun _ => h
  rw [addTo]
  split
  · exact each_cjsonAddItemToArray (same (.cjsonString v)) _ rfl text
  · refine later _ _ ?_ (each_cjsonAddItemToArray (same .cjsonObject) _ rfl object)
    exact Nat.le_trans new (adds_cjsonAddItemToArray store.heap .cjsonObject _).extends.next

omit [DoubleText ν] in
theorem each_rtAppend {next : Addr} {segms : List Segment} (admits : Admits P next v segms) :
    AppendsEach P next v segms := by
  induction segms with
  | nil => exact fun store node new h => h
  | cons segm rest ih =>
    have later := ih (admits.mono (List.subset_cons_self ..))
    clear ih
    intro store node new h
    obtain ⟨object, array, text⟩ := admits.alone store.heap.nextAddr new
    have mem : segm ∈ segm :: rest := List.mem_cons_self
    -- a new member, and the addresses after it
    have made : ∀ {kind : Kind ν} (name value : Bytes) (jsl : Jsl),
        P store.heap.nextAddr none kind → P store.heap.nextAddr (some name) kind →
        Each P (allocateMember store node name value jsl kind).1.heap ∧
          next ≤ (allocateMember store node name value jsl kind).1.heap.nextAddr := by
      intro kind name value jsl alone named
      have same : Each P (cjsonCreate store.heap kind).1 := h
      refine ⟨each_cjsonAddItemToObject same node.info.jsonptr name rfl alone named, ?_⟩
      exact Nat.le_trans new (adds_cjsonAddItemToObject store.heap kind _ name).extends.next
    rcases segm with ⟨name, index, level⟩
    cases level with
    | dir => exact h
    | arrayItem => exact h
    | arrayItemAsField => exact h
    | field =>
      rw [rtAppend_field]
      exact (made name v .field text (admits.field _ new _ mem rfl)).1
    | logicScope =>
      obtain ⟨kept, bound⟩ := made name [] .logicScope object (admits.scope _ new _ mem rfl)
      rw [rtAppend_scope]
      exact later _ _ bound kept
    | archive =>
      rw [rtAppend_archive]
      split
      · exact h
      · split
        · exact h
        · rw [makeArchive]
          refine later _ _ (Nat.le_trans new (Nat.le_succ _)) ?_
          have same : Each P (cjsonCreate store.heap .cjsonObject).1 := h
          exact each_addRoot same object rfl
    | array =>
      rw [rtAppend_array]
      split
      · split
        · exact each_addTo admits later new h
        · obtain ⟨kept, bound⟩ := made name [] .array array (admits.array _ new _ mem rfl)
          rw [makeArray]
          split
          · exact each_addTo admits later bound kept
          · exact kept
      · exact h

end Updates

end DocumentItems
