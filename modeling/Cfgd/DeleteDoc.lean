import Cfgd.DeleteTargets
import Cfgd.HeapEdit
import Cfgd.Levels
import Cfgd.UpdateCases

/-!
# What a deletion does to the documents

The document is cut while the tree is: every call of `rt_deep_delete_range` takes the
item of its node out of the item above. All that the calls further down have written
lies inside the item that goes at the end, so that the whole deletion is one cut.
-/

namespace DeleteDoc

open AvlTree CText CJson Item Request ConfigNode Loader FsImage Runtime DocTree DeleteRange
open DeleteTargets Levels Reach UpdateCases HeapEdit

variable {ν : Type}

theorem follow_of_mem {n c : Node} (ord : Ordered Node.scopeKey n.nextScope)
    (h : c ∈ n.nextScope.toList ∨ c ∈ n.array) : ∃ s, n.follow s = some c := by
  rcases h with scope | item
  · exact ⟨.scope c.scopeKey, (mem_toList_iff Node.scopeKey ord).mp scope⟩
  · obtain ⟨i, hi⟩ := List.getElem?_of_mem item
    exact ⟨.item i, hi⟩

section Pointers
variable [DoubleText ν]

/-- The items of a node and of everything below it are at the addresses in `S`. -/
inductive Inside (S : List Addr) : Node → Prop where
  | mk {n : Node} {a : Addr} (ordered : Ordered Node.scopeKey n.nextScope)
      (ptr : n.info.jsonptr = some a) (mem : a ∈ S)
      (parents : ∀ c, c ∈ n.nextScope.toList ∨ c ∈ n.array → c.info.jsonparentptr = some a)
      (below : ∀ c, c ∈ n.nextScope.toList ∨ c ∈ n.array → Inside S c) : Inside S n

variable {S : List Addr}

/-- The items of a node that mirrors an item are those of its document. -/
theorem inside_of_mirrors {n : Node} {j : Item ν} (h : Mirrors n j) (within : j.addrs ⊆ S) :
    Inside S n := by
  induction h with
  | @mk n j linked both shown below ih =>
    have self : Mirrors n j := .mk linked both shown below
    refine .mk linked.ordered linked.ptr (within (addr_mem_addrs j)) ?_ ?_
    · intro c hc
      obtain ⟨s, hs⟩ := follow_of_mem linked.ordered hc
      exact linked.below s c hs
    · intro c hc
      obtain ⟨s, hs⟩ := follow_of_mem linked.ordered hc
      obtain ⟨d, hd, _⟩ := self.down hs
      exact ih s c d hs hd fun a ha => within (mem_addrs_of_child (child_of_follow hd) ha)

theorem inside_decreaseIndex {n : Node} (h : Inside S n) : Inside S (decreaseIndex n) := by
  obtain ⟨ordered, ptr, mem, parents, below⟩ := h
  refine .mk (by simpa using ordered) ?_ mem (by simpa using parents) (by simpa using below)
  simpa [decreaseIndex] using ptr

/-- A node that has lost some of what was below it. -/
theorem inside_fewer {n n' : Node} (h : Inside S n) (ordered : Ordered Node.scopeKey n'.nextScope)
    (ptr : n'.info.jsonptr = n.info.jsonptr)
    (fewer : ∀ c', c' ∈ n'.nextScope.toList ∨ c' ∈ n'.array →
      ∃ c, (c ∈ n.nextScope.toList ∨ c ∈ n.array) ∧ (c' = c ∨ c' = decreaseIndex c)) :
    Inside S n' := by
  obtain ⟨_, own, mem, parents, below⟩ := h
  refine .mk ordered (ptr.trans own) mem ?_ ?_
  · intro c' hc'
    obtain ⟨c, hc, rfl | rfl⟩ := fewer c' hc'
    · exact parents c' hc
    · have link := parents c hc
      simpa [decreaseIndex] using link
  · intro c' hc'
    obtain ⟨c, hc, rfl | rfl⟩ := fewer c' hc'
    · exact below c' hc
    · exact inside_decreaseIndex (below c hc)

theorem Inside.ordered {n : Node} (h : Inside S n) : Ordered Node.scopeKey n.nextScope := by
  obtain ⟨ordered, _, _, _, _⟩ := h
  exact ordered

theorem mem_dropItem {cur c c' : Node} (h : c' ∈ (dropItem cur c).array) :
    ∃ e ∈ cur.array, c' = e ∨ c' = decreaseIndex e := by
  simp only [dropItem, Node.array_setInfo, Node.array_setArray, List.mem_append,
    List.mem_map] at h
  rcases h with before | ⟨e, after, rfl⟩
  · exact ⟨c', List.mem_of_mem_take before, Or.inl rfl⟩
  · exact ⟨e, List.mem_of_mem_drop after, Or.inr rfl⟩

/-- The parent after a call. -/
theorem inside_parentAfter {c cur : Node} (h : Inside S cur) : Inside S (parentAfter c cur) := by
  rw [parentAfter]
  split
  · refine inside_fewer h (by simpa [dropItem] using h.ordered) (by simp [dropItem]) ?_
    rintro c' (scope | item)
    · exact ⟨c', Or.inl (by simpa [dropItem] using scope), Or.inl rfl⟩
    · obtain ⟨e, he, same⟩ := mem_dropItem item
      exact ⟨e, Or.inr he, same⟩
  · refine inside_fewer h (ordered_removeScope h.ordered _) (by simp) ?_
    rintro c' (scope | item)
    · rw [removeScope, Node.nextScope_setNextScope,
        toList_avlremove Node.scopeKey h.ordered] at scope
      exact ⟨c', Or.inl (List.mem_filter.mp scope).1, Or.inl rfl⟩
    · exact ⟨c', Or.inr (by simpa using item), Or.inl rfl⟩

/-- The parent with the tree that the call has returned. -/
theorem inside_treeAfter {c cur : Node} (h : Inside S cur) :
    Inside S ((parentAfter c cur).setNextScope fun _ => treeAfter c cur) := by
  have after : Inside S (parentAfter c cur) := inside_parentAfter h
  by_cases level : IsItem c
  · refine inside_fewer after ?_ (by simp) ?_
    · rw [Node.nextScope_setNextScope, treeAfter, if_pos level]
      exact ordered_nil _
    · intro c' hc'
      rw [Node.nextScope_setNextScope, treeAfter, if_pos level] at hc'
      rcases hc' with scope | item
      · cases scope
      · exact ⟨c', Or.inr (by simpa using item), Or.inl rfl⟩
  · have same : (parentAfter c cur).setNextScope (fun _ => treeAfter c cur) =
        parentAfter c cur := by
      rw [treeAfter, if_neg level]
      cases parentAfter c cur
      rfl
    rw [same]
    exact after

end Pointers

section Calls

/-- What the loops leave of a node: all that its own deletion reads. -/
structure Alike (n n' : Node) : Prop where
  same : Same n n'
  ptr : n'.info.jsonptr = n.info.jsonptr
  parentptr : n'.info.jsonparentptr = n.info.jsonparentptr

theorem alike_refl (n : Node) : Alike n n := ⟨same_refl n, rfl, rfl⟩

theorem Alike.trans {n n' n'' : Node} (h : Alike n n') (h' : Alike n' n'') : Alike n n'' :=
  ⟨h.same.trans h'.same, h'.ptr.trans h.ptr, h'.parentptr.trans h.parentptr⟩

theorem alike_setNextScope (n : Node) (change : Avl Node → Avl Node) :
    Alike n (n.setNextScope change) := ⟨same_setNextScope n change, by simp, by simp⟩

theorem alike_parentAfter (c cur : Node) : Alike cur (parentAfter c cur) := by
  refine ⟨same_parentAfter c cur, ?_, ?_⟩
  · rw [parentAfter]
    split
    · simp [dropItem]
    · simp
  · rw [parentAfter]
    split
    · simp [dropItem]
    · simp

/-- The item at `a` of a node is cut out of the item at `p`. -/
def cutOut (heap : Heap ν) (n : Node) (p a : Addr) : Heap ν :=
  if IsItem n then cjsonDetachAndDelete heap p a
  else cjsonDeleteItemFromObject heap p n.info.scopeName

theorem cutOut_write (heap : Heap ν) (n : Node) (p a : Addr) :
    ∃ f, cutOut heap n p a = heap.update p (setChild f) := by
  rw [cutOut]
  split
  · exact ⟨_, rfl⟩
  · exact ⟨_, rfl⟩

theorem cutOut_congr {n n' : Node} (same : Same n n') (heap : Heap ν) (p a : Addr) :
    cutOut heap n' p a = cutOut heap n p a := by
  have level : IsItem n' ↔ IsItem n := by rw [IsItem, IsItem, same.jsl]
  simp only [cutOut, level, same.scopeName]

/-- Writes to the documents at the addresses in `S`, and no new items. -/
def HeapTouched (S : List Addr) (heap heap' : Heap ν) : Prop :=
  Touched S heap.roots heap'.roots ∧ heap'.nextAddr = heap.nextAddr

variable {S : List Addr}

theorem HeapTouched.trans {heap heap' heap'' : Heap ν} (h : HeapTouched S heap heap')
    (h' : HeapTouched S heap' heap'') : HeapTouched S heap heap'' :=
  ⟨h.1.trans h'.1, h'.2.trans h.2⟩

theorem heapTouched_refl (heap : Heap ν) : HeapTouched S heap heap := ⟨.same, rfl⟩

/-- A call touches the items inside its node, and then cuts the node's own item out. -/
def CutsOut (S : List Addr) (delete : DeleteCall ν) : Prop :=
  ∀ store n parent r p a, delete store n parent = some r → Inside S n →
    n.info.jsonptr = some a → n.info.jsonparentptr = some p → parent.info.jsonptr = some p →
    ∃ mid, HeapTouched S store.heap mid ∧ r.1.heap = cutOut mid n p a

/-- A call for a child touches the items of the node above. -/
theorem touched_of_cutsOut {delete : DeleteCall ν} (cuts : CutsOut S delete) {store : Store ν}
    {c cur : Node} {r : Store ν × Node × Avl Node} (call : delete store c cur = some r)
    (inside : Inside S cur) (child : c ∈ cur.nextScope.toList ∨ c ∈ cur.array) :
    HeapTouched S store.heap r.1.heap := by
  obtain ⟨_, ptr, mem, parents, below⟩ := inside
  have insideC := below c child
  obtain ⟨_, ptrC, _, _, _⟩ := below c child
  obtain ⟨mid, touched, last⟩ := cuts store c cur r _ _ call insideC ptrC (parents c child) ptr
  obtain ⟨f, write⟩ := cutOut_write mid c _ _
  rw [last, write]
  exact ⟨touched.1.write mem f, touched.2⟩

theorem drainScopes_touched {delete : DeleteCall ν} (unlinks : AlwaysUnlinks delete)
    (cuts : CutsOut S delete) {k : Nat} {store store' : Store ν} {cur cur' : Node}
    (inside : Inside S cur) (h : drainScopes delete k store cur = some (store', cur')) :
    HeapTouched S store.heap store'.heap ∧ Inside S cur' ∧ Alike cur cur' := by
  induction k generalizing store cur with
  | zero => cases h
  | succ k ih =>
    rw [drainScopes] at h
    split at h
    · obtain ⟨rfl, rfl⟩ := Prod.mk.inj (Option.some.inj h)
      exact ⟨heapTouched_refl _, inside, alike_refl _⟩
    · rename_i l child r height tree
      have mem : child ∈ cur.nextScope.toList := by
        rw [tree]
        simp [Avl.toList]
      split at h
      · cases h
      · rename_i store₁ cur₁ tree hcall
        have done := unlinks _ _ _ _ _ _ hcall
        have touched := touched_of_cutsOut cuts hcall inside (Or.inl mem)
        rw [done.above, done.returned] at h
        obtain ⟨touched', inside', alike⟩ := ih (inside_treeAfter inside) h
        have step := (alike_parentAfter child cur).trans
          (alike_setNextScope _ fun _ => treeAfter child cur)
        exact ⟨touched.trans touched', inside', step.trans alike⟩

theorem drainItems_touched {delete : DeleteCall ν} (unlinks : AlwaysUnlinks delete)
    (cuts : CutsOut S delete) {k : Nat} {store store' : Store ν} {cur cur' : Node}
    (inside : Inside S cur) (h : drainItems delete k store cur = some (store', cur')) :
    HeapTouched S store.heap store'.heap ∧ Alike cur cur' := by
  induction k generalizing store cur with
  | zero => cases h
  | succ k ih =>
    rw [drainItems] at h
    split at h
    · obtain ⟨rfl, rfl⟩ := Prod.mk.inj (Option.some.inj h)
      exact ⟨heapTouched_refl _, alike_refl _⟩
    · rename_i item rest array
      have mem : item ∈ cur.array := by
        rw [array]
        exact List.mem_cons_self ..
      split at h
      · cases h
      · rename_i store₁ cur₁ tree hcall
        have done := unlinks _ _ _ _ _ _ hcall
        have touched := touched_of_cutsOut cuts hcall inside (Or.inr mem)
        rw [done.above] at h
        obtain ⟨touched', alike⟩ := ih (inside_parentAfter inside) h
        exact ⟨touched.trans touched', (alike_parentAfter item cur).trans alike⟩

/-- Each of the three ends of a call cuts the same item out. -/
theorem afterScopes_cutOut {fuel : Nat} {store : Store ν} {cur parent : Node} {p a : Addr}
    (cuts : CutsOut S (rtDeleteRange (ν := ν) true fuel)) (inside : Inside S cur)
    (ptr : cur.info.jsonptr = some a) (parentptr : cur.info.jsonparentptr = some p)
    (above : parent.info.jsonptr = some p) {r : Store ν × Node × Avl Node}
    (h : afterScopes true fuel store cur parent = some r) :
    ∃ mid, HeapTouched S store.heap mid ∧ r.1.heap = cutOut mid cur p a := by
  rw [afterScopes] at h
  split at h
  · rename_i array
    obtain ⟨⟨store₁, cur₁⟩, drained, rfl⟩ := Option.map_eq_some_iff.mp h
    obtain ⟨touched, alike⟩ :=
      drainItems_touched (rtDeleteRange_unlinks true fuel) cuts inside drained
    refine ⟨store₁.heap, touched, ?_⟩
    rw [cutOut, if_neg (notItem_of_array array.1), ← alike.same.scopeName]
    simp only [unlinkArray, above]
    rfl
  · split at h
    · rename_i level
      split at h
      · obtain rfl := Option.some.inj h
        refine ⟨store.heap, heapTouched_refl _, ?_⟩
        rw [cutOut, if_pos level]
        simp only [rtDeleteArrayItem, ptr, parentptr]
        rfl
      · cases h
    · rename_i level
      obtain rfl := Option.some.inj h
      refine ⟨store.heap, heapTouched_refl _, ?_⟩
      rw [cutOut, if_neg level]
      simp only [unlinkScope, parentptr]
      rfl

/-- `rt_deep_delete_range` of a node under its parent. -/
theorem rtDeleteRange_cutsOut (S : List Addr) (fuel : Nat) :
    CutsOut S (rtDeleteRange (ν := ν) true fuel) := by
  induction fuel with
  | zero =>
    intro store n parent r p a h
    cases h
  | succ fuel ih =>
    intro store n parent r p a h inside ptr parentptr above
    rw [rtDeleteRange_succ] at h
    split at h
    · cases h
    · obtain ⟨⟨store₁, cur⟩, drained, rest⟩ := Option.bind_eq_some_iff.mp h
      obtain ⟨touched, inside', alike⟩ :=
        drainScopes_touched (rtDeleteRange_unlinks true fuel) ih inside drained
      obtain ⟨mid, touched', last⟩ := afterScopes_cutOut ih inside' (alike.ptr.trans ptr)
        (alike.parentptr.trans parentptr) above rest
      refine ⟨mid, touched.trans touched', ?_⟩
      rw [last, cutOut_congr alike.same]

variable [DoubleText ν]

omit [DoubleText ν] in
/-- The call for an archive deletes its document. -/
theorem rtDeleteRange_archive {fuel : Nat} {store : Store ν} {n parent : Node}
    {r : Store ν × Node × Avl Node} (h : rtDeleteRange true fuel store n parent = some r)
    {a : Addr} (inside : Inside S n) (level : n.info.jsl = .archive)
    (ptr : n.info.jsonptr = some a) (parentptr : n.info.jsonparentptr = none) :
    ∃ mid, HeapTouched S store.heap mid ∧ r.1.heap = cjsonDelete mid a := by
  cases fuel with
  | zero => cases h
  | succ fuel =>
    rw [rtDeleteRange_succ] at h
    split at h
    · cases h
    · obtain ⟨⟨store₁, cur⟩, drained, rest⟩ := Option.bind_eq_some_iff.mp h
      obtain ⟨touched, inside', alike⟩ := drainScopes_touched (rtDeleteRange_unlinks true fuel)
        (rtDeleteRange_cutsOut S fuel) inside drained
      have level' : cur.info.jsl = .archive := alike.same.jsl.trans level
      have noArray : ¬ (cur.info.jsl = .array ∧ cur.array ≠ [] ∧ 0 < cur.info.arraysize) := by
        rw [level']
        rintro ⟨array, _⟩
        cases array
      have noItem : ¬ IsItem cur := by
        rw [IsItem, level']
        rintro (item | item) <;> cases item
      have last : afterScopes true fuel store₁ cur parent = some r := rest
      rw [afterScopes, if_neg noArray, if_neg noItem] at last
      obtain rfl := Option.some.inj last
      refine ⟨store₁.heap, touched, ?_⟩
      simp only [unlinkScope, alike.parentptr.trans parentptr, alike.ptr.trans ptr]
      rfl

omit [DoubleText ν] in
theorem deleteAllItems_touched {fuel k : Nat} {store store' : Store ν} {cur cur' : Node}
    (inside : Inside S cur) (h : deleteAllItems fuel k store cur = some (store', cur')) :
    HeapTouched S store.heap store'.heap ∧ Inside S cur' ∧ Alike cur cur' := by
  induction k generalizing store cur with
  | zero => cases h
  | succ k ih =>
    rw [deleteAllItems] at h
    split at h
    · split at h
      · cases h
      · rename_i item found
        split at h
        · cases h
        · rename_i store₁ cur₁ tree hcall
          have mem := mem_of_rtSeekArrayNode found
          have done := rtDeleteRange_unlinks true fuel _ _ _ _ _ _ hcall
          have touched := touched_of_cutsOut (rtDeleteRange_cutsOut S fuel) hcall inside
            (Or.inr mem)
          rw [done.above] at h
          obtain ⟨touched', inside', alike⟩ := ih (inside_parentAfter inside) h
          exact ⟨touched.trans touched', inside', (alike_parentAfter item cur).trans alike⟩
    · obtain ⟨rfl, rfl⟩ := Prod.mk.inj (Option.some.inj h)
      exact ⟨heapTouched_refl _, inside, alike_refl _⟩

end Calls

section Targets

/-- A refused deletion changes nothing. -/
theorem rtDelete_negative {fuel : Nat} {store : Store ν} {node parentnode : Node} {segm : Segment}
    {deleted : Deleted ν} (call : rtDelete fuel store node parentnode segm = some deleted)
    (negative : deleted.retval < 0) :
    deleted.store = store ∧ deleted.parentnode = parentnode := by
  cases rtDelete_cases call with
  | refused => exact ⟨rfl, rfl⟩
  | whole => exact absurd negative (Int.lt_irrefl 0)
  | archive => exact absurd negative (Int.lt_irrefl 0)
  | item => exact absurd negative (Int.lt_irrefl 0)
  | entire => exact absurd negative (Int.lt_irrefl 0)

/-- What `rt_delete` did when it was answered with success. -/
inductive DeleteDone (fuel : Nat) (store : Store ν) (c parent : Node) (segm : Segment)
    (deleted : Deleted ν) : Prop where
  | scope {store₁ : Store ν} {r : Store ν × Node × Avl Node}
      (level : c.info.jsl = .field ∨ c.info.jsl = .logicScope ∨ c.info.jsl = .archive)
      (level' : segm.jsl ≠ .array) (heap : store₁.heap = store.heap)
      (call : rtDeleteRange true fuel store₁ c parent = some r)
      (stored : deleted.store = r.1) (above : deleted.parentnode = r.2.1) :
      DeleteDone fuel store c parent segm deleted
  | entire {store₁ : Store ν} {c₁ : Node} {r : Store ν × Node × Avl Node}
      (level : c.info.jsl = .array) (index : segm.index = jaSymEntire)
      (drained : deleteAllItems fuel fuel store c = some (store₁, c₁))
      (call : rtDeleteRange true fuel store₁ c₁ parent = some r)
      (stored : deleted.store = r.1) (above : deleted.parentnode = r.2.1) :
      DeleteDone fuel store c parent segm deleted
  | item {k : Nat} {e : Node} {r : Store ν × Node × Avl Node} (level : c.info.jsl = .array)
      (place : placeOf c.info.arraysize segm.index = some k) (entered : c.follow (.item k) = some e)
      (call : rtDeleteRange true fuel store e c = some r) (stored : deleted.store = r.1)
      (above : deleted.parentnode = parent.modifyAt (fun _ => r.2.1) [.scope r.2.1.scopeKey]) :
      DeleteDone fuel store c parent segm deleted

/-- The target decides which of these it was. -/
theorem rtDelete_done {fuel : Nat} {store : Store ν} {c parent : Node} {segm : Segment}
    {deleted : Deleted ν} (target : Named c segm) (room : c.info.arraysize < jaSymLast)
    (h : rtDelete fuel store c parent segm = some deleted) (ok : 0 ≤ deleted.retval) :
    DeleteDone fuel store c parent segm deleted := by
  have symbols : (0 : Int) < jaSymLast ∧ jaSymLast < jaSymEntire := by decide
  cases rtDelete_cases h with
  | refused => cases ok
  | whole level text call =>
    rcases level with field | scope | ⟨array, negative⟩
    · cases target with
      | scope _ level' => exact .scope (Or.inl field) level' rfl call rfl rfl
      | item level => exact absurd (field.symm.trans level) (by decide)
      | entire level => exact absurd (field.symm.trans level) (by decide)
    · cases target with
      | scope _ level' => exact .scope (Or.inr (Or.inl scope)) level' rfl call rfl rfl
      | item level => exact absurd (scope.symm.trans level) (by decide)
      | entire level => exact absurd (scope.symm.trans level) (by decide)
    · cases target with
      | scope level => exact absurd array level
      | item _ _ place =>
        rw [placeOf, if_neg (by omega), if_neg (by omega)] at place
        cases place
      | entire _ _ _ index => omega
  | archive archive call =>
    cases target with
    | scope _ level' =>
      refine .scope (Or.inr (Or.inr archive)) level' ?_ call rfl rfl
      rfl
    | item level => exact absurd (archive.symm.trans level) (by decide)
    | entire level => exact absurd (archive.symm.trans level) (by decide)
  | @item which e c' store' tree array index found call =>
    have entered : ∀ k : Nat, which = k → c.follow (.item k) = some e := by
      rintro k rfl
      rwa [rtSeekArrayNode_eq_follow] at found
    cases target with
    | scope level => exact absurd array level
    | @item k level level' place =>
      refine .item array place (entered k ?_) call rfl rfl
      rw [placeOf] at place
      split at place
      · have same := Option.some.inj place
        omega
      · split at place
        · have same := Option.some.inj place
          omega
        · cases place
    | entire _ _ _ entire => omega
  | entire array index drained call =>
    cases target with
    | scope level => exact absurd array level
    | item => exact .entire array index drained call rfl rfl
    | entire => exact .entire array index drained call rfl rfl

end Targets

end DeleteDoc
