import Cfgd.AppendSteps
import Cfgd.UpdateCases

/-!
# The shape that every update keeps

A tree in which the nodes are where the searches look for them: scopes in key order,
items in arrays only, arrays without scopes, no array directly inside an array. Every
tree that the loader builds is of this shape, and every update leaves it so, whatever
it is asked to do.
-/

namespace RegularTree

open AvlTree CText CJson Request ConfigNode Loader FsImage Runtime DeleteRange DeleteTargets
open KeyShape Reach UpdateCases AppendSteps

variable {ν : Type}

/-- The levels at a distance from the root: directories, archives, and what is below them. -/
def AtDepth : Nat → Jsl → Prop
  | 0, jsl => jsl = .dir
  | 1, jsl => jsl = .dir
  | 2, jsl => jsl = .archive
  | _ + 3, jsl => jsl ≠ .archive

/-- What the shape says of a node at its distance from the root. -/
structure RegularHere (depth : Nat) (n : Node) : Prop where
  ordered : Ordered Node.scopeKey n.nextScope
  size : n.info.arraysize = n.array.length
  noItems : n.info.jsl ≠ .array → n.array = []
  noScopes : n.info.jsl = .array → n.nextScope = .nil
  level : ∀ c ∈ n.nextScope.toList, ¬ IsItem c
  elements : ∀ c ∈ n.array, c.info.jsl ≠ .array
  stands : AtDepth depth n.info.jsl

inductive Regular : Nat → Node → Prop where
  | mk {depth : Nat} {n : Node} (here : RegularHere depth n)
      (scopes : ∀ c ∈ n.nextScope.toList, Regular (depth + 1) c)
      (items : ∀ c ∈ n.array, Regular (depth + 1) c) : Regular depth n

namespace Regular
variable {depth : Nat} {n : Node}

theorem here : Regular depth n → RegularHere depth n
  | .mk here _ _ => here

theorem scopes : Regular depth n → ∀ c ∈ n.nextScope.toList, Regular (depth + 1) c
  | .mk _ scopes _ => scopes

theorem items : Regular depth n → ∀ c ∈ n.array, Regular (depth + 1) c
  | .mk _ _ items => items

theorem built (h : Regular depth n) : Built n := by
  induction h with
  | mk here _ _ scopes items =>
    exact .mk here.ordered here.size here.noItems here.noScopes here.level scopes items

theorem follow {c : Node} {s : Step} (h : Regular depth n) (found : n.follow s = some c) :
    Regular (depth + 1) c := by
  rcases mem_of_follow found with mem | mem
  · exact h.scopes c mem
  · exact h.items c mem

theorem getAt {m : Node} {path : Path} (h : Regular depth n) (there : n.getAt path = some m) :
    Regular (depth + path.length) m := by
  induction path generalizing depth n with
  | nil =>
    obtain rfl := Option.some.inj there
    exact h
  | cons s rest ih =>
    rw [Node.getAt] at there
    obtain ⟨c, hc, below⟩ := Option.bind_eq_some_iff.mp there
    have further := ih (h.follow hc) below
    rwa [List.length_cons, Nat.add_comm rest.length, ← Nat.add_assoc]

end Regular

section Edits
variable {depth : Nat}

/-- A node with nothing below it. -/
theorem regular_leaf {n : Node} (tree : n.nextScope = .nil) (array : n.array = [])
    (size : n.info.arraysize = 0) (stands : AtDepth depth n.info.jsl) : Regular depth n := by
  refine .mk ⟨?_, ?_, fun _ => array, fun _ => tree, ?_, ?_, stands⟩ ?_ ?_
  · rw [tree]
    exact ordered_nil _
  · rw [size, array]
    rfl
  · rw [tree]
    exact nofun
  · rw [array]
    exact nofun
  · rw [tree]
    exact nofun
  · rw [array]
    exact nofun

theorem regular_setInfo {n : Node} (h : Regular depth n) {change : NodeInfo → NodeInfo}
    (jsl : (change n.info).jsl = n.info.jsl)
    (size : (change n.info).arraysize = n.info.arraysize) : Regular depth (n.setInfo change) := by
  obtain ⟨⟨ordered, count, noItems, noScopes, level, elements, stands⟩, scopes, items⟩ := h
  obtain ⟨info, tree, array⟩ := n
  refine .mk ⟨ordered, ?_, ?_, ?_, level, elements, ?_⟩ scopes items
  · exact size.trans count
  · exact fun other => noItems (jsl ▸ other)
  · exact fun isArray => noScopes (jsl ▸ isArray)
  · rw [Node.info_setInfo, jsl]
    exact stands

theorem regular_insertScope {n c : Node} (h : Regular depth n) (child : Regular (depth + 1) c)
    (level : ¬ IsItem c) (notArray : n.info.jsl ≠ .array) : Regular depth (insertScope n c) := by
  have ordered := h.here.ordered
  have mem : ∀ c' ∈ (insertScope n c).nextScope.toList, c' = c ∨ c' ∈ n.nextScope.toList := by
    intro c' hc'
    rw [insertScope, Node.nextScope_setNextScope, toList_avlinsert Node.scopeKey ordered] at hc'
    exact mem_insertOrd Node.scopeKey hc'
  refine .mk ⟨ordered_insertScope ordered c, ?_, ?_, ?_, ?_, ?_, ?_⟩ ?_ ?_
  · rw [insertScope_info, insertScope_array]
    exact h.here.size
  · rw [insertScope_info, insertScope_array]
    exact h.here.noItems
  · rw [insertScope_info]
    exact fun isArray => absurd isArray notArray
  · intro c' hc'
    rcases mem c' hc' with rfl | old
    · exact level
    · exact h.here.level c' old
  · rw [insertScope_array]
    exact h.here.elements
  · rw [insertScope_info]
    exact h.here.stands
  · intro c' hc'
    rcases mem c' hc' with rfl | old
    · exact child
    · exact h.scopes c' old
  · rw [insertScope_array]
    exact h.items

theorem regular_removeScope {n : Node} (h : Regular depth n) (name : Bytes) :
    Regular depth (removeScope n name) := by
  have ordered := h.here.ordered
  have mem : ∀ c ∈ (removeScope n name).nextScope.toList, c ∈ n.nextScope.toList := by
    intro c hc
    rw [removeScope, Node.nextScope_setNextScope, toList_avlremove Node.scopeKey ordered] at hc
    exact (List.mem_filter.mp hc).1
  refine .mk ⟨ordered_removeScope ordered name, ?_, ?_, ?_, ?_, ?_, ?_⟩ ?_ ?_
  · rw [removeScope_info, removeScope_array]
    exact h.here.size
  · rw [removeScope_info, removeScope_array]
    exact h.here.noItems
  · rw [removeScope_info, removeScope, Node.nextScope_setNextScope]
    intro isArray
    rw [h.here.noScopes isArray]
    rfl
  · exact fun c hc => h.here.level c (mem c hc)
  · rw [removeScope_array]
    exact h.here.elements
  · rw [removeScope_info]
    exact h.here.stands
  · exact fun c hc => h.scopes c (mem c hc)
  · rw [removeScope_array]
    exact h.items

/-- Other items in an array, and the count that goes with them. -/
theorem regular_withItems {n n' : Node} (h : Regular depth n) (tree : n'.nextScope = n.nextScope)
    (jsl : n'.info.jsl = n.info.jsl) (isArray : n.info.jsl = .array)
    (size : n'.info.arraysize = n'.array.length)
    (items : ∀ c ∈ n'.array, Regular (depth + 1) c ∧ c.info.jsl ≠ .array) : Regular depth n' := by
  refine .mk ⟨?_, size, ?_, ?_, ?_, fun c hc => (items c hc).2, ?_⟩ ?_ fun c hc => (items c hc).1
  · rw [tree]
    exact h.here.ordered
  · rw [jsl]
    exact fun other => absurd isArray other
  · rw [jsl, tree]
    exact h.here.noScopes
  · rw [tree]
    exact h.here.level
  · rw [jsl]
    exact h.here.stands
  · rw [tree]
    exact h.scopes

theorem regular_addItem {n c : Node} (h : Regular depth n) (isArray : n.info.jsl = .array)
    (child : Regular (depth + 1) c) (level : c.info.jsl ≠ .array) :
    Regular depth (addItem n c) := by
  refine regular_withItems h (by simp [addItem]) (by simp [addItem]) isArray ?_ ?_
  · have size := h.here.size
    simp [addItem, size]
  · intro c' hc'
    have cases : c' ∈ n.array ∨ c' = c := by simpa [addItem] using hc'
    rcases cases with old | rfl
    · exact ⟨h.items c' old, h.here.elements c' old⟩
    · exact ⟨child, level⟩

/-- An item that is in the array is taken out of it. -/
theorem regular_dropItem {n c : Node} (h : Regular depth n) (mem : c ∈ n.array) :
    Regular depth (dropItem n c) := by
  have isArray := (h.built.array_branch (List.ne_nil_of_mem mem)).1
  have inside : n.array.findIdx (fun m => m.info.ident = c.info.ident) < n.array.length :=
    List.findIdx_lt_length_of_exists ⟨c, mem, decide_eq_true rfl⟩
  refine regular_withItems h (by simp [dropItem]) (by simp [dropItem]) isArray ?_ ?_
  · have size := h.here.size
    simp only [dropItem, Node.info_setInfo, Node.info_setArray, Node.array_setInfo,
      Node.array_setArray, List.length_append, List.length_take, List.length_map,
      List.length_drop, size]
    omega
  · intro c' hc'
    simp only [dropItem, Node.array_setInfo, Node.array_setArray, List.mem_append,
      List.mem_map] at hc'
    rcases hc' with before | ⟨d, after, rfl⟩
    · have old := List.mem_of_mem_take before
      exact ⟨h.items c' old, h.here.elements c' old⟩
    · have old := List.mem_of_mem_drop after
      refine ⟨regular_setInfo (h.items d old) rfl rfl, ?_⟩
      rw [decreaseIndex_jsl]
      exact h.here.elements d old

/-- A write that keeps the name and the level of the node it is made to. -/
theorem regular_modifyAt {n m : Node} {path : Path} {write : Node → Node} (h : Regular depth n)
    (there : n.getAt path = some m) (written : Regular (depth + path.length) (write m))
    (key : (write m).scopeKey = m.scopeKey) (jsl : (write m).info.jsl = m.info.jsl) :
    Regular depth (n.modifyAt write path) ∧ (n.modifyAt write path).info.jsl = n.info.jsl := by
  induction path generalizing depth n with
  | nil =>
    obtain rfl := Option.some.inj there
    exact ⟨written, jsl⟩
  | cons s rest ih =>
    have info : (n.modifyAt write (s :: rest)).info = n.info := modifyAt_info
    refine ⟨?_, by rw [info]⟩
    rw [Node.getAt] at there
    obtain ⟨c, hc, below⟩ := Option.bind_eq_some_iff.mp there
    rw [List.length_cons, Nat.add_comm rest.length, ← Nat.add_assoc] at written
    obtain ⟨regular, sameJsl⟩ := ih (h.follow hc) below written
    have keepsKey : (c.modifyAt write rest).scopeKey = c.scopeKey := by
      apply scopeKey_modifyAt
      intro m' hm'
      obtain rfl := Option.some.inj (below.symm.trans hm')
      exact key
    obtain ⟨ordered, size, noItems, noScopes, level, elements, stands⟩ := h.here
    obtain ⟨i, tree, array⟩ := n
    simp only [Node.nextScope_mk, Node.info_mk, Node.array_mk] at ordered size noItems noScopes
    cases s with
    | scope name =>
      have found : avlsearch Node.scopeKey tree name = some c := hc
      have mem := mem_of_avlsearch Node.scopeKey found
      have keeps : ∀ x, avlsearch Node.scopeKey tree name = some x →
          (x.modifyAt write rest).scopeKey = x.scopeKey := by
        intro x hx
        obtain rfl := Option.some.inj (found.symm.trans hx)
        exact keepsKey
      have scopes : ∀ c' ∈ (modify Node.scopeKey (fun c => c.modifyAt write rest) tree name).toList,
          c' ∈ tree.toList ∨ c' = c.modifyAt write rest := by
        intro c' hc'
        rw [toList_modify Node.scopeKey ordered] at hc'
        obtain ⟨d, hd, rfl⟩ := List.mem_map.mp hc'
        split
        · rename_i named
          have same : avlsearch Node.scopeKey tree name = some d :=
            named ▸ (mem_toList_iff Node.scopeKey ordered).mp hd
          obtain rfl := Option.some.inj (found.symm.trans same)
          exact Or.inr rfl
        · exact Or.inl hd
      refine .mk ⟨ordered_modify Node.scopeKey keeps ordered, size, noItems, ?_, ?_, elements,
        stands⟩ ?_ h.items
      · intro isArray
        have none : tree = .nil := noScopes isArray
        rw [none] at mem
        cases mem
      · intro c' hc'
        rcases scopes c' hc' with old | rfl
        · exact level c' old
        · have was := level c mem
          rw [IsItem] at was ⊢
          rwa [sameJsl]
      · intro c' hc'
        rcases scopes c' hc' with old | rfl
        · exact h.scopes c' old
        · exact regular
    | item k =>
      have found : array[k]? = some c := hc
      have mem := List.mem_of_getElem? found
      have items : ∀ c' ∈ array.modify k (fun c => c.modifyAt write rest),
          c' ∈ array ∨ c' = c.modifyAt write rest := by
        intro c' hc'
        obtain ⟨j, hj⟩ := List.getElem?_of_mem hc'
        rw [List.getElem?_modify] at hj
        obtain ⟨d, hd, rfl⟩ := Option.map_eq_some_iff.mp hj
        split
        · rename_i same
          subst same
          obtain rfl := Option.some.inj (found.symm.trans hd)
          exact Or.inr rfl
        · exact Or.inl (List.mem_of_getElem? hd)
      refine .mk ⟨ordered, ?_, ?_, noScopes, level, ?_, stands⟩ h.scopes ?_
      · simpa [Node.modifyAt] using size
      · intro other
        have none : array = [] := noItems other
        rw [none] at mem
        cases mem
      · intro c' hc'
        rcases items c' hc' with old | rfl
        · exact elements c' old
        · rw [sameJsl]
          exact elements c mem
      · intro c' hc'
        rcases items c' hc' with old | rfl
        · exact h.items c' old
        · exact regular

end Edits

section Appending
variable {depth : Nat}

/-- The segments that can be appended at a distance from the root: an archive under a
directory, and no archive below one. -/
def SegmsFit (depth : Nat) (segms : List Segment) : Prop :=
  (2 ≤ depth ∧ ∀ segm ∈ segms, segm.jsl ≠ .archive) ∨
    (depth = 1 ∧ ∃ segm rest, segms = segm :: rest ∧ segm.jsl = .archive ∧
      ∀ segm ∈ rest, segm.jsl ≠ .archive)

theorem atDepth_inner {jsl : Jsl} (deep : 2 ≤ depth) (h : jsl ≠ .archive) :
    AtDepth (depth + 1) jsl := by
  obtain ⟨k, rfl⟩ := Nat.exists_eq_add_of_le' deep
  exact h

theorem regular_newNode (item : Item ν) (parent : Node) (scopeName scopeValue : Bytes) {jsl : Jsl}
    (deep : 2 ≤ depth) (h : jsl ≠ .archive) :
    Regular (depth + 1) (newNode item parent scopeName scopeValue jsl) :=
  regular_leaf rfl rfl rfl (atDepth_inner deep h)

theorem not_isItem {n : Node} {jsl : Jsl} (level : n.info.jsl = jsl) (h : jsl ≠ .arrayItem)
    (h' : jsl ≠ .arrayItemAsField) : ¬ IsItem n := by
  rw [IsItem, level]
  exact not_or.mpr ⟨h, h'⟩

/-- What `rt_append` leaves is regular. -/
theorem regular_rtAppend (v : Bytes) (store : Store ν) {node : Node} (segms : List Segment)
    (h : Regular depth node) (levels : SegmsFit depth segms)
    (fits : node.info.jsl = .array → ∀ segm ∈ segms.head?, segm.jsl = .array) :
    Regular depth (rtAppend v store node segms).node := by
  induction segms generalizing store node depth with
  | nil => exact h
  | cons segm rest ih =>
    have inner : segm.jsl ≠ .archive → 2 ≤ depth ∧ SegmsFit (depth + 1) rest := by
      intro other
      rcases levels with ⟨deep, all⟩ | ⟨_, _, _, same, archive, _⟩
      · exact ⟨deep, Or.inl ⟨Nat.le_succ_of_le deep, fun s hs => all s (List.mem_cons_of_mem _ hs)⟩⟩
      · obtain ⟨rfl, _⟩ := List.cons.inj same
        exact absurd archive other
    -- an array that takes the segment, be it new or not
    have extended : ∀ {depth : Nat} (store : Store ν) (array : Node), 2 ≤ depth →
        SegmsFit (depth + 1) rest → Regular depth array →
        array.info.jsl = .array → Regular depth (addTo v store array rest).node := by
      intro depth store array deep further regular isArray
      rw [addTo]
      split
      · exact regular_addItem regular isArray
          (regular_newNode _ _ _ _ deep (by rintro ⟨⟩)) (by rintro ⟨⟩)
      · have level : (rtAllocateArrayItem store array).2.info.jsl ≠ .array := by rintro ⟨⟩
        refine regular_addItem regular isArray
          (ih _ (regular_newNode _ _ _ _ deep (by simp)) further fun isArray' => ?_) ?_
        · exact absurd isArray' level
        · rw [(rtAppend_kept ..).2.1]
          exact level
    rcases segm with ⟨name, index, level⟩
    have notArray : level ≠ .array → node.info.jsl ≠ .array :=
      fun other isArray => other (fits isArray _ rfl)
    cases level with
    | dir => exact h
    | arrayItem => exact h
    | arrayItemAsField => exact h
    | field =>
      rw [rtAppend_field]
      have deep := (inner (by simp)).1
      refine regular_insertScope h (regular_newNode _ _ _ _ deep (by simp)) ?_ (notArray (by simp))
      exact not_isItem rfl (by rintro ⟨⟩) (by rintro ⟨⟩)
    | logicScope =>
      rw [rtAppend_scope]
      obtain ⟨deep, further⟩ := inner (by simp)
      have level : (rtAllocateLogicScope store node name).2.info.jsl = .logicScope := rfl
      refine regular_insertScope h
        (ih _ (regular_newNode _ _ _ _ deep (by simp)) further fun isArray => ?_) ?_
        (notArray (by simp))
      · rw [level] at isArray
        cases isArray
      · exact not_isItem ((rtAppend_kept ..).2.1.trans level) (by simp) (by simp)
    | archive =>
      have top : depth = 1 ∧ SegmsFit 2 rest := by
        rcases levels with ⟨_, all⟩ | ⟨here, _, _, same, _, below⟩
        · exact absurd rfl (all _ (List.mem_cons_self ..))
        · obtain ⟨_, rfl⟩ := List.cons.inj same
          exact ⟨here, Or.inl ⟨Nat.le_refl 2, below⟩⟩
      obtain ⟨rfl, further⟩ := top
      rw [rtAppend_archive]
      split
      · exact h
      · split
        · exact h
        · rename_i fs fsSection _ archive made
          simp only [archiveNode] at made
          split at made
          · cases made
          · obtain rfl := Option.some.inj made
            rw [makeArchive]
            refine regular_insertScope h
              (ih _ (regular_leaf rfl rfl rfl rfl) further fun isArray => ?_) ?_
              (notArray (by simp))
            · cases isArray
            · exact not_isItem (rtAppend_kept ..).2.1 (by simp) (by simp)
    | array =>
      obtain ⟨deep, further⟩ := inner (by simp)
      rw [rtAppend_array]
      split
      · split
        · rename_i isArray
          exact extended store node deep further h isArray
        · rename_i other
          have further' : SegmsFit (depth + 1 + 1) rest := by
            rcases further with ⟨_, all⟩ | ⟨top, _⟩
            · exact Or.inl ⟨by omega, all⟩
            · omega
          rw [makeArray]
          have kept : ∀ (store : Store ν) (array : Node),
              (addTo v store array rest).node.info.jsl = array.info.jsl := by
            intro store array
            rw [addTo]
            split <;> simp [addItem]
          have level : (rtAllocateArray store node name).2.info.jsl = .array := rfl
          split
          · refine regular_insertScope h (extended _ _ (Nat.le_succ_of_le deep) further'
              (regular_newNode _ _ _ _ deep (by simp)) rfl) ?_ other
            exact not_isItem ((kept _ _).trans level) (by simp) (by simp)
          · refine regular_insertScope h (regular_newNode _ _ _ _ deep (by simp)) ?_ other
            exact not_isItem level (by simp) (by simp)
      · exact h

end Appending

section Deleting

theorem regular_parentAfter {depth : Nat} {n parent : Node} (h : Regular depth parent)
    (inside : IsItem n → n ∈ parent.array) : Regular depth (parentAfter n parent) := by
  rw [parentAfter]
  split
  · exact regular_dropItem h (inside ‹_›)
  · exact regular_removeScope h _

/-- The loop over all items leaves the array what it is. -/
theorem deleteAllItems_same {fuel k : Nat} {store store' : Store ν} {node node' : Node}
    (h : deleteAllItems fuel k store node = some (store', node')) : Same node node' := by
  induction k generalizing store node with
  | zero => cases h
  | succ k ih =>
    rw [deleteAllItems] at h
    split at h
    · split at h
      · cases h
      · split at h
        · cases h
        · rename_i item _ _ _ _ _ call
          have done := rtDeleteRange_unlinks true fuel _ _ _ _ _ _ call
          have step := same_parentAfter item node
          rw [← done.above] at step
          exact step.trans (ih h)
    · obtain ⟨rfl, rfl⟩ := Prod.mk.inj (Option.some.inj h)
      exact same_refl _

/-- What `rt_delete` makes of the parent of the node: nothing, the parent without the node,
or the parent of an array with one item less. -/
inductive Reduced (n parent : Node) : Node → Prop where
  | unchanged : Reduced n parent parent
  | gone : Reduced n parent (removeScope parent n.info.scopeName)
  | item {e : Node} (level : n.info.jsl = .array) (mem : e ∈ n.array) :
      Reduced n parent
        (parent.modifyAt (fun _ => parentAfter e n) [.scope (parentAfter e n).scopeKey])

theorem rtDelete_reduced {fuel : Nat} {store : Store ν} {n parent : Node} {segm : Segment}
    {deleted : Deleted ν} (level : ¬ IsItem n)
    (h : rtDelete fuel store n parent segm = some deleted) :
    Reduced n parent deleted.parentnode := by
  have gone : ∀ {store store' : Store ν} {n' parent' : Node} {tree : Avl Node}, Same n n' →
      rtDeleteRange true fuel store n' parent = some (store', parent', tree) →
        Reduced n parent parent' := by
    intro store store' n' parent' tree same call
    have above := (rtDeleteRange_unlinks true fuel _ _ _ _ _ _ call).above
    rw [(parentAfter_congr same parent).1, parentAfter, if_neg level] at above
    exact above ▸ .gone
  cases rtDelete_cases h with
  | refused => exact .unchanged
  | whole _ _ call => exact gone (same_refl n) call
  | archive _ call => exact gone (same_refl n) call
  | item isArray index found call =>
    have above := (rtDeleteRange_unlinks true fuel _ _ _ _ _ _ call).above
    subst above
    exact .item isArray (mem_of_rtSeekArrayNode found)
  | entire _ _ drained call => exact gone (deleteAllItems_same drained) call

theorem scopeKey_of_same {n n' : Node} (same : Same n n') : n'.scopeKey = n.scopeKey := by
  rw [Node.scopeKey, same.scopeName, Node.scopeKey]

/-- The parent stays regular, and keeps its members and its items. -/
theorem regular_reduced {depth : Nat} {n parent parent' : Node} {key : Bytes}
    (h : Regular depth parent) (found : parent.follow (.scope key) = some n)
    (reduced : Reduced n parent parent') :
    Regular depth parent' ∧ parent'.info = parent.info ∧ parent'.array = parent.array := by
  cases reduced with
  | unchanged => exact ⟨h, rfl, rfl⟩
  | gone => exact ⟨regular_removeScope h _, removeScope_info parent _, removeScope_array parent _⟩
  | @item e isArray mem =>
    have same := same_parentAfter e n
    have key' := key_of_avlsearch Node.scopeKey found
    have keys := scopeKey_of_same same
    have there : parent.getAt [.scope (parentAfter e n).scopeKey] = some n := by
      rw [keys, key', Node.getAt, found]
      rfl
    have regular := regular_parentAfter (h.scopes n (mem_of_avlsearch Node.scopeKey found))
      fun _ => mem
    refine ⟨(@regular_modifyAt _ _ _ _ (fun _ => parentAfter e n) h there regular keys same.jsl).1,
      modifyAt_info, ?_⟩
    simp [Node.modifyAt]

end Deleting

section Updating
variable [DoubleText ν]

theorem regular_setValue {depth : Nat} {n : Node} (h : Regular depth n) (v : Bytes) (ptr : Addr) :
    Regular depth (setValue v ptr n) := regular_setInfo h rfl rfl

/-- `rt_field_update` writes to the members of the node at most. -/
theorem rtFieldUpdate_node (store : Store ν) (node : Node) (v : Bytes) :
    (rtFieldUpdate store node v).2.1 = node ∨
      ∃ ptr, (rtFieldUpdate store node v).2.1 = setValue v ptr node := by
  rw [rtFieldUpdate]
  split
  · split
    · exact Or.inl rfl
    · split
      · exact Or.inl rfl
      · split
        · exact Or.inl rfl
        · exact Or.inr ⟨_, rfl⟩
  · exact Or.inl rfl

/-- `rt_array_field_update` writes to one item at most. -/
theorem rtArrayFieldUpdate_node (store : Store ν) (node : Node) (which : Int) (v : Bytes) :
    (rtArrayFieldUpdate store node which v).2.1 = node ∨
      ∃ k e ptr, node.array[k]? = some e ∧ (rtArrayFieldUpdate store node which v).2.1 =
        node.modifyAt (setValue v ptr) [.item k] := by
  rw [rtArrayFieldUpdate]
  split
  · exact Or.inl rfl
  · split
    · exact Or.inl rfl
    · dsimp only
      generalize (if node.info.arraysize ≤ which then node.info.arraysize - 1 else which) = offset
      cases found : rtSeekArrayNode node offset with
      | none => exact Or.inl rfl
      | some e =>
        dsimp only
        split
        · exact Or.inl rfl
        · split
          · exact Or.inl rfl
          · rw [rtSeekArrayNode] at found
            split at found
            · cases found
            · exact Or.inr ⟨_, e, _, found, rfl⟩

/-- A value that is written leaves the shape, the name and the level. -/
theorem regular_rtFieldUpdate {depth : Nat} {n : Node} (h : Regular depth n) (store : Store ν)
    (v : Bytes) : Regular depth (rtFieldUpdate store n v).2.1 ∧
      (rtFieldUpdate store n v).2.1.scopeKey = n.scopeKey ∧
      (rtFieldUpdate store n v).2.1.info.jsl = n.info.jsl := by
  rcases rtFieldUpdate_node store n v with same | ⟨ptr, same⟩
  · rw [same]
    exact ⟨h, rfl, rfl⟩
  · rw [same]
    refine ⟨regular_setValue h v ptr, ?_, ?_⟩
    · simp [setValue, Node.scopeKey]
    · simp [setValue]

theorem regular_rtArrayFieldUpdate {depth : Nat} {n : Node} (h : Regular depth n)
    (store : Store ν) (which : Int) (v : Bytes) :
    Regular depth (rtArrayFieldUpdate store n which v).2.1 ∧
      (rtArrayFieldUpdate store n which v).2.1.scopeKey = n.scopeKey ∧
      (rtArrayFieldUpdate store n which v).2.1.info.jsl = n.info.jsl := by
  rcases rtArrayFieldUpdate_node store n which v with same | ⟨k, e, ptr, found, same⟩
  · rw [same]
    exact ⟨h, rfl, rfl⟩
  · have there : n.getAt [.item k] = some e := by
      rw [Node.getAt, Node.follow, found]
      rfl
    have regular := regular_setValue (h.items e (List.mem_of_getElem? found)) v ptr
    obtain ⟨after, jsl⟩ := regular_modifyAt h there regular (by simp [setValue, Node.scopeKey])
      (by simp [setValue])
    rw [same]
    refine ⟨after, ?_, jsl⟩
    rw [Node.scopeKey, modifyAt_info, Node.scopeKey]

/-- The way of a key never ends at an array. -/
theorem notArray_of_walks {n m : Node} {segms passed left : List Segment} {path : Path}
    {depth : Nat} (walk : Walks n segms path passed m left) (h : Regular depth n)
    (level : n.info.jsl ≠ .array) : m.info.jsl ≠ .array := by
  induction walk generalizing depth with
  | stop n segms => exact level
  | scope found level' _ _ ih => exact ih (h.scopes _ (mem_of_avlsearch Node.scopeKey found)) level'
  | item found _ _ _ entered _ ih =>
    have array := h.scopes _ (mem_of_avlsearch Node.scopeKey found)
    have mem := List.mem_of_getElem? entered
    exact ih (array.items _ mem) (array.here.elements _ mem)

theorem noArchive_below {segms : List Segment} (below : Below segms) :
    ∀ segm ∈ segms, segm.jsl ≠ .archive := by
  induction below with
  | field fits => simp
  | array fits range => simp
  | scope fits below ih => simpa using ih
  | item fits range single below ih => simpa using ih

/-- Where the way of an accepted key stops, what is left of it fits. -/
theorem segmsFit_of_walks {n m : Node} {segms passed rest : List Segment} {path : Path}
    {segm : Segment} (accepted : AcceptedKey segms)
    (walk : Walks n segms path passed m (segm :: rest)) (started : path ≠ []) :
    SegmsFit path.length (segm :: rest) := by
  cases accepted with
  | dir fits =>
    cases walk with
    | stop => exact absurd rfl started
    | scope found level level' further => cases further
    | item found level level' => cases level'
  | archive fits fits' =>
    cases walk with
    | stop => exact absurd rfl started
    | item found level level' => cases level'
    | scope found level level' further =>
      cases further with
      | stop => exact Or.inr ⟨rfl, _, _, rfl, rfl, nofun⟩
      | item found level level' => cases level'
      | scope found level level' further => cases further
  | below fits fits' below =>
    have inner := noArchive_below below
    cases walk with
    | stop => exact absurd rfl started
    | item found level level' => cases level'
    | scope found level level' further =>
      cases further with
      | stop => exact Or.inr ⟨rfl, _, _, rfl, rfl, inner⟩
      | item found level level' => cases level'
      | scope found level level' further =>
        refine Or.inl ⟨by simp, fun s hs => inner s ((suffix_of_walks further).subset hs)⟩

/-- An array takes a segment for an item one step further down. -/
theorem segmsFit_array {n m : Node} {segms passed rest : List Segment} {path : Path}
    {segm : Segment} (accepted : AcceptedKey segms)
    (walk : Walks n segms path passed m (segm :: rest)) (level : segm.jsl = .array) :
    SegmsFit (path.length + 1) (segm :: rest) := by
  have started : path ≠ [] := by
    rintro rfl
    cases walk
    cases accepted <;> cases level
  rcases segmsFit_of_walks accepted walk started with ⟨deep, all⟩ | ⟨_, _, _, same, archive, _⟩
  · exact Or.inl ⟨Nat.le_succ_of_le deep, all⟩
  · obtain ⟨rfl, _⟩ := List.cons.inj same
    rw [level] at archive
    cases archive

variable {world : World ν}

theorem regular_at {n m : Node} {path : Path} (h : Regular 0 n) (there : n.getAt path = some m) :
    Regular path.length m := by
  have below := h.getAt there
  rwa [Nat.zero_add] at below

omit [DoubleText ν] in
/-- A write to the tree, at its root or below. -/
theorem regular_world {path : Path} {m m' : Node} (h : Regular 0 (rootNode world.root))
    (there : (rootNode world.root).getAt path = some m) (written : Regular path.length m')
    (info : m'.info = m.info ∧ m'.array = m.array ∨
      path ≠ [] ∧ m'.scopeKey = m.scopeKey ∧ m'.info.jsl = m.info.jsl) (store : Store ν) :
    rootNode (world.modifyAt (fun _ => m') path store).root =
        (rootNode world.root).modifyAt (fun _ => m') path ∧
      Regular 0 (rootNode (world.modifyAt (fun _ => m') path store).root) := by
  have same : rootNode (world.modifyAt (fun _ => m') path store).root =
      (rootNode world.root).modifyAt (fun _ => m') path := by
    cases path with
    | nil =>
      obtain rfl := Option.some.inj there
      rcases info with ⟨sameInfo, sameArray⟩ | ⟨started, _⟩
      · obtain ⟨i, tree, array⟩ := m'
        obtain rfl : i = .blank 0 := sameInfo
        obtain rfl : array = [] := sameArray
        rfl
      · exact absurd rfl started
    | cons s rest => exact rootNode_modifyAt world _ (List.cons_ne_nil s rest) store
  have kept : m'.scopeKey = m.scopeKey ∧ m'.info.jsl = m.info.jsl := by
    rcases info with ⟨sameInfo, _⟩ | ⟨_, key, jsl⟩
    · rw [Node.scopeKey, Node.scopeKey, sameInfo]
      exact ⟨rfl, rfl⟩
    · exact ⟨key, jsl⟩
  refine ⟨same, ?_⟩
  rw [same]
  exact (@regular_modifyAt _ _ _ _ (fun _ => m') h there (by rwa [Nat.zero_add]) kept.1 kept.2).1

/-- Every update, whatever its answer, leaves a regular tree. -/
theorem regular_update {jrp : Jrp} {u : Updated ν} (h : Regular 0 (rootNode world.root))
    (accepted : AcceptedKey jrp.segm) (done : rtConfigUpdate world jrp = some u) :
    Regular 0 (rootNode u.world.root) := by
  cases value : jrp.valuestring with
  | none =>
    rw [rtConfigUpdate, value] at done
    obtain rfl := Option.some.inj done
    exact h
  | some v =>
    cases update_cases h.built accepted value done with
    | refused archive => exact h
    | @delete path passed n c segm walk found target keyword deleted call checkpoints archive =>
      have there := getAt_of_walks walk
      have regular := regular_at h there
      have level := regular.here.level c (mem_of_avlsearch Node.scopeKey found)
      obtain ⟨after, info, array⟩ := regular_reduced regular found (rtDelete_reduced level call)
      exact (regular_world h there after (Or.inl ⟨info, array⟩) _).2
    | @field path passed n c segm walk found level level' notDeleted archive =>
      have there := getAt_member walk found
      obtain ⟨after, key, jsl⟩ := regular_rtFieldUpdate (regular_at h there) world.store v
      exact (regular_world h there after (Or.inr ⟨by simp, key, jsl⟩) _).2
    | @item path passed n c segm walk found level level' place notDeleted archive =>
      have there := getAt_member walk found
      obtain ⟨after, key, jsl⟩ := regular_rtArrayFieldUpdate (regular_at h there) world.store
        segm.index v
      exact (regular_world h there after (Or.inr ⟨by simp, key, jsl⟩) _).2
    | @missing path passed rest m segm walk started missing level noFile notDeleted archive =>
      have there := getAt_of_walks walk
      have notArray := notArray_of_walks walk h (by rintro ⟨⟩)
      have after := regular_rtAppend v world.store (segm :: rest) (regular_at h there)
        (segmsFit_of_walks accepted walk started) fun isArray => absurd isArray notArray
      have kept := rtAppend_kept v world.store m (segm :: rest)
      exact (regular_world h there after
        (Or.inr ⟨started, scopeKey_rtAppend .., kept.2.1⟩) _).2
    | @extend path passed rest m c segm walk found level level' next notDeleted archive =>
      have there := getAt_member walk found
      have fits := segmsFit_array accepted walk level'
      have after := regular_rtAppend v world.store (segm :: rest) (regular_at h there)
        (by rwa [List.length_append]) fun _ => by
          rintro _ ⟨⟩
          exact level'
      have kept := rtAppend_kept v world.store c (segm :: rest)
      exact (regular_world h there after
        (Or.inr ⟨by simp, scopeKey_rtAppend .., kept.2.1⟩) _).2

end Updating

end RegularTree
