import Cfgd.Levels

/-!
# Appending, segment by segment

`rt_append` makes a node for each segment of a key from the first missing one on.
Here is what it does for a segment of each level, and that its node differs from the
one it was called for in one child only: a new scope, or a new item of an array.
-/

namespace AppendSteps

open AvlTree CText CJson Request ConfigNode Loader FsImage Runtime DeleteRange KeyShape Levels

variable {ν : Type}

section Equations
variable (valuestring : Bytes) (store : Store ν) (node : Node) (name : Bytes) (index : Int)
variable (rest : List Segment)

theorem rtAppend_field : rtAppend valuestring store node (⟨name, index, .field⟩ :: rest) =
    ⟨(rtAllocateField store node name valuestring).1,
      insertScope node (rtAllocateField store node name valuestring).2, 0, none⟩ := by
  rw [rtAppend]

theorem rtAppend_scope : rtAppend valuestring store node (⟨name, index, .logicScope⟩ :: rest) =
    { rtAppend valuestring (rtAllocateLogicScope store node name).1
        (rtAllocateLogicScope store node name).2 rest with
      node := insertScope node (rtAppend valuestring (rtAllocateLogicScope store node name).1
        (rtAllocateLogicScope store node name).2 rest).node } := by
  rw [rtAppend]

/-- A new item at the end of an array: the value itself, or the first node of what follows. -/
def addTo : Appended ν :=
  if rest = [] then
    ⟨(rtAllocateArrayField store node valuestring).1,
      addItem node (rtAllocateArrayField store node valuestring).2, 0, none⟩
  else
    { rtAppend valuestring (rtAllocateArrayItem store node).1
        (rtAllocateArrayItem store node).2 rest with
      node := addItem node (rtAppend valuestring (rtAllocateArrayItem store node).1
        (rtAllocateArrayItem store node).2 rest).node }

/-- An array, when there is none under the name. -/
def makeArray : Appended ν :=
  if appendable (rtAllocateArray store node name).2 ⟨name, index, .array⟩ then
    { addTo valuestring (rtAllocateArray store node name).1 (rtAllocateArray store node name).2
        rest with
      node := insertScope node (addTo valuestring (rtAllocateArray store node name).1
        (rtAllocateArray store node name).2 rest).node }
  else ⟨(rtAllocateArray store node name).1,
    insertScope node (rtAllocateArray store node name).2, -1, none⟩

theorem rtAppend_array : rtAppend valuestring store node (⟨name, index, .array⟩ :: rest) =
    if appendable node ⟨name, index, .array⟩ then
      if node.info.jsl = .array then addTo valuestring store node rest
      else makeArray valuestring store node name index rest
    else ⟨store, node, -1, none⟩ := by
  rw [rtAppend]
  simp only [addTo, makeArray, ite_not]

/-- An archive that has its slot. -/
def makeArchive (fs : FsLayout) (fsSection : Int) (archive : Node) : Appended ν :=
  let document := cjsonCreate store.heap .cjsonObject
  let archive := archive.setInfo fun info => { info with fsSection := fsSection }
  let below := rtAppend valuestring
    { store with fs := fs, heap := document.1.addRoot document.2 } archive rest
  { below with
    node := insertScope node below.node, archive := some [.scope archive.scopeKey] }

theorem rtAppend_archive : rtAppend valuestring store node (⟨name, index, .archive⟩ :: rest) =
    match allocateSection store.fs node.info.scopeName name with
    | (fs, none) => ⟨{ store with fs := fs }, node, -1, none⟩
    | (fs, some fsSection) =>
      match archiveNode node name store.heap.nextAddr store.heap.nextAddr with
      | none => ⟨{ store with fs := fsDeleteFile fs fsSection }, node, -1, none⟩
      | some archive => makeArchive valuestring store node rest fs fsSection archive := by
  rw [rtAppend]
  rfl

end Equations

theorem appendable_iff {node : Node} {name : Bytes} {index : Int} :
    appendable node ⟨name, index, .array⟩ = true ↔ 0 ≤ node.info.arraysize ∧
      (index = node.info.arraysize ∨ index = jaSymAdd) ∧ node.info.arraysize < maxArySize := by
  simp [appendable, and_assoc]

/-- An array without items takes the index 0 and the index for a new item. -/
theorem index_of_appendable {node : Node} {name : Bytes} {index : Int}
    (h : appendable node ⟨name, index, .array⟩ = true) (empty : node.info.arraysize = 0) :
    index = 0 ∨ index = jaSymAdd := by
  obtain ⟨_, next, _⟩ := appendable_iff.mp h
  simpa only [empty] using next

/-- What `rt_append` never changes in the node that it is called for. -/
theorem rtAppend_kept (valuestring : Bytes) (store : Store ν) (node : Node)
    (segms : List Segment) :
    (rtAppend valuestring store node segms).node.info.scopeName = node.info.scopeName ∧
      (rtAppend valuestring store node segms).node.info.jsl = node.info.jsl ∧
      (node.info.jsl ≠ .array →
        (rtAppend valuestring store node segms).node.info = node.info) := by
  have refl : ∀ n : Node, n = node → n.info.scopeName = node.info.scopeName ∧
      n.info.jsl = node.info.jsl ∧ (node.info.jsl ≠ .array → n.info = node.info) := by
    rintro n rfl
    exact ⟨rfl, rfl, fun _ => rfl⟩
  cases segms with
  | nil => exact refl _ rfl
  | cons segm rest =>
    rcases segm with ⟨name, index, level⟩
    cases level with
    | dir => exact refl _ rfl
    | arrayItem => exact refl _ rfl
    | arrayItemAsField => exact refl _ rfl
    | field => simp [rtAppend_field]
    | logicScope => simp [rtAppend_scope]
    | archive =>
      rw [rtAppend_archive]
      split
      · exact refl _ rfl
      · split
        · exact refl _ rfl
        · simp [makeArchive]
    | array =>
      rw [rtAppend_array]
      split
      · split
        · rename_i array
          rw [addTo]
          split <;> simp [addItem, array]
        · rw [makeArray]
          split <;> simp
      · exact refl _ rfl

theorem scopeKey_rtAppend (valuestring : Bytes) (store : Store ν) (node : Node)
    (segms : List Segment) :
    (rtAppend valuestring store node segms).node.scopeKey = node.scopeKey := by
  rw [Node.scopeKey, (rtAppend_kept valuestring store node segms).1, Node.scopeKey]

theorem scopeKey_addTo (valuestring : Bytes) (store : Store ν) (c : Node) (rest : List Segment) :
    (addTo valuestring store c rest).node.scopeKey = c.scopeKey := by
  rw [addTo]
  split <;> simp [addItem, Node.scopeKey]

/-- The node of an archive that a request makes has the name of the segment. -/
theorem archiveNode_spec {dir archive : Node} {name : Bytes} {ident : Nat} {jsonptr : Addr}
    (noDot : dot ∉ name) (h : archiveNode dir name ident jsonptr = some archive) :
    archive.info.scopeName = name ∧ archive.info.jsl = .archive ∧ archive.nextScope = .nil ∧
      archive.array = [] ∧ archive.info.arraysize = 0 ∧ archive.info.jsonptr = some jsonptr ∧
      archive.info.jsonparentptr = none ∧ archive.info.ident = ident := by
  simp only [archiveNode] at h
  split at h
  · cases h
  · obtain rfl := Option.some.inj h
    simp [archiveScopeName, noDot, NodeInfo.blank]

/-- What becomes of the node: nothing, a new scope under the name, or a new item. -/
inductive Grown (node : Node) (segm : Segment) : Node → Prop where
  | unchanged : Grown node segm node
  | scope (child : Node) (named : child.scopeKey = fold segm.name) :
      Grown node segm (insertScope node child)
  | item (child : Node) (array : node.info.jsl = .array) : Grown node segm (addItem node child)

theorem rtAppend_grown {valuestring : Bytes} {store : Store ν} {node : Node} {segm : Segment}
    {rest : List Segment} (noDot : dot ∉ segm.name) :
    Grown node segm (rtAppend valuestring store node (segm :: rest)).node := by
  rcases segm with ⟨name, index, level⟩
  cases level with
  | dir => exact .unchanged
  | arrayItem => exact .unchanged
  | arrayItemAsField => exact .unchanged
  | field =>
    rw [rtAppend_field]
    exact .scope _ rfl
  | logicScope =>
    rw [rtAppend_scope]
    exact .scope _ (scopeKey_rtAppend ..)
  | archive =>
    rw [rtAppend_archive]
    split
    · exact .unchanged
    · split
      · exact .unchanged
      · rename_i archive made
        refine .scope _ ?_
        rw [scopeKey_rtAppend, Node.scopeKey, Node.info_setInfo]
        exact congrArg fold (archiveNode_spec noDot made).1
  | array =>
    rw [rtAppend_array]
    split
    · split
      · rename_i array
        rw [addTo]
        split <;> exact .item _ array
      · rw [makeArray]
        split
        · exact .scope _ (scopeKey_addTo ..)
        · exact .scope _ rfl
    · exact .unchanged

section Rule
variable {P : Store ν → Appended ν → Prop}

/-- A property of `rt_append`'s answer to a store that goes through the steps of every
level but the archive's. -/
structure Appending (P : Store ν → Appended ν → Prop) : Prop where
  stops : ∀ store heap node retval, retval = 0 ∨ retval = -1 →
    P store ⟨{ store with heap := heap }, node, retval, none⟩
  allocates : ∀ {store heap r} node, P { store with heap := heap } r →
    P store { r with node := node }

/-- And through those of an archive. -/
structure Archiving (P : Store ν → Appended ν → Prop) : Prop where
  refused : ∀ {store fs scope name} node, allocateSection store.fs scope name = (fs, none) →
    P store ⟨{ store with fs := fs }, node, -1, none⟩
  unmade : ∀ {store fs scope name slot} node,
    allocateSection store.fs scope name = (fs, some slot) →
      P store ⟨{ store with fs := fsDeleteFile fs slot }, node, -1, none⟩
  made : ∀ {store fs scope name slot heap r} node path,
    allocateSection store.fs scope name = (fs, some slot) →
      P { store with fs := fs, heap := heap } r → P store { r with node := node, archive := path }

/-- The induction over the segments. Without an archive among them its steps do not count. -/
theorem rtAppend_keeps (appending : Appending P) (v : Bytes) {segms : List Segment}
    (archiving : (∃ segm ∈ segms, segm.jsl = .archive) → Archiving P) (store : Store ν)
    (node : Node) : P store (rtAppend v store node segms) := by
  induction segms generalizing store node with
  | nil => exact appending.stops store store.heap node 0 (Or.inl rfl)
  | cons segm rest ih =>
    have ih := ih fun ⟨segm, mem, archive⟩ => archiving ⟨segm, List.mem_cons_of_mem _ mem, archive⟩
    have extended : ∀ store array, P store (addTo v store array rest) := by
      intro store array
      rw [addTo]
      split
      · exact appending.stops _ _ _ _ (Or.inl rfl)
      · exact appending.allocates _ (ih _ _)
    rcases segm with ⟨name, index, level⟩
    cases level with
    | dir => exact appending.stops store store.heap node 0 (Or.inl rfl)
    | arrayItem => exact appending.stops store store.heap node 0 (Or.inl rfl)
    | arrayItemAsField => exact appending.stops store store.heap node 0 (Or.inl rfl)
    | field =>
      rw [rtAppend_field]
      exact appending.stops _ _ _ _ (Or.inl rfl)
    | logicScope =>
      rw [rtAppend_scope]
      exact appending.allocates _ (ih _ _)
    | archive =>
      have archiving := archiving ⟨_, List.mem_cons_self, rfl⟩
      rw [rtAppend_archive]
      split
      · exact archiving.refused node ‹_›
      · split
        · exact archiving.unmade node ‹_›
        · exact archiving.made _ _ ‹_› (ih _ _)
    | array =>
      rw [rtAppend_array]
      split
      · split
        · exact extended _ _
        · rw [makeArray]
          split
          · exact appending.allocates _ (extended _ _)
          · exact appending.stops _ _ _ _ (Or.inr rfl)
      · exact appending.stops store store.heap node (-1) (Or.inr rfl)

end Rule

end AppendSteps
