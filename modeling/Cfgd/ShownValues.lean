import Cfgd.ItemNumbers

/-!
# The texts in a tree

A property of the names that lead to a node and of its text is kept by every update that
puts such texts only. What an update can put is read off its key and its value.
-/

namespace ShownValues

open AvlTree CText CJson Request ConfigNode Loader FsImage Runtime DocTree DeleteRange
open KeyShape Reach UpdateCases RegularTree AppendSteps TreeWide ItemNumbers

variable {ν : Type} [DoubleText ν]

/-- The property holds of the names and the text of every node from `n` on. -/
abbrev Shown (P : List Bytes → Bytes → Prop) (above : List Bytes) (n : Node) : Prop :=
  Everywhere (fun keys info _ => P keys info.scopeValue) above n

/-- The texts that appending can give to a node of this segment. -/
inductive Puts (v : Bytes) (segm : Segment) (rest : List Segment) : Bytes → Prop where
  | nothing : Puts v segm rest []
  | value : Puts v segm rest v
  | place (level : segm.jsl = .array) (more : rest ≠ []) (name : Bytes) (i : Int) :
      Puts v segm rest (itemValue name i)
  | archive (level : segm.jsl = .archive) (text : Bytes) : Puts v segm rest text

/-- The property holds of whatever is put below these names. -/
def Takes (P : List Bytes → Bytes → Prop) (v : Bytes) : List Bytes → List Segment → Prop
  | _, [] => True
  | above, segm :: rest => (∀ t, Puts v segm rest t → P (above ++ [fold segm.name]) t) ∧
      Takes P v (above ++ [fold segm.name]) rest

section Appending
variable {P : List Bytes → Bytes → Prop} {above : List Bytes} {v : Bytes} {store : Store ν}
variable {node c : Node} {segm : Segment} {rest : List Segment}

theorem shown_addItem (h : Shown P above node) (child : Shown P above c) :
    Shown P above (addItem node c) := by
  refine everywhere_withItems h (by simp [addItem]) (by simpa [addItem] using h.here) ?_
  intro d mem
  have cases : d ∈ node.array ∨ d = c := by simpa [addItem] using mem
  rcases cases with old | rfl
  · exact h.item old
  · exact child

/-- What `rt_append` does below a node that is no array. -/
def AppendsShown (ν : Type) [DoubleText ν] (P : List Bytes → Bytes → Prop) (v : Bytes)
    (above : List Bytes) (segms : List Segment) : Prop :=
  ∀ (store : Store ν) (node : Node), Ordered Node.scopeKey node.nextScope → Shown P above node →
    node.info.jsl ≠ .array → Shown P above (rtAppend v store node segms).node

/-- A new item of an array. -/
theorem shown_addTo (level : segm.jsl = .array) (puts : ∀ t, Puts v segm rest t → P above t)
    (later : rest = [] ∨ AppendsShown ν P v above rest) (h : Shown P above node) :
    Shown P above (addTo v store node rest).node := by
  rw [addTo]
  split
  · exact shown_addItem h (everywhere_leaf rfl rfl (puts v .value))
  · rename_i more
    refine shown_addItem h ((later.resolve_left more) _ _ (ordered_nil _) ?_ (by rintro ⟨⟩))
    exact everywhere_leaf rfl rfl (puts _ (.place level more _ _))

theorem shown_rtAppend {segms : List Segment} (noDot : ∀ segm ∈ segms, dot ∉ segm.name)
    (takes : Takes P v above segms) : AppendsShown ν P v above segms := by
  induction segms generalizing above with
  | nil => exact fun store node ordered h notArray => h
  | cons segm rest ih =>
    obtain ⟨puts, further⟩ := takes
    have later := ih (fun s mem => noDot s (List.mem_cons_of_mem _ mem)) further
    have plain := noDot segm List.mem_cons_self
    clear ih
    intro store node ordered h notArray
    rcases segm with ⟨name, index, level⟩
    -- a new member that shows nothing or the value
    have leaf : ∀ {kind : Kind ν} {value : Bytes} {jsl : Jsl},
        Puts v ⟨name, index, level⟩ rest value →
        Shown P (above ++ [fold name]) (allocateMember store node name value jsl kind).2 :=
      fun put => everywhere_leaf rfl rfl (puts _ put)
    have inserted : ∀ {c : Node}, c.scopeKey = fold name → Shown P (above ++ [fold name]) c →
        Shown P above (insertScope node c) := by
      intro c key shown
      exact everywhere_insertScope h ordered (by rwa [key])
    cases level with
    | dir => exact h
    | arrayItem => exact h
    | arrayItemAsField => exact h
    | field =>
      rw [rtAppend_field]
      exact inserted rfl (leaf .value)
    | logicScope =>
      rw [rtAppend_scope]
      exact inserted (scopeKey_rtAppend ..)
        (later _ _ (ordered_nil _) (leaf .nothing) (by rintro ⟨⟩))
    | archive =>
      rw [rtAppend_archive]
      split
      · exact h
      · split
        · exact h
        · rename_i fs fsSection _ _ archive made
          obtain ⟨named, isArchive, tree, array, _⟩ := archiveNode_spec plain made
          rw [makeArchive]
          refine inserted ?_ (later _ _ ?_ ?_ ?_)
          · rw [scopeKey_rtAppend, Node.scopeKey, Node.info_setInfo, named]
          · rw [Node.nextScope_setInfo, tree]
            exact ordered_nil _
          · refine everywhere_leaf ?_ ?_ (puts _ (.archive rfl _))
            · rw [Node.nextScope_setInfo, tree]
            · rw [Node.array_setInfo, array]
          · simp [isArchive]
    | array =>
      rw [rtAppend_array]
      split
      · rw [makeArray]
        split
        · refine inserted (scopeKey_addTo ..) (shown_addTo rfl puts (Or.inr later) ?_)
          exact leaf .nothing
        · exact inserted rfl (leaf .nothing)
      · exact h

end Appending

section Deleting
variable {P : List Bytes → Bytes → Prop} {above : List Bytes} {n n' c : Node} {key : Bytes}

theorem shown_dropItem (h : Shown P above n) (e : Node) : Shown P above (dropItem n e) := by
  refine everywhere_withItems h (by simp [dropItem]) (by simpa [dropItem] using h.here) ?_
  intro d mem
  simp only [dropItem, Node.array_setInfo, Node.array_setArray, List.mem_append] at mem
  rcases mem with before | after
  · exact h.item (List.mem_of_mem_take before)
  · obtain ⟨d', behind, rfl⟩ := List.mem_map.mp after
    have inside := h.item (List.mem_of_mem_drop behind)
    exact everywhere_setInfo inside inside.here

/-- Nothing new is shown after a deletion. -/
theorem shown_reduced (h : Shown P above n) (ordered : Ordered Node.scopeKey n.nextScope)
    (ordered' : Ordered Node.scopeKey c.nextScope) (found : n.follow (.scope key) = some c)
    (reduced : Reduced c n n') : Shown P above n' := by
  cases reduced with
  | unchanged => exact h
  | gone => exact everywhere_removeScope h ordered _
  | @item e level mem =>
    have same := same_parentAfter e c
    have there : n.getAt [.scope (parentAfter e c).scopeKey] = some c := by
      rw [scopeKey_of_same same, key_of_avlsearch Node.scopeKey found, Catalog.getAt_one, found]
    have shown : ∀ {keys : List Bytes}, Shown P keys c → Shown P keys (parentAfter e c) := by
      intro keys below
      rw [parentAfter]
      split
      · exact shown_dropItem below e
      · exact everywhere_removeScope below ordered' _
    refine @everywhere_modifyAt _ _ _ _ _ (fun _ => parentAfter e c) h there
      (shown (h.getAt there)) (scopeKey_of_same same) ?_
    · intro before k last
      cases before with
      | nil => cases last
      | cons s rest => simp at last

end Deleting

section Updating
variable {P : List Bytes → Bytes → Prop} {above : List Bytes} {v : Bytes} {world : World ν}
variable {jrp : Jrp} {u : Updated ν} {n c m m' : Node} {segms passed left : List Segment}
variable {path : Path}

theorem takes_of_walks (walk : Walks n segms path passed m left) (takes : Takes P v above segms) :
    Takes P v (above ++ scopeKeys path) left := by
  induction walk generalizing above with
  | stop n segms => rwa [scopeKeys, List.append_nil]
  | scope found level level' further ih =>
    have next := ih takes.2
    rwa [List.append_assoc] at next
  | item found level level' place entered further ih =>
    have next := ih takes.2
    rwa [List.append_assoc] at next

omit [DoubleText ν] in
/-- A write to the tree that leaves the name of a node. -/
theorem shown_write (h : Shown P [] (rootNode world.root))
    (regular : Regular 0 (rootNode world.root))
    {store : Store ν} (there : (rootNode world.root).getAt path = some m)
    (written : Regular path.length m') (shown : Shown P (scopeKeys path) m')
    (info : m'.info = m.info ∧ m'.array = m.array ∨
      path ≠ [] ∧ m'.scopeKey = m.scopeKey ∧ m'.info.jsl = m.info.jsl)
    (still : ∀ before k, path = before ++ [.item k] → m'.info = m.info) :
    Shown P [] (rootNode (world.modifyAt (fun _ => m') path store).root) := by
  have same := (regular_world regular there written info store).1
  have key : m'.scopeKey = m.scopeKey := by
    rcases info with ⟨members, _⟩ | ⟨_, key, _⟩
    · rw [Node.scopeKey, members, Node.scopeKey]
    · exact key
  rw [same]
  exact @everywhere_modifyAt _ _ _ _ _ (fun _ => m') h there shown key still

theorem shown_setValue (h : Shown P above n) (ok : P above v) (ptr : Addr) :
    Shown P above (setValue v ptr n) := everywhere_setInfo h ok

theorem shown_modifyItem (h : Shown P above n) (ok : P above v) (k : Nat) (ptr : Addr) :
    Shown P above (n.modifyAt (setValue v ptr) [.item k]) := by
  refine everywhere_withItems h (by simp [Node.modifyAt]) ?_ ?_
  · rw [modifyAt_info]
    exact h.here
  · intro d mem
    simp only [Node.modifyAt, Node.array_setArray] at mem
    obtain ⟨j, hj⟩ := List.getElem?_of_mem mem
    rw [List.getElem?_modify] at hj
    obtain ⟨d', old, rfl⟩ := Option.map_eq_some_iff.mp hj
    have inside := h.item (List.mem_of_getElem? old)
    split
    · exact shown_setValue inside ok ptr
    · exact inside

/-- An update shows what it puts, and nothing else that is new. -/
theorem shown_update (h : Shown P [] (rootNode world.root))
    (regular : Regular 0 (rootNode world.root))
    (accepted : AcceptedKey jrp.segm) (noDot : ∀ segm ∈ jrp.segm, dot ∉ segm.name)
    (takes : ∀ v, jrp.valuestring = some v → v ≠ keywordDeleted → Takes P v [] jrp.segm)
    (done : rtConfigUpdate world jrp = some u) : Shown P [] (rootNode u.world.root) := by
  cases value : jrp.valuestring with
  | none =>
    rw [rtConfigUpdate, value] at done
    obtain rfl := Option.some.inj done
    exact h
  | some v =>
    have keys : ∀ (path : Path) (segm : Segment), scopeKeys (path ++ [.scope (fold segm.name)]) =
        [] ++ scopeKeys path ++ [fold segm.name] := fun path segm => scopeKeys_append ..
    cases update_cases regular.built accepted value done with
    | refused archive => exact h
    | @delete path passed n c segm walk found target keyword deleted call checkpoints archive =>
      have there := getAt_of_walks walk
      have here := regular_at regular there
      have level := here.here.level c (mem_of_avlsearch Node.scopeKey found)
      have reduced := rtDelete_reduced level call
      obtain ⟨after, info, array⟩ := regular_reduced here found reduced
      refine shown_write h regular there after ?_ (Or.inl ⟨info, array⟩) fun _ _ _ => info
      exact shown_reduced (h.getAt there) here.here.ordered (here.follow found).here.ordered found
        reduced
    | @field path passed n c segm walk found level level' notDeleted archive =>
      have there := getAt_member walk found
      have node := rtFieldUpdate_node world.store c v
      obtain ⟨after, key, jsl⟩ := regular_rtFieldUpdate (regular_at regular there) world.store v
      have ok := (takes_of_walks walk (takes v value notDeleted)).1 v .value
      refine shown_write h regular there after ?_ (Or.inr ⟨by simp, key, jsl⟩)
        fun before k same => absurd same notItem_scope
      have shown := h.getAt there
      rw [keys] at shown ⊢
      rcases node with same | ⟨ptr, same⟩
      · rw [same]
        exact shown
      · rw [same]
        exact shown_setValue shown ok ptr
    | @item path passed n c segm walk found level level' place notDeleted archive =>
      have there := getAt_member walk found
      have node := rtArrayFieldUpdate_node world.store c segm.index v
      obtain ⟨after, key, jsl⟩ := regular_rtArrayFieldUpdate (regular_at regular there) world.store
        segm.index v
      have ok := (takes_of_walks walk (takes v value notDeleted)).1 v .value
      refine shown_write h regular there after ?_ (Or.inr ⟨by simp, key, jsl⟩)
        fun before k same => absurd same notItem_scope
      have shown := h.getAt there
      rw [keys] at shown ⊢
      rcases node with same | ⟨k, e, ptr, _, same⟩
      · rw [same]
        exact shown
      · rw [same]
        exact shown_modifyItem shown ok k ptr
    | @missing path passed rest m segm walk started missing level noFile notDeleted archive =>
      have there := getAt_of_walks walk
      have here := regular_at regular there
      have notArray := notArray_of_walks walk regular (by rintro ⟨⟩)
      have after := regular_rtAppend v world.store (segm :: rest) here
        (segmsFit_of_walks accepted walk started) fun isArray => absurd isArray notArray
      have info := rtAppend_kept v world.store m (segm :: rest)
      refine shown_write h regular there after ?_ (Or.inr ⟨started, scopeKey_rtAppend .., info.2.1⟩)
        fun _ _ _ => info.2.2 notArray
      refine shown_rtAppend (fun s mem => noDot s ((suffix_of_walks walk).subset mem))
        (takes_of_walks walk (takes v value notDeleted)) world.store m here.here.ordered
        (h.getAt there) notArray
    | @extend path passed rest m c segm walk found level level' next notDeleted archive =>
      have there := getAt_member walk found
      have here := regular_at regular there
      have fits := segmsFit_array accepted walk level'
      have after := regular_rtAppend v world.store (segm :: rest) here
        (by rwa [List.length_append]) fun _ => by
          rintro _ ⟨⟩
          exact level'
      have info := rtAppend_kept v world.store c (segm :: rest)
      obtain ⟨puts, further⟩ := takes_of_walks walk (takes v value notDeleted)
      have suffix := suffix_of_walks walk
      have shown := h.getAt there
      refine shown_write h regular there after ?_ (Or.inr ⟨by simp, scopeKey_rtAppend .., info.2.1⟩)
        fun before k same => absurd same notItem_scope
      rw [keys] at shown ⊢
      obtain ⟨name, index, jsl⟩ := segm
      obtain rfl : jsl = .array := level'
      rw [rtAppend_array]
      split
      · refine shown_addTo rfl puts (Or.inr ?_) shown
        exact shown_rtAppend (fun s mem => noDot s (suffix.subset (List.mem_cons_of_mem _ mem)))
          further
      · exact shown

end Updating

end ShownValues
