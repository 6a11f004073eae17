import Cfgd.RegularTree

/-!
# What every node keeps to

A law says something of a node, of the names that lead to it and of the items in its array.
The numbers of items do not count among the names, since they change when an item goes.
Edits of a tree keep a law that the nodes keep where the edit is made.
-/

namespace TreeWide

open AvlTree CText ConfigNode Runtime DeleteRange

/-- The names on a way. -/
def scopeKeys : Path → List Bytes
  | [] => []
  | .scope key :: rest => key :: scopeKeys rest
  | .item _ :: rest => scopeKeys rest

/-- Of the names above a node, of its members and of those of its items. -/
abbrev Law := List Bytes → NodeInfo → List NodeInfo → Prop

/-- Every node from `n` on keeps the law; `above` are the names that lead to `n`. -/
def Everywhere (law : Law) (above : List Bytes) (n : Node) : Prop :=
  ∀ path m, n.getAt path = some m → law (above ++ scopeKeys path) m.info (m.array.map Node.info)

theorem scopeKeys_append (path path' : Path) :
    scopeKeys (path ++ path') = scopeKeys path ++ scopeKeys path' := by
  induction path with
  | nil => rfl
  | cons s rest ih => cases s <;> simp [scopeKeys, ih]

variable {law : Law} {above : List Bytes} {n c m : Node}

theorem Everywhere.here (h : Everywhere law above n) :
    law above n.info (n.array.map Node.info) := by
  have root := h [] n rfl
  rwa [scopeKeys, List.append_nil] at root

/-- The law holds from every node below. -/
theorem Everywhere.getAt (h : Everywhere law above n) {path : Path}
    (there : n.getAt path = some m) : Everywhere law (above ++ scopeKeys path) m := by
  intro path' m' found
  have whole := h (path ++ path') m' (by rw [getAt_append, there, Option.bind_some, found])
  rwa [scopeKeys_append, ← List.append_assoc] at whole

theorem Everywhere.follow (h : Everywhere law above n) {s : Step} (found : n.follow s = some c) :
    Everywhere law (above ++ scopeKeys [s]) c := by
  apply h.getAt
  rw [Node.getAt, found]
  rfl

theorem Everywhere.item (h : Everywhere law above n) (mem : c ∈ n.array) :
    Everywhere law above c := by
  obtain ⟨k, found⟩ := List.getElem?_of_mem mem
  have below := h.follow (s := .item k) found
  rwa [scopeKeys, scopeKeys, List.append_nil] at below

/-- A law is kept everywhere when it is kept here and from every next node on. -/
theorem everywhere_of_follow (here : law above n.info (n.array.map Node.info))
    (next : ∀ s c, n.follow s = some c → Everywhere law (above ++ scopeKeys [s]) c) :
    Everywhere law above n := by
  intro path m there
  cases path with
  | nil =>
    obtain rfl := Option.some.inj there
    rwa [scopeKeys, List.append_nil]
  | cons s rest =>
    rw [Node.getAt] at there
    obtain ⟨c, found, below⟩ := Option.bind_eq_some_iff.mp there
    have last := next s c found rest m below
    rwa [List.append_assoc, ← scopeKeys_append] at last

theorem Everywhere.mono {law' : Law} (weaker : ∀ keys i l, law keys i l → law' keys i l)
    (h : Everywhere law above n) : Everywhere law' above n :=
  fun path m there => weaker _ _ _ (h path m there)

/-- A node with nothing below it. -/
theorem everywhere_leaf (tree : n.nextScope = .nil) (array : n.array = [])
    (here : law above n.info []) : Everywhere law above n := by
  apply everywhere_of_follow
  · rwa [array]
  · intro s c found
    cases s with
    | scope key =>
      rw [Node.follow, tree] at found
      cases found
    | item i =>
      rw [Node.follow, array] at found
      cases found

section Edits

theorem everywhere_insertScope (h : Everywhere law above n)
    (ordered : Ordered Node.scopeKey n.nextScope)
    (child : Everywhere law (above ++ [c.scopeKey]) c) :
    Everywhere law above (insertScope n c) := by
  apply everywhere_of_follow
  · rw [insertScope_info, insertScope_array]
    exact h.here
  · intro s d found
    rw [follow_insertScope ordered] at found
    split at found
    · rename_i named
      subst named
      cases old : n.follow (.scope c.scopeKey) with
      | none =>
        rw [old] at found
        obtain rfl := Option.some.inj found
        exact child
      | some e =>
        rw [old] at found
        obtain rfl := Option.some.inj found
        exact h.follow old
    · exact h.follow found

theorem everywhere_removeScope (h : Everywhere law above n)
    (ordered : Ordered Node.scopeKey n.nextScope) (name : Bytes) :
    Everywhere law above (removeScope n name) := by
  apply everywhere_of_follow
  · rw [removeScope_info, removeScope_array]
    exact h.here
  · intro s d found
    rw [follow_removeScope ordered] at found
    split at found
    · cases found
    · exact h.follow found

/-- Other items in an array. -/
theorem everywhere_withItems {n' : Node} (h : Everywhere law above n)
    (tree : n'.nextScope = n.nextScope) (here : law above n'.info (n'.array.map Node.info))
    (items : ∀ c ∈ n'.array, Everywhere law above c) : Everywhere law above n' := by
  apply everywhere_of_follow here
  intro s c found
  cases s with
  | scope key =>
    rw [Node.follow, tree] at found
    exact h.follow (s := .scope key) found
  | item k =>
    rw [scopeKeys, scopeKeys, List.append_nil]
    exact items c (List.mem_of_getElem? found)

/-- Other members of a node. -/
theorem everywhere_setInfo (h : Everywhere law above n) {change : NodeInfo → NodeInfo}
    (here : law above (change n.info) (n.array.map Node.info)) :
    Everywhere law above (n.setInfo change) := by
  refine everywhere_withItems h (Node.nextScope_setInfo change n) ?_ ?_
  · rwa [Node.info_setInfo, Node.array_setInfo]
  · rw [Node.array_setInfo]
    exact fun c mem => h.item mem

/-- A write that leaves the name of a node, and of an item all members. -/
theorem everywhere_modifyAt {path : Path} {write : Node → Node} (h : Everywhere law above n)
    (there : n.getAt path = some m) (written : Everywhere law (above ++ scopeKeys path) (write m))
    (key : (write m).scopeKey = m.scopeKey)
    (still : ∀ before k, path = before ++ [.item k] → (write m).info = m.info) :
    Everywhere law above (n.modifyAt write path) := by
  induction path generalizing n above with
  | nil =>
    obtain rfl := Option.some.inj there
    rwa [scopeKeys, List.append_nil] at written
  | cons s rest ih =>
    have whole := there
    rw [Node.getAt] at there
    obtain ⟨c, found, below⟩ := Option.bind_eq_some_iff.mp there
    rw [← List.singleton_append, scopeKeys_append, ← List.append_assoc] at written
    have next : Everywhere law (above ++ scopeKeys [s]) (c.modifyAt write rest) := by
      refine ih (h.follow found) below written fun before k last => ?_
      exact still (s :: before) k (by rw [last, List.cons_append])
    apply everywhere_of_follow
    · have items : (n.modifyAt write (s :: rest)).array.map Node.info = n.array.map Node.info := by
        cases s with
        | scope name => simp [Node.modifyAt]
        | item k =>
          -- the item has the same members, whether it is written to or something below it
          have same : (c.modifyAt write rest).info = c.info := by
            cases rest with
            | nil =>
              obtain rfl := Option.some.inj below
              exact still [] k rfl
            | cons s' rest' => exact modifyAt_info
          have place : n.array[k]? = some c := found
          apply List.ext_getElem?
          intro j
          simp only [Node.modifyAt, Node.array_setArray, List.getElem?_map, List.getElem?_modify]
          by_cases here : k = j
          · subst here
            simp [place, same]
          · simp [here]
      rw [modifyAt_info, items]
      exact h.here
    · intro s' d step
      have keeps : ∀ m', n.getAt (s :: rest) = some m' → (write m').scopeKey = m'.scopeKey := by
        intro m' hm'
        obtain rfl := Option.some.inj (whole.symm.trans hm')
        exact key
      rw [follow_modifyAt keeps] at step
      split at step
      · rename_i same
        subst same
        rw [found] at step
        obtain rfl := Option.some.inj step
        exact next
      · exact h.follow step

end Edits

end TreeWide
