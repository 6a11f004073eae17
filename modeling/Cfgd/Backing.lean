import Cfgd.DeleteLaw

/-!
# Nodes over items

The tree and the documents are changed side by side. A node stands over an item when every
node below it stands over an item of the same name or place below that, and shows it.
Each kind of change is stated for a node and its item; a change further down is one of the
node and item above, because the pointers tell the items apart.
-/

namespace Backing

open AvlTree CText CJson Item Request ConfigNode Loader Runtime DocTree DeleteRange
open HeapEdit Levels PlainDoc

variable {ν : Type} [DoubleText ν]

/-- The items below an item that the node at the end of a step can stand over. -/
def Seat (j : Item ν) : Step → Item ν → Prop
  | .scope key, d => d ∈ j.child ∧ d.string.map fold = some key
  | .item i, d => j.child[i]? = some d ∧ d.string = none

/-- The node has the level of the item, and the text of a string. -/
structure Tells (c : Node) (d : Item ν) : Prop where
  jsl : c.info.jsl = itemJsl d
  text : ∀ s, d.kind = .cjsonString s → c.info.scopeValue = valueText d

/-- What is asked of one node. With `full` nothing below the item is left out of the tree, and
the node has a level that the loader gives; the blocks of the items of an array are apart,
and were given out before `next`. -/
structure OverHere (full : Prop) (next : Nat) (n : Node) (j : Item ν) : Prop where
  linked : Linked n j
  room : n.info.arraysize < jaSymLast
  length : n.info.jsl = .array → n.array.length = j.child.length
  leaf : isLeaf n.info.jsl = true → j.child = []
  apart : (n.array.map fun e => e.info.ident).Nodup
  older : ∀ e ∈ n.array, e.info.ident < next
  whole : full → n.info.jsl ≠ .array → Distinct j.child ∧
    ∀ d ∈ j.child, ∃ key, d.string.map fold = some key ∧ (n.follow (.scope key)).isSome
  known : full → n.info.jsl ≠ .dir

inductive Over (full : Prop) (next : Nat) : Node → Item ν → Prop where
  | mk {n : Node} {j : Item ν} (item : Step → Item ν) (here : OverHere full next n j)
      (seat : ∀ s c, n.follow s = some c → Seat j s (item s))
      (tells : ∀ s c, n.follow s = some c → Tells c (item s))
      (below : ∀ s c, n.follow s = some c → Over full next c (item s)) : Over full next n j

section Over
variable {full : Prop} {next : Nat} {n n' c c' : Node} {j d d' f : Item ν} {s : Step}

theorem Over.here : Over full next n j → OverHere full next n j
  | .mk _ here _ _ _ => here

theorem Over.down (h : Over full next n j) (found : n.follow s = some c) :
    ∃ d, Seat j s d ∧ Tells c d ∧ Over full next c d := by
  obtain ⟨item, _, seat, tells, below⟩ := h
  exact ⟨item s, seat s c found, tells s c found, below s c found⟩

/-- One step at a time: the way in which nodes are put over items. -/
theorem over_of_steps (here : OverHere full next n j) (steps : ∀ s c, n.follow s = some c →
    ∃ d, Seat j s d ∧ Tells c d ∧ Over full next c d) : Over full next n j := by
  have each : ∀ s, ∃ d, ∀ c, n.follow s = some c → Seat j s d ∧ Tells c d ∧ Over full next c d := by
    intro s
    cases found : n.follow s with
    | none => exact ⟨j, nofun⟩
    | some c =>
      obtain ⟨d, there⟩ := steps s c found
      refine ⟨d, fun c' same => ?_⟩
      obtain rfl := Option.some.inj same
      exact there
  choose item there using each
  exact .mk item here (fun s c found => (there s c found).1)
    (fun s c found => (there s c found).2.1) fun s c found => (there s c found).2.2

theorem Over.mono {next' : Nat} (h : Over full next n j) (later : next ≤ next') :
    Over full next' n j := by
  induction h with
  | mk item here seat tells below ih =>
    refine .mk item ⟨here.linked, here.room, here.length, here.leaf, here.apart, ?_, here.whole,
      here.known⟩ seat tells ih
    exact fun e he => Nat.lt_of_lt_of_le (here.older e he) later

omit [DoubleText ν] in
theorem Seat.child (h : Seat j s d) : d ∈ j.child := by
  cases s with
  | scope key => exact h.1
  | item i => exact List.mem_of_getElem? h.1

/-- Where the item of a step is in the list of children. -/
def At (s : Step) (before : List (Item ν)) (f : Item ν) : Prop :=
  match s with
  | .scope key => f.string.map fold = some key
  | .item i => before.length = i ∧ f.string = none

omit [DoubleText ν] in
/-- The child that an item has in a seat. -/
theorem Seat.split (h : Seat j s d) : ∃ before after, j.child = before ++ d :: after ∧
    At s before d := by
  cases s with
  | scope key =>
    obtain ⟨before, after, split⟩ := List.append_of_mem h.1
    exact ⟨before, after, split, h.2⟩
  | item i =>
    obtain ⟨split, length⟩ := DeleteLaw.split_at h.1
    exact ⟨_, _, split, length, h.2⟩

omit [DoubleText ν] in
/-- Another child in place of one leaves the seats of the other steps. -/
theorem seat_other {before after : List (Item ν)} (split : j.child = before ++ f :: after)
    (place : At s before f) (split' : d'.child = before ++ d :: after) {s' : Step}
    (other : s' ≠ s) {x : Item ν} (seat : Seat j s' x) : Seat d' s' x := by
  have kept : x ∈ j.child → x ≠ f → x ∈ d'.child := by
    intro mem apart
    rw [split, List.mem_append, List.mem_cons] at mem
    rw [split', List.mem_append, List.mem_cons]
    rcases mem with before | rfl | after
    · exact Or.inl before
    · exact absurd rfl apart
    · exact Or.inr (Or.inr after)
  cases s' with
  | scope key' =>
    refine ⟨kept seat.1 ?_, seat.2⟩
    rintro rfl
    cases s with
    | scope key => exact other (congrArg Step.scope (Option.some.inj (seat.2.symm.trans place)))
    | item i =>
      have named := seat.2
      rw [place.2] at named
      cases named
  | item i' =>
    refine ⟨?_, seat.2⟩
    have there := seat.1
    rw [split] at there
    rw [split']
    have apart : i' ≠ before.length := by
      rintro rfl
      rw [List.getElem?_append_right (Nat.le_refl _), Nat.sub_self] at there
      obtain rfl := Option.some.inj there
      cases s with
      | scope key =>
        have named : f.string.map fold = some key := place
        rw [seat.2] at named
        cases named
      | item i => exact other (congrArg Step.item place.1)
    rcases Nat.lt_or_ge i' before.length with early | late
    · rw [List.getElem?_append_left early] at there ⊢
      exact there
    · rw [List.getElem?_append_right late] at there ⊢
      obtain ⟨k, place⟩ := Nat.exists_eq_add_of_lt (Nat.lt_of_le_of_ne late (Ne.symm apart))
      have beyond : i' - before.length = k + 1 := by omega
      rw [beyond, List.getElem?_cons_succ] at there ⊢
      exact there

omit [DoubleText ν] in
theorem distinct_congr {l l' : List (Item ν)}
    (same : l'.map (fun d => d.string.map fold) = l.map fun d => d.string.map fold)
    (h : Distinct l) : Distinct l' := by
  have pairs : ∀ l : List (Item ν), Distinct l ↔
      (l.map fun d => d.string.map fold).Pairwise (· ≠ ·) := by
    intro l
    rw [Distinct, List.pairwise_map]
  rw [pairs, same, ← pairs]
  exact h

end Over

section Edits
variable {full : Prop} {next : Nat} {n n' c c' : Node} {j j' d d' f : Item ν} {s : Step}
variable {before after : List (Item ν)}

/-- Another node at the end of one step, and nothing else. -/
structure Swapped (n : Node) (s : Step) (c' n' : Node) : Prop where
  info : n'.info = n.info
  ordered : Ordered Node.scopeKey n'.nextScope
  follows : ∀ s', n'.follow s' = if s' = s then some c' else n.follow s'
  idents : n'.array.map (fun e => e.info.ident) = n.array.map fun e => e.info.ident

theorem swapped_modifyAt {write : Node → Node} {rest : Path}
    (ordered : Ordered Node.scopeKey n.nextScope) (found : n.follow s = some c)
    (key : (c.modifyAt write rest).scopeKey = c.scopeKey)
    (ident : (c.modifyAt write rest).info.ident = c.info.ident) :
    Swapped n s (c.modifyAt write rest) (n.modifyAt write (s :: rest)) where
  info := modifyAt_info
  ordered := by
    cases s with
    | item i => simpa [Node.modifyAt] using ordered
    | scope name =>
      rw [Node.modifyAt, Node.nextScope_setNextScope]
      refine ordered_modify Node.scopeKey ?_ ordered
      intro x hx
      obtain rfl := Option.some.inj (found.symm.trans hx)
      exact key
  follows s' := by
    cases s with
    | item i =>
      cases s' with
      | scope name => simp [Node.modifyAt, Node.follow]
      | item i' =>
        have there : n.array[i]? = some c := found
        simp only [Node.modifyAt, Node.follow, Node.array_setArray, List.getElem?_modify,
          Step.item.injEq]
        by_cases same : i = i'
        · subst same
          simp [there]
        · simp [same, Ne.symm same]
    | scope name =>
      have there : avlsearch Node.scopeKey n.nextScope name = some c := found
      have keeps : ∀ x, avlsearch Node.scopeKey n.nextScope name = some x →
          (x.modifyAt write rest).scopeKey = x.scopeKey := by
        intro x hx
        obtain rfl := Option.some.inj (there.symm.trans hx)
        exact key
      cases s' with
      | item i => simp [Node.modifyAt, Node.follow]
      | scope name' =>
        simp only [Node.modifyAt, Node.follow, Node.nextScope_setNextScope,
          avlsearch_modify Node.scopeKey keeps, Step.scope.injEq]
        split
        · rename_i same
          rw [there]
          rfl
        · rfl
  idents := by
    cases s with
    | scope name => simp [Node.modifyAt]
    | item i =>
      have there : n.array[i]? = some c := found
      apply List.ext_getElem?
      intro k
      simp only [Node.modifyAt, Node.array_setArray, List.getElem?_map, List.getElem?_modify]
      by_cases here : i = k
      · subst here
        simp [there, ident]
      · simp [here]

/-- A child, and the node over it, in the place of others. -/
theorem over_swapped (h : Over full next n j) (found : n.follow s = some c)
    (split : j.child = before ++ f :: after) (place : At s before f) (swapped : Swapped n s c' n')
    (named : d'.string.map fold = f.string.map fold) (unnamed : f.string = none → d'.string = none)
    (parent : c'.info.jsonparentptr = some j.addr) (tells : Tells c' d')
    (overlay : Over full next c' d') :
    Over full next n' (j.setChild fun _ => before ++ d' :: after) := by
  obtain ⟨linked, room, length, leaf, apart, older, whole, known⟩ := h.here
  have still : ∀ s', (n'.follow s').isSome = (n.follow s').isSome := by
    intro s'
    rw [swapped.follows]
    split
    · rename_i same
      rw [same, found]
      rfl
    · rfl
  have size : n'.array.length = n.array.length := by
    have lengths := congrArg List.length swapped.idents
    simpa using lengths
  apply over_of_steps
  · refine ⟨⟨?_, ?_, swapped.ordered, ?_⟩, ?_, ?_, ?_, ?_, ?_, ?_, by rwa [swapped.info]⟩
    · rw [swapped.info, addr_setChild]
      exact linked.ptr
    · intro s' x hx
      rw [addr_setChild]
      rw [swapped.follows] at hx
      split at hx
      · obtain rfl := Option.some.inj hx
        exact parent
      · exact linked.below s' x hx
    · rw [swapped.info, size]
      exact linked.size
    · rw [swapped.info]
      exact room
    · rw [swapped.info, size, child_setChild]
      intro array
      rw [length array, split]
      simp
    · rw [swapped.info]
      intro isLeaf
      have none := leaf isLeaf
      rw [split] at none
      simp at none
    · rw [swapped.idents]
      exact apart
    · intro e he
      have mem : e.info.ident ∈ n.array.map fun e => e.info.ident := by
        rw [← swapped.idents]
        exact List.mem_map_of_mem he
      obtain ⟨e', he', same⟩ := List.mem_map.mp mem
      rw [← same]
      exact older e' he'
    · rw [swapped.info, child_setChild]
      intro isFull scopes
      obtain ⟨distinct, members⟩ := whole isFull scopes
      rw [split] at distinct members
      refine ⟨distinct_congr (by simp [named]) distinct, ?_⟩
      intro x hx
      rw [List.mem_append, List.mem_cons] at hx
      have old : x ∈ before ++ f :: after → ∃ key, x.string.map fold = some key ∧
          (n'.follow (.scope key)).isSome := by
        intro mem
        obtain ⟨key, name, there⟩ := members x mem
        exact ⟨key, name, by rw [still]; exact there⟩
      rcases hx with early | rfl | late
      · exact old (List.mem_append_left _ early)
      · obtain ⟨key, name, there⟩ := members f (by simp)
        exact ⟨key, by rw [named, name], by rw [still]; exact there⟩
      · exact old (List.mem_append_right _ (List.mem_cons_of_mem _ late))
  · intro s' x hx
    rw [swapped.follows] at hx
    split at hx
    · rename_i same
      obtain rfl := Option.some.inj hx
      subst same
      refine ⟨d', ?_, tells, overlay⟩
      cases s' with
      | scope key =>
        refine ⟨by simp, ?_⟩
        rw [named]
        exact place
      | item i =>
        refine ⟨?_, unnamed place.2⟩
        rw [child_setChild, ← place.1]
        simp
    · rename_i other
      obtain ⟨d, seat, shown, below⟩ := h.down hx
      exact ⟨d, seat_other split place (child_setChild _ _) other seat, shown, below⟩

/-- A node that takes the place of another: it has the same names and pointers, except for
what a change below may change. -/
structure Replaces (m m' : Node) : Prop where
  scopeName : m'.info.scopeName = m.info.scopeName
  jsl : m'.info.jsl = m.info.jsl
  scopeValue : m'.info.scopeValue = m.info.scopeValue
  ident : m'.info.ident = m.info.ident
  parentptr : m'.info.jsonparentptr = m.info.jsonparentptr

theorem Replaces.of_info {m m' : Node} (same : m'.info = m.info) : Replaces m m' := by
  constructor <;> rw [same]

theorem Tells.setChild {g : List (Item ν) → List (Item ν)} (h : Tells c d)
    (replaces : Replaces c c') : Tells c' (d.setChild g) where
  jsl := by
    rw [replaces.jsl, h.jsl, itemJsl, itemJsl, kind_setChild, string_setChild]
  text s string := by
    rw [kind_setChild] at string
    rw [replaces.scopeValue, h.text s string, valueText, valueText, kind_setChild, string_setChild]

omit [DoubleText ν] in
theorem items_addrs {x : Item ν} (inside : x ∈ j.items) : x.addr ∈ j.addrs :=
  List.mem_map_of_mem inside

/-- A change of the node and the item at a place is a change of the node and item above. -/
theorem over_at {q : Path} {m : Node} (h : Over full next n j) (nodup : j.addrs.Nodup)
    (there : n.getAt q = some m) : ∃ x ∈ j.items, Over full next m x ∧ (q = [] → x = j) ∧
      (q ≠ [] → Tells m x) ∧
      ∀ (next' : Nat) (m' : Node) (g : List (Item ν) → List (Item ν)), next ≤ next' →
        Replaces m m' → Over full next' m' (x.setChild g) →
        Over full next' (n.modifyAt (fun _ => m') q) (j.update x.addr (setChild g)) := by
  induction q generalizing n j with
  | nil =>
    obtain rfl := Option.some.inj there
    refine ⟨j, self_mem_items j, h, fun _ => rfl, fun started => absurd rfl started, ?_⟩
    intro next' m' g _ _ overlay
    rw [update_here]
    exact overlay
  | cons s rest ih =>
    rw [Node.getAt] at there
    obtain ⟨c, found, further⟩ := Option.bind_eq_some_iff.mp there
    obtain ⟨d, seat, tells, below⟩ := h.down found
    have child := seat.child
    rw [addrs_eq, List.nodup_cons] at nodup
    obtain ⟨fresh, nodup⟩ := nodup
    obtain ⟨before, after, split, place⟩ := seat.split
    rw [split, List.flatMap_append, List.flatMap_cons, List.nodup_append',
      List.nodup_append'] at nodup
    obtain ⟨_, ⟨nodupD, _, late⟩, early⟩ := nodup
    obtain ⟨x, inside, overlay, last, shown, change⟩ := ih below nodupD further
    have addr : x.addr ∈ d.addrs := items_addrs inside
    refine ⟨x, mem_items_of_child child inside, overlay, by simp, ?_, ?_⟩
    · intro _
      by_cases here : rest = []
      · obtain rfl := last here
        subst here
        obtain rfl := Option.some.inj further
        exact tells
      · exact shown here
    · intro next' m' g later replaces overlay'
      have apart : j.addr ≠ x.addr := by
        intro same
        refine fresh (List.mem_flatMap.mpr ⟨d, child, ?_⟩)
        rw [same]
        exact addr
      have outside : ∀ (l : List (Item ν)), (∀ a ∈ d.addrs, a ∉ l.flatMap addrs) →
          l.map (Item.update x.addr (setChild g)) = l :=
        fun l other => update_map_of_not_mem _ (other x.addr addr)
      have written : j.update x.addr (setChild g) =
          j.setChild fun _ => before ++ d.update x.addr (setChild g) :: after := by
        rw [update_below apart]
        apply setChild_congr
        rw [split, List.map_append, List.map_cons,
          outside before fun a ha hb => early hb (List.mem_append_left _ ha),
          outside after fun a ha hb => late ha hb]
      have kept : Replaces c (c.modifyAt (fun _ => m') rest) := by
        cases rest with
        | nil =>
          obtain rfl := Option.some.inj further
          exact replaces
        | cons s' rest' => exact .of_info modifyAt_info
      have key : (c.modifyAt (fun _ => m') rest).scopeKey = c.scopeKey := by
        rw [Node.scopeKey, Node.scopeKey, kept.scopeName]
      rw [written]
      refine over_swapped (h.mono later) found split place
        (swapped_modifyAt h.here.linked.ordered found key kept.ident) ?_ ?_ ?_ ?_
        (change next' m' g later replaces overlay')
      · rw [string_update]
      · rw [string_update]
        exact id
      · rw [kept.parentptr]
        exact h.here.linked.below s c found
      · have same : itemJsl (d.update x.addr (setChild g)) = itemJsl d := by
          rw [itemJsl, itemJsl, string_update, kind_update]
        refine ⟨by rw [kept.jsl, tells.jsl, same], fun v string => ?_⟩
        rw [kind_update] at string
        rw [kept.scopeValue, tells.text v string, valueText, valueText, string_update, kind_update]

/-- A node with nothing below it, over an item without children. -/
theorem over_leaf (ptr : n.info.jsonptr = some j.addr) (size : n.info.arraysize = 0)
    (ordered : Ordered Node.scopeKey n.nextScope) (nowhere : ∀ s, n.follow s = none)
    (child : j.child = []) (known : full → n.info.jsl ≠ .dir) : Over full next n j := by
  have array : n.array = [] := by
    have short := List.getElem?_eq_none_iff.mp (nowhere (.item 0))
    exact List.length_eq_zero_iff.mp (Nat.le_zero.mp short)
  apply over_of_steps
  · refine ⟨⟨ptr, ?_, ordered, ?_⟩, ?_, ?_, fun _ => child, ?_, ?_, ?_, known⟩
    · intro s c found
      rw [nowhere] at found
      cases found
    · rw [size, array]
      rfl
    · rw [size]
      decide
    · rw [array, child]
      exact fun _ => rfl
    · simp [array]
    · simp [array]
    · rw [child]
      exact fun _ _ => ⟨List.Pairwise.nil, nofun⟩
  · intro s c found
    rw [nowhere] at found
    cases found

/-- Nothing is below a node over an item without children. -/
theorem Over.nowhere (h : Over full next n j) (child : j.child = []) (s : Step) :
    n.follow s = none := by
  cases found : n.follow s with
  | none => rfl
  | some c =>
    obtain ⟨d, seat, _⟩ := h.down found
    have mem := seat.child
    rw [child] at mem
    cases mem

/-- Every element of an array has a node. -/
theorem Over.element (h : Over full next n j) (array : n.info.jsl = .array) (child : d ∈ j.child) :
    ∃ i c, n.follow (.item i) = some c ∧ Seat j (.item i) d ∧ Tells c d ∧ Over full next c d := by
  obtain ⟨i, there⟩ := List.getElem?_of_mem child
  have inside := (List.getElem?_eq_some_iff.mp there).1
  rw [← h.here.length array] at inside
  have found : n.follow (.item i) = some n.array[i] := List.getElem?_eq_getElem inside
  obtain ⟨d', seat, rest⟩ := h.down found
  obtain rfl := Option.some.inj (seat.1.symm.trans there)
  exact ⟨i, _, found, seat, rest⟩

/-- Where nothing is left out, there is one child for a seat. -/
theorem Over.seat_unique (h : Over full next n j) (isFull : full) (seat : Seat j s d)
    (seat' : Seat j s d') : d = d' := by
  cases s with
  | item i => exact Option.some.inj (seat.1.symm.trans seat'.1)
  | scope key =>
    by_cases array : n.info.jsl = .array
    · obtain ⟨_, _, _, unnamed, _⟩ := h.element array seat.1
      have named := seat.2
      rw [unnamed.2] at named
      cases named
    · exact List.inj_on_of_nodup_map (List.pairwise_map.mpr (h.here.whole isFull array).1) seat.1
        seat'.1 (seat.2.trans seat'.2.symm)

/-- Where nothing is left out, every child of the item has a node. -/
theorem Over.reaches (h : Over full next n j) (isFull : full) (child : d ∈ j.child) :
    ∃ s c, n.follow s = some c ∧ Seat j s d ∧ Tells c d ∧ Over full next c d := by
  by_cases array : n.info.jsl = .array
  · obtain ⟨i, there⟩ := h.element array child
    exact ⟨_, there⟩
  · obtain ⟨key, named, entered⟩ := (h.here.whole isFull array).2 d child
    obtain ⟨c, found⟩ := Option.isSome_iff_exists.mp entered
    obtain ⟨d', seat, rest⟩ := h.down found
    obtain rfl := h.seat_unique isFull seat ⟨child, named⟩
    exact ⟨_, c, found, seat, rest⟩

/-- A new member. -/
theorem over_inserted (h : Over full next n j) (scopes : n.info.jsl ≠ .array)
    (open' : isLeaf n.info.jsl = false)
    (missing : n.follow (.scope c.scopeKey) = none)
    (named : d.string.map fold = some c.scopeKey)
    (parent : c.info.jsonparentptr = some j.addr) (tells : Tells c d)
    (overlay : Over full next c d) :
    Over full next (insertScope n c) (j.setChild (· ++ [d])) := by
  obtain ⟨linked, room, length, _, apart, older, whole, known⟩ := h.here
  have follows : ∀ s, (insertScope n c).follow s = if s = .scope c.scopeKey then some c
      else n.follow s := by
    intro s
    rw [follow_insertScope linked.ordered]
    split
    · rename_i same
      rw [same, missing]
      rfl
    · rfl
  apply over_of_steps
  · refine ⟨⟨by simpa using linked.ptr, ?_, ordered_insertScope linked.ordered c,
      by simpa using linked.size⟩, by simpa using room, ?_, ?_, by simpa using apart,
      by simpa using older, ?_, by simpa using known⟩
    · intro s x hx
      rw [follows] at hx
      rw [addr_setChild]
      split at hx
      · obtain rfl := Option.some.inj hx
        exact parent
      · exact linked.below s x hx
    · rw [insertScope_info]
      exact fun array => absurd array scopes
    · rw [insertScope_info, open']
      exact nofun
    · intro isFull _
      obtain ⟨distinct, members⟩ := whole isFull scopes
      rw [child_setChild]
      constructor
      · refine List.pairwise_append.mpr ⟨distinct, List.pairwise_singleton .., ?_⟩
        intro x hx y hy same
        obtain rfl := List.mem_singleton.mp hy
        obtain ⟨key, name, there⟩ := members x hx
        rw [name, named] at same
        rw [Option.some.inj same, missing] at there
        cases there
      · intro x hx
        rw [List.mem_append, List.mem_singleton] at hx
        rcases hx with old | rfl
        · obtain ⟨key, name, there⟩ := members x old
          refine ⟨key, name, ?_⟩
          rw [follows]
          split
          · rfl
          · exact there
        · exact ⟨_, named, by rw [follows, if_pos rfl]; rfl⟩
  · intro s x hx
    rw [follows] at hx
    split at hx
    · rename_i same
      obtain rfl := Option.some.inj hx
      subst same
      exact ⟨d, ⟨by simp, named⟩, tells, overlay⟩
    · obtain ⟨y, seat, shown, below⟩ := h.down hx
      refine ⟨y, ?_, shown, below⟩
      cases s with
      | scope key => exact ⟨by simp [seat.1], seat.2⟩
      | item i =>
        refine ⟨?_, seat.2⟩
        rw [child_setChild, List.getElem?_append_left (List.getElem?_eq_some_iff.mp seat.1).1]
        exact seat.1

/-- A new item at the end of an array. -/
theorem over_addItem (h : Over full next n j) (array : n.info.jsl = .array)
    (room : n.info.arraysize + 1 < jaSymLast) (unnamed : d.string = none)
    (new : ∀ e ∈ n.array, e.info.ident ≠ c.info.ident) (given : c.info.ident < next)
    (parent : c.info.jsonparentptr = some j.addr) (tells : Tells c d)
    (overlay : Over full next c d) :
    Over full next (addItem n c) (j.setChild (· ++ [d])) := by
  obtain ⟨linked, _, length, _, apart, older, _, known⟩ := h.here
  have items : (addItem n c).array = n.array ++ [c] := by simp [addItem]
  have scopes : ∀ key, (addItem n c).follow (.scope key) = n.follow (.scope key) := by
    intro key
    simp [addItem, Node.follow]
  have follows : ∀ i x, (addItem n c).follow (.item i) = some x →
      (i = n.array.length ∧ x = c) ∨ n.follow (.item i) = some x := by
    intro i x hx
    rw [Node.follow, items] at hx
    rcases Nat.lt_or_ge i n.array.length with early | late
    · rw [List.getElem?_append_left early] at hx
      exact Or.inr hx
    · rw [List.getElem?_append_right late] at hx
      have last := (List.getElem?_eq_some_iff.mp hx).1
      simp only [List.length_singleton] at last
      have place : i = n.array.length := by omega
      subst place
      simp only [Nat.sub_self, List.getElem?_cons_zero, Option.some.injEq] at hx
      exact Or.inl ⟨rfl, hx.symm⟩
  apply over_of_steps
  · refine ⟨⟨by simpa [addItem] using linked.ptr, ?_, by simpa [addItem] using linked.ordered, ?_⟩,
      by simpa [addItem] using room, ?_, ?_, ?_, ?_, ?_, by simpa [addItem] using known⟩
    · intro s x hx
      rw [addr_setChild]
      cases s with
      | scope key =>
        rw [scopes] at hx
        exact linked.below _ x hx
      | item i =>
        rcases follows i x hx with ⟨_, rfl⟩ | old
        · exact parent
        · exact linked.below _ x old
    · have size := linked.size
      simp [addItem, size]
    · intro _
      rw [items, child_setChild, List.length_append, List.length_append, length array]
      rfl
    · intro leaf
      have level : (addItem n c).info.jsl = .array := by simpa [addItem] using array
      rw [level] at leaf
      cases leaf
    · rw [items, List.map_append]
      refine List.nodup_append'.mpr ⟨apart, List.nodup_singleton _, ?_⟩
      intro i old here
      obtain ⟨e, he, rfl⟩ := List.mem_map.mp old
      exact new e he (List.mem_singleton.mp here)
    · intro e he
      rw [items, List.mem_append, List.mem_singleton] at he
      rcases he with old | rfl
      · exact older e old
      · exact given
    · intro _ other
      exact absurd (by simpa [addItem] using array) other
  · intro s x hx
    have seated : ∀ {s : Step} {x : Node}, n.follow s = some x →
        ∃ y, Seat (j.setChild (· ++ [d])) s y ∧ Tells x y ∧ Over full next x y := by
      intro s x hx
      obtain ⟨y, seat, shown, below⟩ := h.down hx
      refine ⟨y, ?_, shown, below⟩
      cases s with
      | scope key => exact ⟨by simp [seat.1], seat.2⟩
      | item i =>
        refine ⟨?_, seat.2⟩
        rw [child_setChild, List.getElem?_append_left (List.getElem?_eq_some_iff.mp seat.1).1]
        exact seat.1
    cases s with
    | scope key =>
      rw [scopes] at hx
      exact seated hx
    | item i =>
      rcases follows i x hx with ⟨rfl, rfl⟩ | old
      · refine ⟨d, ⟨?_, unnamed⟩, tells, overlay⟩
        rw [child_setChild, length array, List.getElem?_append_right (Nat.le_refl _), Nat.sub_self]
        rfl
      · exact seated old

omit [DoubleText ν] in
/-- Of members with different names one is gone. -/
theorem not_named_of_eraseP {l : List (Item ν)} (distinct : Distinct l) {name : Bytes} {x : Item ν}
    (mem : x ∈ l.eraseP (Item.named name)) : x.string.map fold ≠ some (fold name) := by
  have named : ∀ d : Item ν, d.named name = true ↔ d.string.map fold = some (fold name) := by
    intro d
    rw [Item.named]
    cases d.string <;> simp
  induction l with
  | nil => cases mem
  | cons c rest ih =>
    obtain ⟨first, later⟩ := List.pairwise_cons.mp distinct
    by_cases here : c.named name = true
    · rw [List.eraseP_cons_of_pos here] at mem
      rw [← (named c).mp here]
      exact (first x mem).symm
    · rw [List.eraseP_cons_of_neg here, List.mem_cons] at mem
      rcases mem with rfl | mem
      · exact fun same => here ((named x).mpr same)
      · exact ih later mem

/-- A member is taken out. -/
theorem over_removed (h : Over full next n j) (scopes : n.info.jsl ≠ .array)
    (noItems : n.array = []) (name : Bytes) :
    Over full next (removeScope n name) (j.setChild (·.eraseP (Item.named name))) := by
  obtain ⟨linked, room, length, leaf, apart, older, whole, known⟩ := h.here
  have follows := follow_removeScope linked.ordered name
  apply over_of_steps
  · refine ⟨⟨by simpa using linked.ptr, ?_, ordered_removeScope linked.ordered name,
      by simpa using linked.size⟩, by simpa using room, ?_, ?_, by simpa using apart,
      by simpa using older, ?_, by simpa using known⟩
    · intro s x hx
      rw [follows] at hx
      rw [addr_setChild]
      split at hx
      · cases hx
      · exact linked.below s x hx
    · rw [removeScope_info]
      exact fun array => absurd array scopes
    · rw [removeScope_info, child_setChild]
      intro isLeaf
      rw [leaf isLeaf]
      rfl
    · intro isFull _
      obtain ⟨distinct, members⟩ := whole isFull scopes
      rw [child_setChild]
      refine ⟨List.Pairwise.sublist List.eraseP_sublist distinct, fun x hx => ?_⟩
      obtain ⟨key, named, there⟩ := members x (List.mem_of_mem_eraseP hx)
      refine ⟨key, named, ?_⟩
      rw [follows, if_neg]
      · exact there
      · intro same
        refine not_named_of_eraseP distinct hx ?_
        rw [named, Step.scope.inj same]
  · intro s x hx
    rw [follows] at hx
    split at hx
    · cases hx
    · rename_i other
      obtain ⟨y, seat, shown, below⟩ := h.down hx
      refine ⟨y, ?_, shown, below⟩
      cases s with
      | item i =>
        rw [Node.follow, noItems] at hx
        cases hx
      | scope key =>
        refine ⟨?_, seat.2⟩
        have unnamed : ¬ y.named name = true := by
          intro named
          rw [Item.named] at named
          cases string : y.string with
          | none => simp [string] at named
          | some own =>
            have same := seat.2
            rw [string, Option.map_some, Option.some.injEq] at same
            simp only [string, decide_eq_true_eq] at named
            exact other (congrArg Step.scope (same.symm.trans named))
        rw [child_setChild]
        exact (List.mem_eraseP_of_neg unnamed).mpr seat.1

theorem over_decreaseIndex (h : Over full next n j) : Over full next (decreaseIndex n) j := by
  obtain ⟨⟨ptr, parents, ordered, size⟩, room, length, leaf, apart, older, whole, known⟩ := h.here
  have follows : ∀ s, (decreaseIndex n).follow s = n.follow s := by
    intro s
    rw [decreaseIndex, follow_setInfo]
  apply over_of_steps
  · refine ⟨⟨?_, ?_, by simpa using ordered, by simpa using size⟩, by simpa using room,
      by simpa using length, by simpa using leaf, by simpa using apart, by simpa using older, ?_,
      by rwa [decreaseIndex_jsl]⟩
    · rw [decreaseIndex, Node.info_setInfo]
      exact ptr
    · simp only [follows]
      exact parents
    · simp only [follows, decreaseIndex_jsl]
      exact whole
  · simp only [follows]
    exact fun s c found => h.down found

theorem Tells.decreaseIndex (h : Tells c d) : Tells (decreaseIndex c) d := by
  refine ⟨by rw [decreaseIndex_jsl, h.jsl], fun s string => ?_⟩
  rw [Runtime.decreaseIndex, Node.info_setInfo]
  exact h.text s string

/-- The items after one was taken out. -/
theorem array_dropItem {k : Nat} {e : Node} (entered : n.follow (.item k) = some e)
    (apart : (n.array.map fun e => e.info.ident).Nodup) :
    (dropItem n e).array = n.array.take k ++ (n.array.drop (k + 1)).map decreaseIndex ∧
      (n.array.take k).length = k := by
  have there : n.array[k]? = some e := entered
  obtain ⟨split, length⟩ := DeleteLaw.split_at there
  refine ⟨dropItem_split split fun b hb same => ?_, length⟩
  rw [split, List.map_append, List.map_cons, List.nodup_append'] at apart
  refine apart.2.2 (List.mem_map_of_mem hb) ?_
  rw [same]
  exact List.mem_cons_self ..

theorem follow_dropItem {k : Nat} {e : Node} (entered : n.follow (.item k) = some e)
    (apart : (n.array.map fun e => e.info.ident).Nodup) (i : Nat) :
    (dropItem n e).follow (.item i) = if i < k then n.follow (.item i)
      else (n.follow (.item (i + 1))).map decreaseIndex := by
  obtain ⟨items, length⟩ := array_dropItem entered apart
  rw [Node.follow, items]
  split
  · rename_i early
    rw [List.getElem?_append_left (by omega), List.getElem?_take_of_lt early]
    rfl
  · rename_i late
    rw [List.getElem?_append_right (by omega), length, List.getElem?_map, List.getElem?_drop]
    have place : k + 1 + (i - k) = i + 1 := by omega
    rw [place]
    rfl

/-- An item is taken out, with the element that it stands over. -/
theorem over_dropped (h : Over full next n j) (array : n.info.jsl = .array)
    (noScopes : n.nextScope = .nil) {k : Nat} {e : Node} (entered : n.follow (.item k) = some e) :
    Over full next (dropItem n e) (j.setChild (·.eraseIdx k)) := by
  obtain ⟨linked, room, length, leaf, apart, older, _, known⟩ := h.here
  have follows := follow_dropItem entered apart
  obtain ⟨items, front⟩ := array_dropItem entered apart
  have noMembers : ∀ key, (dropItem n e).follow (.scope key) = none := by
    intro key
    simp only [dropItem, Node.follow, Node.nextScope_setInfo, Node.nextScope_setArray, noScopes]
    rfl
  have inside : k < n.array.length := by
    have there : n.array[k]? = some e := entered
    exact (List.getElem?_eq_some_iff.mp there).1
  have fewer : (dropItem n e).array.length + 1 = n.array.length := by
    rw [items, List.length_append, List.length_map, List.length_drop, front]
    omega
  have size : (dropItem n e).info.arraysize = n.info.arraysize - 1 := by simp [dropItem]
  have sizes := linked.size
  have idents : (dropItem n e).array.map (fun e => e.info.ident) =
      (n.array.map fun e => e.info.ident).eraseIdx k := by
    rw [items, List.eraseIdx_eq_take_drop_succ, List.map_append, List.map_map, List.map_take,
      List.map_drop]
    congr 2
    exact List.map_congr_left fun c _ => decreaseIndex_ident c
  have old : ∀ {i : Nat} {x : Node}, (dropItem n e).follow (.item i) = some x →
      ∃ i' x', n.follow (.item i') = some x' ∧ (x = x' ∨ x = decreaseIndex x') ∧
        (j.child.eraseIdx k)[i]? = j.child[i']? := by
    intro i x hx
    rw [follows] at hx
    rw [List.getElem?_eraseIdx]
    split at hx
    · exact ⟨i, x, hx, Or.inl rfl, if_pos ‹_›⟩
    · obtain ⟨x', hx', rfl⟩ := Option.map_eq_some_iff.mp hx
      exact ⟨i + 1, x', hx', Or.inr rfl, if_neg ‹_›⟩
  apply over_of_steps
  · refine ⟨⟨by simpa [dropItem] using linked.ptr, ?_,
      by simpa [dropItem] using linked.ordered, ?_⟩,
      ?_, ?_, ?_, ?_, ?_, ?_, by simpa [dropItem] using known⟩
    · intro s x hx
      rw [addr_setChild]
      cases s with
      | scope key =>
        rw [noMembers] at hx
        cases hx
      | item i =>
        obtain ⟨i', x', hx', rfl | rfl, _⟩ := old hx
        · exact linked.below _ x hx'
        · have parent := linked.below _ x' hx'
          rwa [decreaseIndex, Node.info_setInfo]
    · omega
    · omega
    · intro _
      rw [child_setChild, List.length_eraseIdx]
      have lengths := length array
      rw [if_pos (by omega)]
      omega
    · have level : (dropItem n e).info.jsl = n.info.jsl := by simp [dropItem]
      rw [level, child_setChild]
      intro isLeaf
      rw [leaf isLeaf]
      rfl
    · rw [idents]
      exact apart.sublist (List.eraseIdx_sublist _ _)
    · intro x hx
      have mem : x.info.ident ∈ (n.array.map fun e => e.info.ident).eraseIdx k := by
        rw [← idents]
        exact List.mem_map_of_mem hx
      obtain ⟨x', hx', same⟩ := List.mem_map.mp (List.mem_of_mem_eraseIdx mem)
      rw [← same]
      exact older x' hx'
    · intro _ other
      exact absurd (by simpa [dropItem] using array) other
  · intro s x hx
    cases s with
    | scope key =>
      rw [noMembers] at hx
      cases hx
    | item i =>
      obtain ⟨i', x', hx', same, place⟩ := old hx
      obtain ⟨y, seat, shown, below⟩ := h.down hx'
      refine ⟨y, ⟨?_, seat.2⟩, ?_⟩
      · rw [child_setChild, place]
        exact seat.1
      · rcases same with rfl | rfl
        · exact ⟨shown, below⟩
        · exact ⟨shown.decreaseIndex, over_decreaseIndex below⟩

end Edits

end Backing
