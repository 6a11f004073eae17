import Cfgd.Loader

/-!
# What a document says

A document read on its own, without the tree: which item a path leads to, and
what a node shows of its item. `Mirrors` relates a node to an item when every
path below them leads both ways or neither, and to nodes that show their items.
Loading a document builds a node that mirrors it.
-/

namespace DocTree

open AvlTree CText CJson Request ConfigNode Loader

variable {ν : Type} [DoubleText ν]

/-- The scope name that a member is loaded under; a member without one is not loaded. -/
def memberName (item : Item ν) : Option Bytes :=
  item.string.bind fun name => match item.kind with
    | .cjsonObject => ldrOrganizeScopeName name
    | .cjsonNumber _ => ldrOrganizeScopeName name
    | .cjsonString _ => ldrOrganizeScopeName name
    | .cjsonArray => some name
    | _ => none

/-- The member of an object that a key means: the first that is loaded under it. -/
def memberOf (child : List (Item ν)) (key : Bytes) : Option (Item ν) :=
  child.find? fun c => (memberName c).map fold = some key

/-- One step in a document. Only an array that is a member has elements to step to. -/
def follow (item : Item ν) : Step → Option (Item ν)
  | .scope key => match item.kind with
    | .cjsonObject => memberOf item.child key
    | _ => none
  | .item i => match item.kind, item.string with
    | .cjsonArray, some _ => item.child[i]?
    | _, _ => none

/-- The level of the node that an item gets, as a member or as an element. -/
def itemJsl (item : Item ν) : Jsl :=
  match item.string, item.kind with
  | some _, .cjsonObject => .logicScope
  | some _, .cjsonNumber _ => .field
  | some _, .cjsonString _ => .field
  | some _, .cjsonArray => .array
  | none, .cjsonObject => .arrayItem
  | none, .cjsonNumber _ => .arrayItemAsField
  | none, .cjsonString _ => .arrayItemAsField
  | _, _ => .dir

/-- The text that is shown for a leaf. -/
def valueText (item : Item ν) : Bytes :=
  match item.kind with
  | .cjsonNumber valuedouble => numberValue valuedouble
  | .cjsonString valuestring =>
    limitValue (if item.string.isSome then scopeSavelenOutofLimit else 64) valuestring
  | _ => []

def isLeaf (jsl : Jsl) : Bool := jsl = .field || jsl = .arrayItemAsField

/-- The node shows the level and the value of the item. -/
structure Shows (n : Node) (j : Item ν) : Prop where
  jsl : n.info.jsl = itemJsl j
  value : isLeaf n.info.jsl = true → n.info.scopeValue = valueText j

/-- The node refers to the item, and its own lists are in order. -/
structure Linked (n : Node) (j : Item ν) : Prop where
  ptr : n.info.jsonptr = some j.addr
  below : ∀ s c, n.follow s = some c → c.info.jsonparentptr = some j.addr
  ordered : Ordered Node.scopeKey n.nextScope
  size : n.info.arraysize = n.array.length

inductive Mirrors : Node → Item ν → Prop where
  | mk {n : Node} {j : Item ν} (linked : Linked n j)
      (both : ∀ s, (n.follow s).isSome = (follow j s).isSome)
      (shown : ∀ s c d, n.follow s = some c → follow j s = some d → Shows c d)
      (below : ∀ s c d, n.follow s = some c → follow j s = some d → Mirrors c d) :
      Mirrors n j

theorem Mirrors.linked {n : Node} {j : Item ν} : Mirrors n j → Linked n j
  | .mk linked _ _ _ => linked

/-- From a step in the tree to the step in the document. -/
theorem Mirrors.down {n c : Node} {j : Item ν} (h : Mirrors n j) {s : Step}
    (hc : n.follow s = some c) : ∃ d, follow j s = some d ∧ Shows c d ∧ Mirrors c d := by
  obtain ⟨_, both, shown, below⟩ := h
  have some_d : (follow j s).isSome = true := by rw [← both s, hc]; rfl
  obtain ⟨d, hd⟩ := Option.isSome_iff_exists.mp some_d
  exact ⟨d, hd, shown s c d hc hd, below s c d hc hd⟩

/-- From a step in the document to the step in the tree. -/
theorem Mirrors.up {n : Node} {j d : Item ν} (h : Mirrors n j) {s : Step}
    (hd : follow j s = some d) : ∃ c, n.follow s = some c ∧ Shows c d ∧ Mirrors c d := by
  obtain ⟨_, both, shown, below⟩ := h
  have some_c : (n.follow s).isSome = true := by rw [both s, hd]; rfl
  obtain ⟨c, hc⟩ := Option.isSome_iff_exists.mp some_c
  exact ⟨c, hc, shown s c d hc hd, below s c d hc hd⟩

theorem Mirrors.none_iff {n : Node} {j : Item ν} (h : Mirrors n j) (s : Step) :
    n.follow s = none ↔ follow j s = none := by
  obtain ⟨_, both, _, _⟩ := h
  rw [← Option.isNone_iff_eq_none, ← Option.isNone_iff_eq_none, ← Option.not_isSome,
    ← Option.not_isSome, both s]

/-- One step of both sides at once: the way in which mirrors are built. -/
theorem mirrors_of_steps {n : Node} {j : Item ν} (linked : Linked n j)
    (steps : ∀ s, (n.follow s = none ∧ follow j s = none) ∨
      ∃ c d, n.follow s = some c ∧ follow j s = some d ∧ Shows c d ∧ Mirrors c d) :
    Mirrors n j := by
  refine .mk linked ?_ ?_ ?_
  · intro s
    rcases steps s with ⟨hn, hj⟩ | ⟨c, d, hn, hj, _⟩
    · rw [hn, hj]
      rfl
    · rw [hn, hj]
      rfl
  · intro s c d hc hd
    rcases steps s with ⟨hn, _⟩ | ⟨c', d', hn, hj, hs, _⟩
    · rw [hn] at hc
      cases hc
    · obtain rfl := Option.some.inj (hn.symm.trans hc)
      obtain rfl := Option.some.inj (hj.symm.trans hd)
      exact hs
  · intro s c d hc hd
    rcases steps s with ⟨hn, _⟩ | ⟨c', d', hn, hj, _, hm⟩
    · rw [hn] at hc
      cases hc
    · obtain rfl := Option.some.inj (hn.symm.trans hc)
      obtain rfl := Option.some.inj (hj.symm.trans hd)
      exact hm

section Loading

/-- The node of a member with everything below it. -/
def memberNode (jsonparentptr : Option Addr) (item : Item ν) : Option Node :=
  item.string.bind fun name => (memberInfo jsonparentptr item name).map fun info =>
    match item.kind with
    | .cjsonArray => .mk info .nil (loadElements item)
    | .cjsonObject => loadChildren (.mk info .nil []) item
    | _ => .mk info .nil []

/-- The node of an element with everything below it. -/
def elementNode (array : Addr) (arrayName : Bytes) (i : Nat) (item : Item ν) : Node :=
  match item.kind with
  | .cjsonObject => loadChildren (.mk (elementInfo array arrayName i item) .nil []) item
  | _ => .mk (elementInfo array arrayName i item) .nil []

/-- What no load changes in the parent that it loads into. -/
def Kept (parent node : Node) : Prop :=
  node.info = parent.info ∧ node.array = parent.array ∧
    (Ordered Node.scopeKey parent.nextScope → Ordered Node.scopeKey node.nextScope)

theorem kept_refl (parent : Node) : Kept parent parent := ⟨rfl, rfl, id⟩

theorem kept_insertScope {parent child node : Node} (h : Kept (insertScope parent child) node) :
    Kept parent node := by
  obtain ⟨info, array, ordered⟩ := h
  refine ⟨by rw [info, insertScope_info], by rw [array, insertScope_array], fun ord => ?_⟩
  exact ordered (ordered_insertScope ord child)

theorem ldrNextMisc_named (jsonparentptr : Option Addr) (parent : Node) {item : Item ν}
    {rest : List (Item ν)} (named : item.string ≠ none) :
    ldrNextMisc jsonparentptr parent (item :: rest) =
      ldrNextMisc jsonparentptr
        (match memberNode jsonparentptr item with
          | none => parent
          | some node => insertScope parent node) rest := by
  obtain ⟨name, hname⟩ := Option.ne_none_iff_exists'.mp named
  rw [ldrNextMisc.eq_def, memberNode]
  simp only [hname, Option.bind_some]
  cases memberInfo jsonparentptr item name with
  | none => rfl
  | some info => rfl

mutual
theorem kept_loadChildren (item : Item ν) (parent : Node) :
    Kept parent (loadChildren parent item) := by
  cases item with
  | mk addr string kind child =>
    rw [loadChildren]
    exact kept_ldrNextMisc child (some addr) parent
theorem kept_ldrNextMisc (l : List (Item ν)) (jsonparentptr : Option Addr) (parent : Node) :
    Kept parent (ldrNextMisc jsonparentptr parent l) := by
  cases l with
  | nil =>
    rw [ldrNextMisc]
    exact kept_refl parent
  | cons item rest =>
    by_cases named : item.string = none
    · rw [ldrNextMisc.eq_def]
      simp only [named]
      split
      · exact kept_refl parent
      · exact kept_loadChildren item parent
      · exact kept_loadChildren item parent
      · exact kept_ldrNextMisc rest jsonparentptr parent
    · rw [ldrNextMisc_named jsonparentptr parent named]
      split
      · exact kept_ldrNextMisc rest jsonparentptr parent
      · exact kept_insertScope (kept_ldrNextMisc rest jsonparentptr _)
end

/-- What `memberInfo` puts into a node, whatever the type. -/
theorem memberInfo_spec {jsonparentptr : Option Addr} {item : Item ν} {name : Bytes}
    (named : item.string = some name) {info : NodeInfo}
    (h : memberInfo jsonparentptr item name = some info) :
    memberName item = some info.scopeName ∧ info.ident = item.addr ∧
      info.jsl = itemJsl item ∧ info.jsonptr = some item.addr ∧
      info.jsonparentptr = jsonparentptr ∧
      (isLeaf info.jsl = true → info.scopeValue = valueText item) ∧
      (info.jsl = .array → info.arraysize = item.child.length) ∧
      (info.jsl ≠ .array → info.arraysize = 0) := by
  rw [memberInfo] at h
  cases hk : item.kind with
  | cjsonFalse => simp [hk] at h
  | cjsonTrue => simp [hk] at h
  | cjsonNull => simp [hk] at h
  | cjsonObject =>
    simp only [hk, Option.map_eq_some_iff] at h
    obtain ⟨scopeName, organized, rfl⟩ := h
    simp [memberName, itemJsl, named, hk, organized, NodeInfo.blank, isLeaf]
  | cjsonNumber v =>
    simp only [hk, Option.map_eq_some_iff] at h
    obtain ⟨scopeName, organized, rfl⟩ := h
    simp [memberName, itemJsl, valueText, named, hk, organized, NodeInfo.blank]
  | cjsonString v =>
    simp only [hk, Option.map_eq_some_iff] at h
    obtain ⟨scopeName, organized, rfl⟩ := h
    simp [memberName, itemJsl, valueText, named, hk, organized, NodeInfo.blank]
  | cjsonArray =>
    simp only [hk, Option.some.injEq] at h
    subst h
    simp [memberName, itemJsl, named, hk, NodeInfo.blank, isLeaf, cjsonGetArraySize]

theorem memberInfo_isSome (jsonparentptr : Option Addr) {item : Item ν} {name : Bytes}
    (named : item.string = some name) :
    (memberInfo jsonparentptr item name).isSome = (memberName item).isSome := by
  cases hk : item.kind <;> simp [memberInfo, memberName, named, hk]

theorem memberNode_info {jsonparentptr : Option Addr} {item : Item ν} {node : Node}
    (h : memberNode jsonparentptr item = some node) : ∃ name, item.string = some name ∧
      memberInfo jsonparentptr item name = some node.info := by
  rw [memberNode, Option.bind_eq_some_iff] at h
  obtain ⟨name, named, h⟩ := h
  obtain ⟨info, hinfo, rfl⟩ := Option.map_eq_some_iff.mp h
  refine ⟨name, named, ?_⟩
  split
  · exact hinfo
  · rw [(kept_loadChildren item _).1]
    exact hinfo
  · exact hinfo

theorem memberNode_isSome (jsonparentptr : Option Addr) (item : Item ν) :
    (memberNode jsonparentptr item).isSome = (memberName item).isSome := by
  cases named : item.string with
  | none => simp [memberNode, memberName, named]
  | some name =>
    rw [← memberInfo_isSome jsonparentptr named]
    simp [memberNode, named]

theorem memberNode_key {jsonparentptr : Option Addr} {item : Item ν} {node : Node}
    (h : memberNode jsonparentptr item = some node) :
    (memberName item).map fold = some node.scopeKey := by
  obtain ⟨name, named, hinfo⟩ := memberNode_info h
  rw [(memberInfo_spec named hinfo).1]
  rfl

/-- Loading a list of members adds, for every key that the parent does not have yet,
the node of the member that the key means. -/
theorem follow_ldrNextMisc (jsonparentptr : Option Addr) (parent : Node) {l : List (Item ν)}
    (named : ∀ c ∈ l, c.string ≠ none) (ord : Ordered Node.scopeKey parent.nextScope)
    (key : Bytes) :
    (ldrNextMisc jsonparentptr parent l).follow (.scope key) =
      (parent.follow (.scope key)).or
        ((memberOf l key).bind fun d => memberNode jsonparentptr d) := by
  induction l generalizing parent with
  | nil => simp [ldrNextMisc, memberOf]
  | cons item rest ih =>
    have later := fun c hc => named c (List.mem_cons_of_mem _ hc)
    rw [ldrNextMisc_named jsonparentptr parent (named item (List.mem_cons_self ..))]
    cases hm : memberNode jsonparentptr item with
    | none =>
      have unloaded : memberName item = none := by
        rw [← Option.isNone_iff_eq_none, ← Option.not_isSome,
          ← memberNode_isSome jsonparentptr, hm]
        rfl
      simp only [ih _ later ord, memberOf, List.find?_cons, unloaded]
      rfl
    | some node =>
      have hkey := memberNode_key hm
      simp only [ih _ later (ordered_insertScope ord node), follow_insertScope ord, memberOf,
        List.find?_cons, hkey, Step.scope.injEq]
      by_cases same : node.scopeKey = key
      · simp [same, hm]
      · simp [same, Ne.symm same]

theorem length_ldrArrayItems (array : Addr) (arrayName : Bytes) (i : Nat) (l : List (Item ν)) :
    (ldrArrayItems array arrayName i l).length = l.length := by
  induction l generalizing i with
  | nil => simp [ldrArrayItems]
  | cons item rest ih => simp [ldrArrayItems, ih]

theorem getElem_ldrArrayItems (array : Addr) (arrayName : Bytes) (i k : Nat)
    (l : List (Item ν)) : (ldrArrayItems array arrayName i l)[k]? =
      (l[k]?).map (elementNode array arrayName (i + k)) := by
  induction l generalizing i k with
  | nil => simp [ldrArrayItems]
  | cons item rest ih =>
    cases k with
    | zero =>
      rw [ldrArrayItems.eq_def]
      rfl
    | succ k =>
      rw [ldrArrayItems.eq_def]
      simp only [List.getElem?_cons_succ, ih, Nat.add_assoc, Nat.add_comm 1 k]

theorem elementInfo_spec (array : Addr) (arrayName : Bytes) (i : Nat) {item : Item ν}
    (unnamed : item.string = none) :
    (elementInfo array arrayName i item).ident = item.addr ∧
      (elementInfo array arrayName i item).jsl = itemJsl item ∧
      (elementInfo array arrayName i item).jsonptr = some item.addr ∧
      (elementInfo array arrayName i item).jsonparentptr = some array ∧
      (isLeaf (elementInfo array arrayName i item).jsl = true →
        (elementInfo array arrayName i item).scopeValue = valueText item) ∧
      (elementInfo array arrayName i item).arraysize = 0 := by
  cases hk : item.kind <;>
    simp [elementInfo, itemJsl, valueText, unnamed, hk, NodeInfo.blank, isLeaf]

theorem elementNode_info (array : Addr) (arrayName : Bytes) (i : Nat) (item : Item ν) :
    (elementNode array arrayName i item).info = elementInfo array arrayName i item := by
  rw [elementNode]
  split
  · rw [(kept_loadChildren item _).1]
    rfl
  · rfl

/-- A node with nothing below it mirrors an item that leads nowhere. -/
theorem mirrors_leaf {info : NodeInfo} {j : Item ν} (ptr : info.jsonptr = some j.addr)
    (size : info.arraysize = 0) (leaf : ∀ s, follow j s = none) :
    Mirrors (.mk info .nil []) j := by
  have nowhere : ∀ s, (Node.mk info .nil []).follow s = none := by
    intro s
    cases s <;> rfl
  refine mirrors_of_steps ⟨ptr, ?_, ordered_nil _, size⟩ fun s => Or.inl ⟨nowhere s, leaf s⟩
  intro s c hc
  rw [nowhere s] at hc
  cases hc

omit [DoubleText ν] in
theorem follow_none_of_kind {j : Item ν} (notObject : j.kind ≠ .cjsonObject)
    (notArray : j.kind ≠ .cjsonArray) (s : Step) : follow j s = none := by
  cases s with
  | scope key =>
    rw [follow]
    split
    · exact absurd ‹_› notObject
    · rfl
  | item i =>
    rw [follow]
    split
    · exact absurd ‹_› notArray
    · rfl

/-- The children of an object are mirrored when every member is by its own node. -/
theorem mirrors_loadChildren_of {j : Item ν} (object : j.kind = .cjsonObject)
    (named : ∀ c ∈ j.child, c.string ≠ none)
    (members : ∀ d ∈ j.child, ∀ node, memberNode (some j.addr) d = some node →
      Shows node d ∧ Mirrors node d)
    {info : NodeInfo} (ptr : info.jsonptr = some j.addr) (size : info.arraysize = 0) :
    Mirrors (loadChildren (.mk info .nil []) j) j := by
  obtain ⟨hinfo, harray, hord⟩ := kept_loadChildren j (.mk info .nil [])
  have steps : ∀ key, (loadChildren (.mk info .nil []) j).follow (.scope key) =
      (memberOf j.child key).bind fun d => memberNode (some j.addr) d := by
    intro key
    have loaded := follow_ldrNextMisc (some j.addr) (.mk info .nil []) named
      (ordered_nil _) key
    cases j with
    | mk addr string kind child =>
      rw [loadChildren]
      exact loaded
  have found : ∀ key d, memberOf j.child key = some d →
      ∃ node, memberNode (some j.addr) d = some node := by
    intro key d hd
    have right := List.find?_some hd
    have loads : (memberNode (some j.addr) d).isSome = true := by
      rw [memberNode_isSome]
      simp only [decide_eq_true_eq, Option.map_eq_some_iff] at right
      obtain ⟨name, hname, _⟩ := right
      rw [hname]
      rfl
    exact Option.isSome_iff_exists.mp loads
  refine mirrors_of_steps ⟨by rw [hinfo]; exact ptr, ?_, hord (ordered_nil _), ?_⟩ ?_
  · intro s c hc
    cases s with
    | item i =>
      rw [Node.follow, harray] at hc
      cases hc
    | scope key =>
      rw [steps, Option.bind_eq_some_iff] at hc
      obtain ⟨d, _, hnode⟩ := hc
      obtain ⟨name, hname, hinfo⟩ := memberNode_info hnode
      exact (memberInfo_spec hname hinfo).2.2.2.2.1
  · rw [hinfo, harray]
    exact size
  · intro s
    cases s with
    | item i =>
      refine Or.inl ⟨?_, ?_⟩
      · rw [Node.follow, harray]
        rfl
      · rw [follow, object]
    | scope key =>
      rw [steps, follow, object]
      cases hd : memberOf j.child key with
      | none => exact Or.inl ⟨rfl, rfl⟩
      | some d =>
        obtain ⟨node, hnode⟩ := found key d hd
        obtain ⟨shown, mirrors⟩ := members d (List.mem_of_find?_eq_some hd) node hnode
        exact Or.inr ⟨node, d, hnode, rfl, shown, mirrors⟩

theorem memberNode_shows {jsonparentptr : Option Addr} {j : Item ν} {node : Node}
    (h : memberNode jsonparentptr j = some node) : Shows node j := by
  obtain ⟨name, named, hinfo⟩ := memberNode_info h
  obtain ⟨_, _, jsl, _, _, value, _⟩ := memberInfo_spec named hinfo
  exact ⟨jsl, value⟩

theorem elementNode_shows (array : Addr) (arrayName : Bytes) (i : Nat) {j : Item ν}
    (unnamed : j.string = none) : Shows (elementNode array arrayName i j) j := by
  obtain ⟨_, jsl, _, _, value, _⟩ := elementInfo_spec array arrayName i unnamed
  rw [← elementNode_info] at jsl value
  exact ⟨jsl, value⟩

/-- The node of a named array mirrors it when every element is mirrored by its own node. -/
theorem mirrors_array {j : Item ν} (array : j.kind = .cjsonArray) {name : Bytes}
    (named : j.string = some name) (unnamed : ∀ c ∈ j.child, c.string = none)
    (elements : ∀ d ∈ j.child, ∀ i, Mirrors (elementNode j.addr name i d) d)
    {info : NodeInfo} (ptr : info.jsonptr = some j.addr)
    (size : info.arraysize = j.child.length) :
    Mirrors (.mk info .nil (loadElements j)) j := by
  have items : loadElements j = ldrArrayItems j.addr name 0 j.child := by
    cases j with
    | mk addr string kind child =>
      rw [Item.string_mk] at named
      rw [loadElements, named]
      rfl
  have steps : ∀ i, (Node.mk info .nil (loadElements j)).follow (.item i) =
      (j.child[i]?).map (elementNode j.addr name i) := by
    intro i
    rw [Node.follow, Node.array_mk, items, getElem_ldrArrayItems, Nat.zero_add]
  refine mirrors_of_steps ⟨ptr, ?_, ordered_nil _, ?_⟩ ?_
  · intro s c hc
    cases s with
    | scope key => cases hc
    | item i =>
      rw [steps, Option.map_eq_some_iff] at hc
      obtain ⟨d, hd, rfl⟩ := hc
      rw [elementNode_info]
      exact (elementInfo_spec j.addr name i
        (unnamed d (List.mem_of_getElem? hd))).2.2.2.1
  · rw [Node.info_mk, Node.array_mk, items, length_ldrArrayItems]
    exact size
  · intro s
    cases s with
    | scope key =>
      refine Or.inl ⟨rfl, ?_⟩
      rw [follow, array]
    | item i =>
      rw [steps, follow, array, named]
      cases hd : j.child[i]? with
      | none => exact Or.inl ⟨rfl, rfl⟩
      | some d =>
        have inside := List.mem_of_getElem? hd
        exact Or.inr ⟨_, d, rfl, rfl, elementNode_shows j.addr name i (unnamed d inside),
          elements d inside i⟩

/-- What the induction over a document proves of each item in it. -/
structure LoadsWell (j : Item ν) : Prop where
  member : ∀ jsonparentptr node, memberNode jsonparentptr j = some node → Mirrors node j
  element : j.string = none → ∀ array arrayName i, Mirrors (elementNode array arrayName i j) j
  object : j.kind = .cjsonObject → ∀ info : NodeInfo, info.jsonptr = some j.addr →
    info.arraysize = 0 → Mirrors (loadChildren (.mk info .nil []) j) j

omit [DoubleText ν] in
theorem itemJsl_array_iff {j : Item ν} {name : Bytes} (named : j.string = some name) :
    itemJsl j = .array ↔ j.kind = .cjsonArray := by
  cases hk : j.kind <;> simp [itemJsl, named, hk]

theorem loadsWell_object {j : Item ν} (object : j.kind = .cjsonObject)
    (mirror : ∀ info : NodeInfo, info.jsonptr = some j.addr → info.arraysize = 0 →
      Mirrors (loadChildren (.mk info .nil []) j) j) : LoadsWell j where
  member := by
    intro jsonparentptr node h
    rw [memberNode, Option.bind_eq_some_iff] at h
    obtain ⟨name, named, h⟩ := h
    obtain ⟨info, hinfo, rfl⟩ := Option.map_eq_some_iff.mp h
    obtain ⟨_, _, jsl, ptr, _, _, _, size⟩ := memberInfo_spec named hinfo
    have notArray : info.jsl ≠ .array := by
      rw [jsl, ne_eq, itemJsl_array_iff named, object]
      exact nofun
    simp only [object]
    exact mirror info ptr (size notArray)
  element := by
    intro unnamed array arrayName i
    obtain ⟨_, _, ptr, _, _, size⟩ := elementInfo_spec array arrayName i unnamed
    rw [elementNode]
    simp only [object]
    exact mirror _ ptr size
  object := fun _ => mirror

theorem loadsWell_array {j : Item ν} (array : j.kind = .cjsonArray)
    (unnamed : ∀ c ∈ j.child, c.string = none)
    (elements : ∀ d ∈ j.child, LoadsWell d) : LoadsWell j where
  member := by
    intro jsonparentptr node h
    rw [memberNode, Option.bind_eq_some_iff] at h
    obtain ⟨name, named, h⟩ := h
    obtain ⟨info, hinfo, rfl⟩ := Option.map_eq_some_iff.mp h
    obtain ⟨_, _, jsl, ptr, _, _, size, _⟩ := memberInfo_spec named hinfo
    simp only [array]
    refine mirrors_array array named unnamed ?_ ptr ?_
    · intro d hd i
      exact (elements d hd).element (unnamed d hd) j.addr name i
    · exact size (jsl.trans ((itemJsl_array_iff named).mpr array))
  element := by
    intro anonymous array' arrayName i
    obtain ⟨_, _, ptr, _, _, size⟩ := elementInfo_spec array' arrayName i anonymous
    have nowhere : ∀ s, follow j s = none := by
      intro s
      cases s with
      | scope key => rw [follow, array]
      | item i => rw [follow, array, anonymous]
    rw [elementNode]
    simp only [array]
    exact mirrors_leaf ptr size nowhere
  object := by
    intro object
    rw [array] at object
    cases object

theorem loadsWell_leaf {j : Item ν} (notObject : j.kind ≠ .cjsonObject)
    (notArray : j.kind ≠ .cjsonArray) : LoadsWell j where
  member := by
    intro jsonparentptr node h
    rw [memberNode, Option.bind_eq_some_iff] at h
    obtain ⟨name, named, h⟩ := h
    obtain ⟨info, hinfo, rfl⟩ := Option.map_eq_some_iff.mp h
    obtain ⟨_, _, jsl, ptr, _, _, _, size⟩ := memberInfo_spec named hinfo
    have leaf : info.jsl ≠ .array := by
      rw [jsl, ne_eq, itemJsl_array_iff named]
      exact notArray
    have mirror := mirrors_leaf ptr (size leaf) (follow_none_of_kind notObject notArray)
    split
    · exact absurd ‹_› notArray
    · exact absurd ‹_› notObject
    · exact mirror
  element := by
    intro unnamed array arrayName i
    obtain ⟨_, _, ptr, _, _, size⟩ := elementInfo_spec array arrayName i unnamed
    rw [elementNode]
    split
    · exact absurd ‹_› notObject
    · exact mirrors_leaf ptr size (follow_none_of_kind notObject notArray)
  object := fun object => absurd object notObject

theorem loadsWell (j : Item ν) : Producible j → LoadsWell j := by
  induction j using Item.induct with
  | step j ih =>
    intro shape
    cases shape with
    | object names below =>
      refine loadsWell_object rfl fun info ptr size => ?_
      refine mirrors_loadChildren_of rfl names ?_ ptr size
      intro d hd node hnode
      exact ⟨memberNode_shows hnode, (ih d hd (below d hd)).member _ node hnode⟩
    | array names below =>
      exact loadsWell_array rfl names fun d hd => ih d hd (below d hd)
    | leaf notObject notArray => exact loadsWell_leaf notObject notArray

mutual
/-- The object whose members are loaded for a document: the document itself, or in
place of an array the first container among its elements, up to a number. -/
def topObject : Item ν → Option (Item ν)
  | .mk addr string kind child => match kind with
    | .cjsonObject => some (.mk addr string kind child)
    | .cjsonArray => topOfElements child
    | _ => none
def topOfElements : List (Item ν) → Option (Item ν)
  | [] => none
  | item :: rest => match item.kind with
    | .cjsonNumber _ => none
    | .cjsonObject => topObject item
    | .cjsonArray => topObject item
    | _ => topOfElements rest
end

/-- Loading the children of a container, or nothing. -/
def loadTop (parent : Node) : Option (Item ν) → Node
  | none => parent
  | some top => loadChildren parent top

theorem ldrNextMisc_anonymous {l : List (Item ν)} (anonymous : ∀ c ∈ l, c.string = none)
    (containers : ∀ c ∈ l, ∀ parent, c.kind = .cjsonObject ∨ c.kind = .cjsonArray →
      loadChildren parent c = loadTop parent (topObject c))
    (jsonparentptr : Option Addr) (parent : Node) :
    ldrNextMisc jsonparentptr parent l = loadTop parent (topOfElements l) := by
  induction l with
  | nil => rw [ldrNextMisc, topOfElements, loadTop]
  | cons item rest ih =>
    have here := containers item (List.mem_cons_self ..) parent
    have later := ih (fun c hc => anonymous c (List.mem_cons_of_mem _ hc))
      (fun c hc => containers c (List.mem_cons_of_mem _ hc))
    rw [ldrNextMisc.eq_def, topOfElements.eq_def]
    simp only [anonymous item (List.mem_cons_self ..)]
    cases hk : item.kind with
    | cjsonNumber v => rfl
    | cjsonObject => exact here (Or.inl hk)
    | cjsonArray => exact here (Or.inr hk)
    | cjsonString v => exact later
    | cjsonNull => exact later
    | cjsonTrue => exact later
    | cjsonFalse => exact later

theorem loadChildren_container (j : Item ν) : Producible j → ∀ parent : Node,
    j.kind = .cjsonObject ∨ j.kind = .cjsonArray →
      loadChildren parent j = loadTop parent (topObject j) := by
  induction j using Item.induct with
  | step j ih =>
    intro shape parent container
    cases shape with
    | object names below => rw [topObject, loadTop]
    | array names below =>
      rw [loadChildren, topObject]
      exact ldrNextMisc_anonymous names (fun c hc => ih c hc (below c hc)) _ parent
    | leaf notObject notArray => exact absurd container (not_or.mpr ⟨notObject, notArray⟩)

/-- `ldr_load_archive` loads the members of the top object, and of nothing else. -/
theorem ldrLoadArchive_eq {document : Item ν} (shape : Producible document)
    (root : document.string = none) (archive : Node) :
    ldrLoadArchive archive document = loadTop archive (topObject document) := by
  have single : topOfElements [document] = topObject document := by
    rw [topOfElements]
    cases document with
    | mk addr string kind child => cases kind <;> simp [topObject, topOfElements]
  rw [ldrLoadArchive, ← single]
  refine ldrNextMisc_anonymous ?_ ?_ none archive
  · intro c hc
    rw [List.mem_singleton.mp hc]
    exact root
  · intro c hc
    rw [List.mem_singleton.mp hc]
    exact loadChildren_container document shape

omit [DoubleText ν] in
theorem topOfElements_spec {l : List (Item ν)}
    (ih : ∀ c ∈ l, ∀ top, topObject c = some top → top.kind = .cjsonObject ∧ Producible top)
    {top : Item ν} (h : topOfElements l = some top) :
    top.kind = .cjsonObject ∧ Producible top := by
  induction l with
  | nil => cases h
  | cons item rest ihl =>
    have later := ihl fun c hc => ih c (List.mem_cons_of_mem _ hc)
    have here := ih item (List.mem_cons_self ..) top
    rw [topOfElements.eq_def] at h
    cases hk : item.kind with
    | cjsonNumber v => simp [hk] at h
    | cjsonObject => exact here (by simpa [hk] using h)
    | cjsonArray => exact here (by simpa [hk] using h)
    | cjsonString v => exact later (by simpa [hk] using h)
    | cjsonNull => exact later (by simpa [hk] using h)
    | cjsonTrue => exact later (by simpa [hk] using h)
    | cjsonFalse => exact later (by simpa [hk] using h)

omit [DoubleText ν] in
theorem topObject_spec (j : Item ν) : Producible j → ∀ top, topObject j = some top →
    top.kind = .cjsonObject ∧ Producible top := by
  induction j using Item.induct with
  | step j ih =>
    intro shape top h
    cases shape with
    | object names below =>
      rw [topObject, Option.some.injEq] at h
      exact h ▸ ⟨rfl, .object names below⟩
    | array names below =>
      rw [topObject] at h
      exact topOfElements_spec (fun c hc => ih c hc (below c hc)) h
    | @leaf addr string kind notObject notArray =>
      cases kind with
      | cjsonObject => exact absurd rfl notObject
      | cjsonArray => exact absurd rfl notArray
      | cjsonNumber v => cases h
      | cjsonString v => cases h
      | cjsonNull => cases h
      | cjsonTrue => cases h
      | cjsonFalse => cases h

/-- The members that are loaded for a document. -/
def topMembers (document : Item ν) : List (Item ν) :=
  match topObject document with
  | none => []
  | some top => top.child

/-- A tree holds the nodes of a list of members and no others. -/
def Holds (tree : Avl Node) (members : List (Item ν)) : Prop :=
  ∀ key, (avlsearch Node.scopeKey tree key = none ∧ memberOf members key = none) ∨
    ∃ c d, avlsearch Node.scopeKey tree key = some c ∧ memberOf members key = some d ∧
      Shows c d ∧ Mirrors c d

theorem Mirrors.holds {n : Node} {j : Item ν} (h : Mirrors n j) (object : j.kind = .cjsonObject) :
    Holds n.nextScope j.child := by
  intro key
  cases hc : n.follow (.scope key) with
  | none =>
    have hd := (h.none_iff (.scope key)).mp hc
    rw [follow, object] at hd
    exact Or.inl ⟨hc, hd⟩
  | some c =>
    obtain ⟨d, hd, shown, mirrors⟩ := h.down hc
    rw [follow, object] at hd
    exact Or.inr ⟨c, d, hc, hd, shown, mirrors⟩

theorem holds_nil : Holds (.nil : Avl Node) ([] : List (Item ν)) := fun _ => Or.inl ⟨rfl, rfl⟩

/-- The tree under an archive holds the members of its document. -/
theorem holds_ldrLoadArchive {document : Item ν} (shape : Producible document)
    (root : document.string = none) {archive : Node} (empty : archive.nextScope = .nil) :
    Holds (ldrLoadArchive archive document).nextScope (topMembers document) := by
  rw [ldrLoadArchive_eq shape root, topMembers]
  cases htop : topObject document with
  | none =>
    rw [loadTop, empty]
    exact holds_nil
  | some top =>
    obtain ⟨object, shapeTop⟩ := topObject_spec document shape top htop
    have mirrors := (loadsWell top shapeTop).object object
      { NodeInfo.blank 0 with jsonptr := some top.addr } rfl rfl
    have holds := mirrors.holds object
    have named : ∀ c ∈ top.child, c.string ≠ none := by
      cases shapeTop with
      | object names below => exact names
      | array names below => cases object
      | leaf notObject notArray => exact absurd object notObject
    intro key
    have same : avlsearch Node.scopeKey (loadTop archive (some top)).nextScope key =
        avlsearch Node.scopeKey (loadChildren (.mk { NodeInfo.blank 0 with
          jsonptr := some top.addr } .nil []) top).nextScope key := by
      have left := follow_ldrNextMisc (some top.addr) archive named
        (by rw [empty]; exact ordered_nil _) key
      have right := follow_ldrNextMisc (some top.addr) (.mk { NodeInfo.blank 0 with
          jsonptr := some top.addr } .nil []) named (ordered_nil _) key
      have start : archive.follow (.scope key) = none := by
        rw [Node.follow, empty]
        rfl
      rw [start] at left
      cases top with
      | mk addr string kind child =>
        rw [loadTop, loadChildren, loadChildren]
        exact left.trans right.symm
    rw [same]
    exact holds key

end Loading

end DocTree
