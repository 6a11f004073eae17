import Cfgd.DeleteTargets
import Cfgd.Reach

/-!
# The levels of a tree

Which levels hang under which: directories under the root, archives under a
directory, and below an archive scopes, fields and arrays. A tree that the loader
builds has these levels, whatever the documents are.
-/

namespace Levels

open AvlTree CText CJson Request ConfigNode Loader Runtime DocTree DocSearch SearchSound
open DeleteRange DeleteTargets Reach

variable {ν : Type}

/-- The levels under which the members of an object hang. -/
def TakesMembers (level : Jsl) : Prop :=
  level = .archive ∨ level = .logicScope ∨ level = .arrayItem

def IsMember (level : Jsl) : Prop := level = .logicScope ∨ level = .field ∨ level = .array

/-- The levels from an archive on down. An array has fewer items than the number that
stands for its last one. -/
inductive Leveled : Node → Prop where
  | mk {n : Node} (room : n.info.arraysize < jaSymLast)
      (members : ∀ c ∈ n.nextScope.toList, TakesMembers n.info.jsl ∧ IsMember c.info.jsl)
      (elements : ∀ c ∈ n.array, IsItem c ∨ c.info.jsl = .dir)
      (scopes : ∀ c ∈ n.nextScope.toList, Leveled c) (items : ∀ c ∈ n.array, Leveled c) :
      Leveled n

namespace Leveled

theorem room {n : Node} : Leveled n → n.info.arraysize < jaSymLast
  | .mk room _ _ _ _ => room

theorem elements {n : Node} : Leveled n → ∀ c ∈ n.array, IsItem c ∨ c.info.jsl = .dir
  | .mk _ _ elements _ _ => elements

theorem items {n : Node} : Leveled n → ∀ c ∈ n.array, Leveled c
  | .mk _ _ _ _ items => items

/-- What is found by name under a node. -/
theorem found {n c : Node} {key : Bytes} (h : Leveled n) (found : n.follow (.scope key) = some c) :
    TakesMembers n.info.jsl ∧ IsMember c.info.jsl ∧ Leveled c := by
  obtain ⟨_, members, _, scopes, _⟩ := h
  have mem := mem_of_avlsearch Node.scopeKey found
  exact ⟨(members c mem).1, (members c mem).2, scopes c mem⟩

end Leveled

/-- The tree of a configuration: directories, in them archives, and below an archive what
a document of any shape becomes. -/
structure WellFormedTree (root : Avl Node) : Prop where
  built : Built (rootNode root)
  dirs : ∀ dir ∈ root.toList, dir.info.jsl = .dir ∧
    ∀ archive ∈ dir.nextScope.toList, archive.info.jsl = .archive ∧ Leveled archive

/-- The tree of a configuration of directories, archives and documents whose arrays hold
objects and values only; the object items refer to objects. -/
structure WellFormed (world : World ν) : Prop where
  built : Built (rootNode world.root)
  dirs : ∀ dir ∈ world.root.toList, dir.info.jsl = .dir ∧
    ∀ archive ∈ dir.nextScope.toList, archive.info.jsl = .archive ∧ Leveled archive
  even : ¬ OddBelow (rootNode world.root)
  objects : ∀ q m, (rootNode world.root).getAt q = some m → m.info.jsl = .arrayItem →
    (m.info.jsonptr.bind world.store.heap.deref).map Item.kind = some .cjsonObject

section Loaded

/-- What a document of any shape keeps to: no array in it is too long, and the elements of
arrays have no names. -/
def Countable (document : Item ν) : Prop := ∀ x ∈ document.items,
  (x.child.length : Int) < jaSymLast ∧ (x.kind = .cjsonArray → ∀ c ∈ x.child, c.string = none)

theorem countable_child {j c : Item ν} (h : Countable j) (hc : c ∈ j.child) : Countable c :=
  fun x hx => h x (Item.mem_items_of_child hc hx)

theorem itemJsl_unnamed {e : Item ν} (unnamed : e.string = none) :
    itemJsl e = .arrayItem ∨ itemJsl e = .arrayItemAsField ∨ itemJsl e = .dir := by
  cases hk : e.kind <;> simp [itemJsl, unnamed, hk]

variable [DoubleText ν]

/-- A node that mirrors its item has the levels of a loaded tree. -/
theorem leveled_of_mirrors {n : Node} {j : Item ν} (h : Mirrors n j)
    (shown : n.info.jsl = itemJsl j) (countable : Countable j) : Leveled n := by
  induction h with
  | @mk n j linked both shows below ih =>
    have self : Mirrors n j := .mk linked both shows below
    have scope : ∀ c ∈ n.nextScope.toList, ∃ d, n.follow (.scope c.scopeKey) = some c ∧
        follow j (.scope c.scopeKey) = some d ∧ j.kind = .cjsonObject ∧
        memberOf j.child c.scopeKey = some d ∧ Shows c d := by
      intro c hc
      have step : n.follow (.scope c.scopeKey) = some c :=
        (mem_toList_iff Node.scopeKey linked.ordered).mp hc
      obtain ⟨d, hd, shown', _⟩ := self.down step
      have there := hd
      rw [follow] at hd
      split at hd
      · exact ⟨d, step, there, ‹_›, hd, shown'⟩
      · cases hd
    have item : ∀ c ∈ n.array, ∃ i d, n.follow (.item i) = some c ∧
        follow j (.item i) = some d ∧ j.kind = .cjsonArray ∧ d ∈ j.child ∧ Shows c d := by
      intro c hc
      obtain ⟨i, hi⟩ := List.getElem?_of_mem hc
      obtain ⟨d, hd, shown', _⟩ := self.down (s := .item i) hi
      have there := hd
      rw [follow] at hd
      split at hd
      · exact ⟨i, d, hi, there, ‹_›, List.mem_of_getElem? hd, shown'⟩
      · cases hd
    have short := (countable j (Item.self_mem_items j)).1
    refine .mk ?_ ?_ ?_ ?_ ?_
    · by_cases array : itemJsl j = .array
      · rw [arraysize_of_mirrors self array]
        exact short
      · have empty : n.array = [] := (built_of_mirrors self shown).noItems (shown ▸ array)
        rw [linked.size, empty]
        decide
    · intro c hc
      obtain ⟨d, _, _, object, member, shown'⟩ := scope c hc
      refine ⟨?_, ?_⟩
      · rw [TakesMembers, shown]
        cases hs : j.string with
        | none => exact Or.inr (Or.inr (by rw [itemJsl, hs, object]))
        | some name => exact Or.inr (Or.inl (by rw [itemJsl, hs, object]))
      · rw [IsMember, shown'.jsl]
        exact itemJsl_of_memberOf member
    · intro c hc
      obtain ⟨_, d, _, _, array, mem, shown'⟩ := item c hc
      have unnamed := (countable j (Item.self_mem_items j)).2 array d mem
      rw [IsItem, shown'.jsl, or_assoc]
      exact itemJsl_unnamed unnamed
    · intro c hc
      obtain ⟨d, step, there, _, member, shown'⟩ := scope c hc
      exact ih _ c d step there shown'.jsl
        (countable_child countable (List.mem_of_find?_eq_some member))
    · intro c hc
      obtain ⟨i, d, step, there, _, mem, shown'⟩ := item c hc
      exact ih (.item i) c d step there shown'.jsl (countable_child countable mem)

/-- An archive over the members of a document. -/
theorem leveled_of_holds {n : Node} {members : List (Item ν)}
    (ord : Ordered Node.scopeKey n.nextScope) (holds : Holds n.nextScope members)
    (level : n.info.jsl = .archive) (empty : n.array = []) (size : n.info.arraysize = 0)
    (countable : ∀ c ∈ members, Countable c) : Leveled n := by
  have scope : ∀ c ∈ n.nextScope.toList, ∃ d, memberOf members c.scopeKey = some d ∧
      Shows c d ∧ Mirrors c d :=
    fun c hc => holds_of_search holds ((mem_toList_iff Node.scopeKey ord).mp hc)
  refine .mk ?_ ?_ ?_ ?_ ?_
  · rw [size]
    decide
  · intro c hc
    obtain ⟨d, member, shown, _⟩ := scope c hc
    refine ⟨Or.inl level, ?_⟩
    rw [IsMember, shown.jsl]
    exact itemJsl_of_memberOf member
  · rw [empty]
    exact nofun
  · intro c hc
    obtain ⟨d, member, shown, mirrors⟩ := scope c hc
    exact leveled_of_mirrors mirrors shown.jsl (countable d (List.mem_of_find?_eq_some member))
  · rw [empty]
    exact nofun

omit [DoubleText ν] in
theorem child_of_follow {j d : Item ν} {s : Step} (h : DocTree.follow j s = some d) :
    d ∈ j.child := by
  rw [DocTree.follow.eq_def] at h
  split at h
  · split at h
    · exact List.mem_of_find?_eq_some h
    · cases h
  · split at h
    · exact List.mem_of_getElem? h
    · cases h

/-- Below a node that mirrors an item there are nodes that mirror the items below it. -/
theorem mirrors_getAt {n m : Node} {j : Item ν} (h : Mirrors n j) {q : Path}
    (there : n.getAt q = some m) : ∃ x ∈ j.items, Mirrors m x ∧ (q ≠ [] → Shows m x) := by
  induction q generalizing n j with
  | nil =>
    obtain rfl := Option.some.inj there
    exact ⟨j, Item.self_mem_items j, h, fun none => absurd rfl none⟩
  | cons s q ih =>
    rw [Node.getAt] at there
    obtain ⟨c, hc, further⟩ := Option.bind_eq_some_iff.mp there
    obtain ⟨d, hd, shown, mirrors⟩ := h.down hc
    have child := child_of_follow hd
    by_cases last : q = []
    · subst last
      obtain rfl := Option.some.inj further
      exact ⟨d, Item.mem_items_of_child child (Item.self_mem_items d), mirrors, fun _ => shown⟩
    · obtain ⟨x, hx, mirrors', shows⟩ := ih mirrors further
      exact ⟨x, Item.mem_items_of_child child hx, mirrors', fun _ => shows last⟩

/-- The nodes of the first two levels come from the directories and archives that were
loaded. -/
theorem mem_loadedRoot {images : List (DirImage ν)} (built : Built (rootNode (loadedRoot images)))
    {dir : Node} (mem : dir ∈ (loadedRoot images).toList) :
    ∃ image ∈ images, dir = dirImageNode image := by
  have found : searchScope (loadedRoot images) dir.info.scopeName = some dir :=
    (mem_toList_iff Node.scopeKey built.ordered).mp mem
  rw [search_dir] at found
  obtain ⟨image, hi, rfl⟩ := Option.map_eq_some_iff.mp found
  exact ⟨image, List.mem_of_find?_eq_some hi, rfl⟩

theorem mem_dirImageNode {dir : DirImage ν} (built : Built (dirImageNode dir)) {archive : Node}
    (mem : archive ∈ (dirImageNode dir).nextScope.toList) : ∃ image ∈ dir.archives,
      archiveImageNode (loadedDir dir.ident dir.name) image = some archive := by
  have found : searchScope (dirImageNode dir).nextScope archive.info.scopeName = some archive :=
    (mem_toList_iff Node.scopeKey built.ordered).mp mem
  rw [search_archive] at found
  obtain ⟨image, hi, made⟩ := Option.bind_eq_some_iff.mp found
  exact ⟨image, List.mem_of_find?_eq_some hi, made⟩

/-- The node of an archive over a document that is an object. -/
theorem holds_archiveImageNode {dir : DirImage ν} {image : ArchiveImage ν} {archive : Node}
    (shape : Producible image.document) (root : image.document.string = none)
    (object : image.document.kind = .cjsonObject)
    (made : archiveImageNode (loadedDir dir.ident dir.name) image = some archive) :
    archive.info.jsl = .archive ∧ Built archive ∧ Holds archive.nextScope image.document.child := by
  obtain ⟨built, level⟩ := built_archiveImageNode shape root made
  refine ⟨level, built, ?_⟩
  cases fits : archiveFits dir image with
  | false =>
    rw [(archiveImageNode_spec dir image).1 fits] at made
    cases made
  | true =>
    obtain ⟨file, node, hn, same, empty, _⟩ := (archiveImageNode_spec dir image).2 fits
    obtain rfl := Option.some.inj (made.symm.trans hn)
    have holds := @holds_ldrLoadArchive ν _ image.document shape root file empty
    rw [PlainDoc.topMembers_of_object object, ← same] at holds
    exact holds

/-- In a loaded tree an archive lies under its directory, over the document of its image. -/
theorem loaded_archive {images : List (DirImage ν)}
    (loaded : ∀ dir ∈ images, ∀ image ∈ dir.archives,
      Producible image.document ∧ image.document.string = none)
    (objects : ∀ dir ∈ images, ∀ image ∈ dir.archives, image.document.kind = .cjsonObject)
    {dir archive : Node} (mem : dir ∈ (loadedRoot images).toList)
    (inside : archive ∈ dir.nextScope.toList) :
    ∃ image ∈ images, ∃ file ∈ image.archives, archive.info.jsl = .archive ∧ Built archive ∧
      Holds archive.nextScope file.document.child := by
  obtain ⟨built, _⟩ := built_loadedRoot loaded
  have builtDir := built.scopes dir mem
  obtain ⟨image, hi, rfl⟩ := mem_loadedRoot built mem
  obtain ⟨file, hf, made⟩ := mem_dirImageNode builtDir inside
  obtain ⟨shape, root⟩ := loaded image hi file hf
  exact ⟨image, hi, file, hf, holds_archiveImageNode shape root (objects image hi file hf) made⟩

/-- The root, a directory or an archive; or what is shown of an item of some document. -/
theorem loaded_getAt {images : List (DirImage ν)}
    (loaded : ∀ dir ∈ images, ∀ image ∈ dir.archives,
      Producible image.document ∧ image.document.string = none)
    (objects : ∀ dir ∈ images, ∀ image ∈ dir.archives, image.document.kind = .cjsonObject)
    {q : Path} {m : Node} (there : (rootNode (loadedRoot images)).getAt q = some m) :
    (q.length < 3 ∧ (m.info.jsl = .dir ∨ m.info.jsl = .archive)) ∨
    (3 ≤ q.length ∧ ∃ image ∈ images, ∃ file ∈ image.archives, ∃ x ∈ file.document.items,
      Shows m x ∧ Mirrors m x) := by
  obtain ⟨built, level⟩ := built_loadedRoot loaded
  rcases q with _ | ⟨key | i, q⟩
  · obtain rfl := Option.some.inj there
    exact Or.inl ⟨by simp, Or.inl rfl⟩
  swap
  · cases there
  rw [Node.getAt] at there
  obtain ⟨dir, hdir, below⟩ := Option.bind_eq_some_iff.mp there
  have mem : dir ∈ (loadedRoot images).toList := mem_of_avlsearch Node.scopeKey hdir
  have builtDir := built.scopes dir mem
  rcases q with _ | ⟨key' | i, q⟩
  · obtain rfl := Option.some.inj below
    exact Or.inl ⟨by simp, Or.inl (level dir mem)⟩
  swap
  · have none := builtDir.noItems (by simp [level dir mem])
    rw [Node.getAt, Node.follow, none] at below
    cases below
  rw [Node.getAt] at below
  obtain ⟨archive, harchive, further⟩ := Option.bind_eq_some_iff.mp below
  obtain ⟨image, hi, file, hf, isArchive, builtA, holds⟩ :=
    loaded_archive loaded objects mem (mem_of_avlsearch Node.scopeKey harchive)
  rcases q with _ | ⟨key'' | i, q⟩
  · obtain rfl := Option.some.inj further
    exact Or.inl ⟨by simp, Or.inr isArchive⟩
  swap
  · have none := builtA.noItems (by simp [isArchive])
    rw [Node.getAt, Node.follow, none] at further
    cases further
  rw [Node.getAt] at further
  obtain ⟨c, hc, last⟩ := Option.bind_eq_some_iff.mp further
  obtain ⟨d, member, shown, mirrors⟩ := holds_of_search holds hc
  have child := List.mem_of_find?_eq_some member
  refine Or.inr ⟨by simp, image, hi, file, hf, ?_⟩
  obtain ⟨x, hx, mirrors', shows⟩ := mirrors_getAt mirrors last
  by_cases here : q = []
  · subst here
    obtain rfl := Option.some.inj last
    exact ⟨d, Item.mem_items_of_child child (Item.self_mem_items d), shown, mirrors⟩
  · exact ⟨x, Item.mem_items_of_child child hx, shows here, mirrors'⟩

/-- The tree of documents that are objects. -/
theorem wellFormedTree_loaded {images : List (DirImage ν)}
    (loaded : ∀ dir ∈ images, ∀ image ∈ dir.archives,
      Producible image.document ∧ image.document.string = none)
    (objects : ∀ dir ∈ images, ∀ image ∈ dir.archives, image.document.kind = .cjsonObject)
    (countable : ∀ dir ∈ images, ∀ image ∈ dir.archives, Countable image.document) :
    WellFormedTree (loadedRoot images) := by
  obtain ⟨built, level⟩ := built_loadedRoot loaded
  refine ⟨built, fun dir mem => ⟨level dir mem, ?_⟩⟩
  intro archive inside
  obtain ⟨image, hi, file, hf, isArchive, builtA, holds⟩ :=
    loaded_archive loaded objects mem inside
  have empty : archive.array = [] := builtA.noItems (by rw [isArchive]; exact nofun)
  refine ⟨isArchive, leveled_of_holds builtA.ordered holds isArchive empty ?_ ?_⟩
  · rw [builtA.size, empty]
    rfl
  · exact fun c hc => countable_child (countable image hi file hf) hc

/-- The tree of documents that are objects, without odd elements. -/
theorem wellFormed_loaded {images : List (DirImage ν)}
    (loaded : ∀ dir ∈ images, ∀ image ∈ dir.archives,
      Producible image.document ∧ image.document.string = none)
    (objects : ∀ dir ∈ images, ∀ image ∈ dir.archives, image.document.kind = .cjsonObject)
    (countable : ∀ dir ∈ images, ∀ image ∈ dir.archives, Countable image.document)
    (even : ¬ OddBelow (rootNode (loadedRoot images))) {store : Store ν}
    (inHeap : ∀ dir ∈ images, ∀ image ∈ dir.archives, ∀ j ∈ image.document.items,
      store.heap.deref j.addr = some j) : WellFormed ⟨loadedRoot images, store⟩ := by
  obtain ⟨built, dirs⟩ := wellFormedTree_loaded loaded objects countable
  refine ⟨built, dirs, even, ?_⟩
  intro q m there item
  rcases loaded_getAt loaded objects there with ⟨_, dir | archive⟩ |
    ⟨_, image, hi, file, hf, x, hx, shown, mirrors⟩
  · rw [dir] at item
    cases item
  · rw [archive] at item
    cases item
  · rw [mirrors.linked.ptr, Option.bind_some, inHeap image hi file hf x hx, Option.map_some]
    exact congrArg some (object_of_itemJsl (Or.inr (shown.jsl.symm.trans item)))

end Loaded

end Levels
