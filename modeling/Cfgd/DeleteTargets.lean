import Cfgd.DeleteRange
import Cfgd.PlainDoc

/-!
# Deleting the items of an array

The loop that `rt_delete` makes for the index `*`, and the shape of the trees that the
loader builds. The loop ends unless an item stays in the list.
-/

namespace DeleteTargets

open AvlTree CText CJson Request ConfigNode Loader FsImage Runtime DocTree DocSearch SearchSound
open DeleteRange PlainDoc

variable {ν : Type}

section AllItems

theorem seek_last {cur last : Node} {init : List Node} (array : cur.array = init ++ [last])
    (size : cur.info.arraysize = cur.array.length) :
    0 < cur.info.arraysize ∧ rtSeekArrayNode cur (cur.info.arraysize - 1) = some last := by
  have length : cur.array.length = init.length + 1 := by rw [array]; simp
  have position : cur.info.arraysize - 1 = (init.length : Nat) := by omega
  refine ⟨by omega, ?_⟩
  rw [position, rtSeekArrayNode_eq_follow, Node.follow, array]
  simp

/-- One turn of the loop for `[*]`. -/
theorem deleteAllItems_last {fuel k : Nat} {store : Store ν} {cur last : Node}
    {init : List Node} (array : cur.array = init ++ [last])
    (size : cur.info.arraysize = cur.array.length) :
    deleteAllItems fuel (k + 1) store cur =
      match rtDeleteRange true fuel store last cur with
      | none => none
      | some (store, cur, _) => deleteAllItems fuel k store cur := by
  obtain ⟨positive, seek⟩ := seek_last array size
  cases ended : rtDeleteRange true fuel store last cur <;>
    simp [deleteAllItems, positive, seek, ended]

/-- Dropping the last item leaves the others as they are. -/
theorem dropItem_last {cur last : Node} {init : List Node} (array : cur.array = init ++ [last])
    (apart : ∀ b ∈ init, b.info.ident ≠ last.info.ident)
    (size : cur.info.arraysize = cur.array.length) :
    (dropItem cur last).array = init ∧
      (dropItem cur last).info.arraysize = (dropItem cur last).array.length ∧
      (dropItem cur last).nextScope = cur.nextScope := by
  have dropped := dropItem_split array apart
  rw [List.map_nil, List.append_nil] at dropped
  refine ⟨dropped, ?_, by simp [dropItem]⟩
  have count : (dropItem cur last).info.arraysize = cur.info.arraysize - 1 := by simp [dropItem]
  rw [count, dropped, size, array]
  simp

/-- The loop for `[*]` takes one turn for each item. -/
theorem deleteAllItems_total (fuel k : Nat) (store : Store ν) (cur : Node)
    (enough : cur.array.length < k) (size : cur.info.arraysize = cur.array.length)
    (items : ∀ c ∈ cur.array, IsItem c ∧ Built c ∧ ¬ OddBelow c ∧ c.idents.length ≤ fuel)
    (nodup : (cur.array.flatMap Node.idents).Nodup)
    (live : Live store (cur.array.flatMap Node.idents)) :
    ∃ store' cur', deleteAllItems fuel k store cur = some (store', cur') ∧ Same cur cur' ∧
      cur'.array = [] ∧ cur'.nextScope = cur.nextScope ∧ cur'.info.arraysize = 0 ∧
      FreesExactly store store' (cur.array.flatMap Node.idents) := by
  induction k generalizing store cur with
  | zero => omega
  | succ k ih =>
    rcases List.eq_nil_or_concat cur.array with harray | ⟨init, last, harray⟩
    · have none : ¬ 0 < cur.info.arraysize := by
        rw [size, harray]
        simp
      rw [deleteAllItems, if_neg none]
      refine ⟨store, cur, rfl, same_refl _, harray, rfl, ?_, [], rfl, by rw [harray]; simp⟩
      rw [size, harray]
      rfl
    · rw [List.concat_eq_append] at harray
      rw [deleteAllItems_last harray size]
      rw [harray] at items nodup live enough ⊢
      have apart := apart_of_nodup nodup
      obtain ⟨level, ready⟩ := items last (by simp)
      rw [List.flatMap_append, List.flatMap_singleton] at nodup live ⊢
      obtain ⟨nodupInit, nodupLast, disjoint⟩ := List.nodup_append'.mp nodup
      obtain ⟨liveInit, liveLast⟩ := live_append live
      have listed : InList last cur := by
        rw [InList, harray]
        simp
      obtain ⟨store₁, call, frees⟩ :=
        rtDeleteRange_total true fuel store last cur ready (fun _ => listed) nodupLast liveLast
      obtain ⟨left, count, scopes⟩ := dropItem_last harray apart size
      have after : parentAfter last cur = dropItem cur last := by rw [parentAfter, if_pos level]
      rw [List.length_append, List.length_singleton] at enough
      obtain ⟨store', cur', rest, same, empty, tree, zero, frees'⟩ := ih store₁
        (dropItem cur last) (by rw [left]; omega) count
        (by rw [left]; exact fun c hc => items c (List.mem_append_left _ hc))
        (by rw [left]; exact nodupInit)
        (by rw [left]; exact live_of_freesExactly frees liveInit (List.disjoint_comm.mp disjoint))
      rw [left] at frees'
      refine ⟨store', cur', ?_, ?_, empty, tree.trans scopes, zero, ?_⟩
      · simp only [call, after]
        exact rest
      · have step := same_parentAfter last cur
        rw [after] at step
        exact step.trans same
      · exact (frees.trans frees').perm List.perm_append_comm

/-- The loop for `[*]` does not end at an item that stays in the list. -/
theorem deleteAllItems_none (fuel k : Nat) (store : Store ν) (cur : Node)
    (size : cur.info.arraysize = cur.array.length)
    (nodup : (cur.array.flatMap Node.idents).Nodup)
    (odd : ∃ c ∈ cur.array, ¬ IsItem c ∨ (Shaped c ∧ Stuck c)) :
    deleteAllItems fuel k store cur = none := by
  induction k generalizing store cur with
  | zero => rfl
  | succ k ih =>
    obtain ⟨c, hc, bad⟩ := odd
    rcases List.eq_nil_or_concat cur.array with harray | ⟨init, last, harray⟩
    · rw [harray] at hc
      cases hc
    rw [List.concat_eq_append] at harray
    rw [deleteAllItems_last harray size]
    cases hcall : rtDeleteRange true fuel store last cur with
    | none => rfl
    | some r =>
      obtain ⟨store₁, cur₁, tree⟩ := r
      have done := rtDeleteRange_unlinks true fuel _ _ _ _ _ _ hcall
      dsimp only
      by_cases level : IsItem last
      · have after : cur₁ = dropItem cur last := by rw [done.above, parentAfter, if_pos level]
        obtain ⟨left, count, _⟩ := dropItem_last harray (apart_of_nodup (harray ▸ nodup)) size
        subst after
        rw [harray, List.flatMap_append] at nodup
        refine ih store₁ _ count (by rw [left]; exact (List.nodup_append'.mp nodup).1) ?_
        rw [harray, List.mem_append, List.mem_singleton] at hc
        rcases hc with hc | rfl
        · exact ⟨c, by rw [left]; exact hc, bad⟩
        · rcases bad with odd | ⟨shaped, below⟩
          · exact absurd level odd
          · rw [rtDeleteRange_none true fuel shaped below] at hcall
            cases hcall
      · -- the freed item is still the last of the list
        have after : cur₁ = removeScope cur last.info.scopeName := by
          rw [done.above, parentAfter, if_neg level]
        have harray₁ : cur₁.array = init ++ [last] := by
          rw [after, removeScope_array, harray]
        have size₁ : cur₁.info.arraysize = cur₁.array.length := by
          rw [after, removeScope_info, removeScope_array, size]
        cases k with
        | zero => rfl
        | succ k =>
          rw [deleteAllItems_last harray₁ size₁]
          cases hcall' : rtDeleteRange true fuel store₁ last cur₁ with
          | none => rfl
          | some r' =>
            obtain ⟨store₂, cur₂, tree'⟩ := r'
            exact absurd done.freed (rtDeleteRange_unlinks true fuel _ _ _ _ _ _ hcall').live

end AllItems

section Targets

/-- `[*]` of an array with items: all items, and then the array itself. -/
theorem rtDelete_entire {fuel : Nat} {store : Store ν} {n parent : Node} {segm : Segment}
    (array : n.info.jsl = .array) (size : n.info.arraysize = n.array.length)
    (filled : n.array ≠ []) (entire : segm.index = jaSymEntire)
    (room : (n.array.length : Int) ≤ jaSymEntire) :
    rtDelete fuel store n parent segm =
      (deleteAllItems fuel fuel store n).bind fun (store, node) =>
        (rtDeleteRange true fuel store node parent).map fun (store, parentnode, _) =>
          ⟨store, parentnode, 0, []⟩ := by
  have positive := List.length_pos_iff.mpr filled
  have symbols : (0 : Int) < jaSymEntire ∧ jaSymEntire ≠ jaSymLast := by decide
  have usable : ¬ (n.info.arraysize ≤ 0 ∨ n.array = []) := by
    rintro (h | h)
    · omega
    · exact filled h
  rw [rtDelete]
  simp only [array]
  rw [if_neg usable, entire, if_neg (by omega), if_neg (by omega), if_neg symbols.2, if_pos rfl]
  cases deleteAllItems fuel fuel store n <;> rfl

end Targets

section LoadedTree
variable [DoubleText ν]

theorem built_archiveImageNode {dir : DirImage ν} {image : ArchiveImage ν} {node : Node}
    (shape : Producible image.document) (root : image.document.string = none)
    (h : archiveImageNode (loadedDir dir.ident dir.name) image = some node) :
    Built node ∧ node.info.jsl = .archive := by
  obtain ⟨archive, accepted, rfl⟩ := Option.map_eq_some_iff.mp h
  have fresh : archive.nextScope = .nil ∧ archive.array = [] ∧ archive.info.arraysize = 0 ∧
      archive.info.jsl = .archive := by
    rw [archiveNode] at accepted
    split at accepted
    · cases accepted
    · obtain rfl := Option.some.inj accepted
      exact ⟨rfl, rfl, rfl, rfl⟩
  obtain ⟨tree, array, size, level⟩ := fresh
  have start : (archive.setInfo fun info =>
      { info with fsSection := image.fsSection }).nextScope = .nil := by simpa using tree
  obtain ⟨info, items, ordered⟩ := kept_ldrNextMisc [image.document] none
    (archive.setInfo fun info => { info with fsSection := image.fsSection })
  have holds := holds_ldrLoadArchive shape root start
  refine ⟨built_of_holds (ordered (by rw [start]; exact ordered_nil _)) holds ?_ ?_ ?_, ?_⟩
  · rw [ldrLoadArchive, info]
    simp [level]
  · rw [ldrLoadArchive, items]
    simpa using array
  · rw [ldrLoadArchive, info]
    simpa using size
  · rw [ldrLoadArchive, info]
    simpa using level

theorem mem_insertScopes {children : List Node} {node c : Node}
    (ord : Ordered Node.scopeKey node.nextScope) (empty : node.nextScope = .nil)
    (hc : c ∈ (children.foldl insertScope node).nextScope.toList) : c ∈ children := by
  have step : (children.foldl insertScope node).follow (.scope c.scopeKey) = some c :=
    (mem_toList_iff Node.scopeKey (ordered_insertScopes ord)).mp hc
  have start : node.follow (.scope c.scopeKey) = none := by
    rw [Node.follow, empty]
    rfl
  rw [follow_insertScopes ord, start, Option.none_or] at step
  exact List.mem_of_find?_eq_some step

/-- A node over nodes that are built, none of them an item, is built. -/
theorem built_insertScopes {children : List Node} {node : Node} (empty : node.nextScope = .nil)
    (noItems : node.array = []) (size : node.info.arraysize = 0) (level : node.info.jsl ≠ .array)
    (each : ∀ c ∈ children, Built c ∧ ¬ IsItem c) :
    Built (children.foldl insertScope node) := by
  have ord : Ordered Node.scopeKey node.nextScope := by rw [empty]; exact ordered_nil _
  have array : (children.foldl insertScope node).array = [] := by
    rw [insertScopes_array, noItems]
  refine .mk (ordered_insertScopes ord) ?_ (fun _ => array) ?_ ?_ ?_ ?_
  · rw [insertScopes_info, array, size]
    rfl
  · rw [insertScopes_info]
    exact fun h => absurd h level
  · exact fun c hc => (each c (mem_insertScopes ord empty hc)).2
  · exact fun c hc => (each c (mem_insertScopes ord empty hc)).1
  · rw [array]
    exact nofun

theorem built_dirImageNode {dir : DirImage ν}
    (loaded : ∀ image ∈ dir.archives, Producible image.document ∧ image.document.string = none) :
    Built (dirImageNode dir) := by
  rw [dirImageNode, ldrFilesystemLoadArchive_eq]
  refine built_insertScopes rfl rfl rfl (by rintro ⟨⟩) ?_
  intro c hc
  obtain ⟨image, himage, hnode⟩ := List.mem_filterMap.mp hc
  obtain ⟨shape, root⟩ := loaded image himage
  obtain ⟨built, level⟩ := built_archiveImageNode shape root hnode
  refine ⟨built, ?_⟩
  rw [IsItem, level]
  rintro (h | h) <;> cases h

/-- The tree that is loaded from the filesystem is built, and its first level are
directories. -/
theorem built_loadedRoot {images : List (DirImage ν)}
    (loaded : ∀ dir ∈ images, ∀ image ∈ dir.archives,
      Producible image.document ∧ image.document.string = none) :
    Built (rootNode (loadedRoot images)) ∧
      ∀ dir ∈ (loadedRoot images).toList, dir.info.jsl = .dir := by
  have level : ∀ dir : DirImage ν, (dirImageNode dir).info.jsl = .dir := by
    intro dir
    rw [dirImageNode_info]
    rfl
  have whole : rootNode (loadedRoot images) =
      (images.map dirImageNode).foldl insertScope (rootNode .nil) := by
    rw [loadedRoot, ldrFilesystemLoadDir_eq]
    have info := insertScopes_info (images.map dirImageNode) (rootNode .nil)
    have array := insertScopes_array (images.map dirImageNode) (rootNode .nil)
    generalize (images.map dirImageNode).foldl insertScope (rootNode .nil) = node at info array ⊢
    obtain ⟨i, t, a⟩ := node
    rw [rootNode]
    simp only [Node.info_mk, Node.array_mk] at info array
    rw [info, array]
    rfl
  constructor
  · rw [whole]
    refine built_insertScopes rfl rfl rfl (by rintro ⟨⟩) ?_
    intro c hc
    obtain ⟨dir, hdir, rfl⟩ := List.mem_map.mp hc
    refine ⟨built_dirImageNode (loaded dir hdir), ?_⟩
    rw [IsItem, level]
    rintro (h | h) <;> cases h
  · intro dir hdir
    have inside : dir ∈ (rootNode (loadedRoot images)).nextScope.toList := hdir
    rw [whole] at inside
    obtain ⟨image, _, rfl⟩ := List.mem_map.mp (mem_insertScopes (ordered_nil _) rfl inside)
    exact level image

theorem mem_of_follow {n c : Node} {s : Step} (h : n.follow s = some c) :
    c ∈ n.nextScope.toList ∨ c ∈ n.array := by
  cases s with
  | scope key => exact Or.inl (mem_of_avlsearch Node.scopeKey h)
  | item i => exact Or.inr (List.mem_of_getElem? h)

/-- Below a built node everything is built, and its blocks are among those of the node. -/
theorem built_getAt {n m : Node} {place : Path} (built : Built n) (nodup : n.idents.Nodup)
    (h : n.getAt place = some m) : Built m ∧ m.idents.Nodup ∧ m.idents ⊆ n.idents := by
  induction place generalizing n with
  | nil =>
    obtain rfl := Option.some.inj h
    exact ⟨built, nodup, List.Subset.refl _⟩
  | cons s rest ih =>
    rw [Node.getAt] at h
    obtain ⟨c, hc, h⟩ := Option.bind_eq_some_iff.mp h
    have idents := idents_eq n
    rw [idents, List.nodup_cons, List.nodup_append', List.nodup_flatMap,
      List.nodup_flatMap] at nodup
    have child : Built c ∧ c.idents.Nodup ∧ c.idents ⊆ n.idents := by
      rcases mem_of_follow hc with mem | mem
      · refine ⟨built.scopes c mem, nodup.2.1.1 c mem, fun i hi => ?_⟩
        rw [idents]
        exact List.mem_cons_of_mem _
          (List.mem_append_left _ (List.mem_flatMap.mpr ⟨c, mem, hi⟩))
      · refine ⟨built.items c mem, nodup.2.2.1.1 c mem, fun i hi => ?_⟩
        rw [idents]
        exact List.mem_cons_of_mem _
          (List.mem_append_right _ (List.mem_flatMap.mpr ⟨c, mem, hi⟩))
    obtain ⟨builtM, nodupM, subset⟩ := ih child.1 child.2.1 h
    exact ⟨builtM, nodupM, List.Subset.trans subset child.2.2⟩

end LoadedTree

section Samples

/-- The memory after a document of three items is loaded. -/
def nullStore : Store Nat where
  heap := ⟨[nullDocument], 8⟩
  fs := ⟨fun _ => false, fun _ => .zero, fun _ => .zero⟩
  freed := []
  deletedCheckpoints := []

/-- `{"arr":["x"]}` -/
def itemImages : List (DirImage Nat) := oneArchive (arrayDocument (ofChars ['a', 'r', 'r']))

theorem itemImages_loaded : ∀ dir ∈ itemImages, ∀ image ∈ dir.archives,
    Producible image.document ∧ image.document.string = none :=
  oneArchive_loaded (arrayDocument_ok (legalName_iff.mpr (by decide +kernel))).1 rfl

end Samples

end DeleteTargets
