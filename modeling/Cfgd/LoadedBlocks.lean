import Cfgd.SearchSound

/-!
# The blocks of a loaded tree

A node that the loader makes for an item is told by the address of the item. So the blocks of
a loaded tree are among those of the directories and of the items, each as often at most as
it is there.
-/

namespace LoadedBlocks

open AvlTree CText CJson Item ConfigNode Loader DocTree SearchSound

variable {ν : Type}

section Counting
variable {n c : Node}

theorem count_insertOrd {α κ β : Type} [Ord κ] [DecidableEq β] (key : α → κ) (v : α)
    (l : List α) (f : α → List β) (b : β) :
    ((insertOrd key v l).flatMap f).count b ≤ (f v).count b + (l.flatMap f).count b := by
  induction l with
  | nil => simp [insertOrd]
  | cons x xs ih =>
    rw [insertOrd]
    split
    · simp
    · simp
    · simp only [List.flatMap_cons, List.count_append] at ih ⊢
      omega

/-- A node that is inserted brings its blocks, unless there is one of its name. -/
theorem count_insertScope (ordered : Ordered Node.scopeKey n.nextScope) (i : Nat) :
    (insertScope n c).idents.count i ≤ n.idents.count i + c.idents.count i := by
  have inserted := count_insertOrd Node.scopeKey c n.nextScope.toList Node.idents i
  rw [← toList_avlinsert Node.scopeKey ordered] at inserted
  rw [idents_eq, idents_eq n, insertScope_info, insertScope_array, insertScope,
    Node.nextScope_setNextScope]
  simp only [List.count_cons, List.count_append]
  omega

theorem count_insertScopes (children : List Node) (ordered : Ordered Node.scopeKey n.nextScope)
    (i : Nat) : (children.foldl insertScope n).idents.count i ≤
      n.idents.count i + (children.flatMap Node.idents).count i := by
  induction children generalizing n with
  | nil => simp
  | cons c rest ih =>
    have first := @count_insertScope n c ordered i
    have later := ih (ordered_insertScope ordered c)
    rw [List.foldl_cons, List.flatMap_cons, List.count_append]
    omega

end Counting

section Documents

/-- What is loaded into a node adds blocks of these items only. -/
def Adds (parent node : Node) (items : List (Item ν)) : Prop :=
  Ordered Node.scopeKey parent.nextScope → ∀ i,
    node.idents.count i ≤ parent.idents.count i + (items.flatMap addrs).count i

theorem adds_more {parent node : Node} {items more : List (Item ν)} {item : Item ν}
    (h : Adds parent node items) (within : ∀ i, (items.flatMap addrs).count i ≤
      (item.addrs ++ more.flatMap addrs).count i) : Adds parent node (item :: more) := by
  intro ordered i
  have own := h ordered i
  have bound := within i
  rw [List.flatMap_cons]
  omega

theorem count_addrs (item : Item ν) (i : Nat) :
    item.addrs.count i = (item.child.flatMap addrs).count i + if item.addr = i then 1 else 0 := by
  rw [addrs_eq, List.count_cons]
  simp

/-- A node that is made for an item before its members are loaded. -/
theorem count_leaf {info : NodeInfo} {item : Item ν} (ident : info.ident = item.addr)
    {array : List Node} {i : Nat}
    (items : (array.flatMap Node.idents).count i ≤ (item.child.flatMap addrs).count i) :
    (Node.mk info .nil array).idents.count i ≤ item.addrs.count i := by
  rw [count_addrs, idents_eq]
  change (info.ident :: ([] ++ array.flatMap Node.idents)).count i ≤ _
  rw [ident, List.nil_append, List.count_cons]
  simp only [beq_iff_eq]
  omega

variable [DoubleText ν]

/-- A node that is made for an object, with its members. -/
theorem count_object {info : NodeInfo} {item : Item ν} (ident : info.ident = item.addr)
    (members : ∀ parent, Adds parent (loadChildren parent item) item.child) (i : Nat) :
    (loadChildren (.mk info .nil []) item).idents.count i ≤ item.addrs.count i := by
  have added := members (.mk info .nil []) (ordered_nil _) i
  have own : (Node.mk info .nil []).idents.count i = if item.addr = i then 1 else 0 := by
    change [info.ident].count i = _
    rw [ident, List.count_singleton]
    simp
  rw [own] at added
  rw [count_addrs]
  omega

theorem count_memberNode {item : Item ν} {jsonparentptr : Option Addr} {node : Node}
    (made : memberNode jsonparentptr item = some node)
    (members : ∀ parent, Adds parent (loadChildren parent item) item.child)
    (elements : ∀ i, ((loadElements item).flatMap Node.idents).count i ≤
      (item.child.flatMap addrs).count i) (i : Nat) :
    node.idents.count i ≤ item.addrs.count i := by
  obtain ⟨name, named, info⟩ := memberNode_info made
  have ident := (memberInfo_spec named info).2.1
  rw [memberNode, named, Option.bind_some, info, Option.map_some, Option.some.injEq] at made
  rw [← made]
  split
  · exact count_leaf ident (elements i)
  · exact count_object ident members i
  · exact count_leaf ident (Nat.zero_le _)

theorem count_elementNode {item : Item ν} (array : Addr) (arrayName : Bytes) (k : Nat)
    (members : ∀ parent, Adds parent (loadChildren parent item) item.child) (i : Nat) :
    (elementNode array arrayName k item).idents.count i ≤ item.addrs.count i := by
  have ident : (elementInfo array arrayName k item).ident = item.addr := by
    cases kind : item.kind <;> simp [elementInfo, kind, NodeInfo.blank]
  rw [elementNode]
  split
  · exact count_object ident members i
  · exact count_leaf ident (Nat.zero_le _)

mutual
theorem adds_loadChildren (item : Item ν) (parent : Node) :
    Adds parent (loadChildren parent item) item.child := by
  cases item with
  | mk addr string kind child =>
    rw [loadChildren]
    exact adds_ldrNextMisc child (some addr) parent
theorem adds_ldrNextMisc (l : List (Item ν)) (jsonparentptr : Option Addr) (parent : Node) :
    Adds parent (ldrNextMisc jsonparentptr parent l) l := by
  cases l with
  | nil =>
    rw [ldrNextMisc]
    exact fun _ i => Nat.le_add_right _ _
  | cons item rest =>
    have children : ∀ i, (item.child.flatMap addrs).count i ≤
        (item.addrs ++ rest.flatMap addrs).count i := by
      intro i
      rw [List.count_append, count_addrs]
      omega
    have others : ∀ i, (rest.flatMap addrs).count i ≤
        (item.addrs ++ rest.flatMap addrs).count i := by
      intro i
      rw [List.count_append]
      omega
    by_cases named : item.string = none
    · rw [ldrNextMisc.eq_def]
      simp only [named]
      split
      · exact fun _ i => Nat.le_add_right _ _
      · exact adds_more (adds_loadChildren item parent) children
      · exact adds_more (adds_loadChildren item parent) children
      · exact adds_more (adds_ldrNextMisc rest jsonparentptr parent) others
    · rw [ldrNextMisc_named jsonparentptr parent named]
      split
      · exact adds_more (adds_ldrNextMisc rest jsonparentptr parent) others
      · rename_i node made
        intro ordered i
        have own := count_memberNode made (adds_loadChildren item) (count_loadElements item) i
        have inserted := @count_insertScope parent node ordered i
        have later := adds_ldrNextMisc rest jsonparentptr (insertScope parent node)
          (ordered_insertScope ordered node) i
        rw [List.flatMap_cons, List.count_append]
        omega
theorem count_loadElements (item : Item ν) (i : Nat) :
    ((loadElements item).flatMap Node.idents).count i ≤ (item.child.flatMap addrs).count i := by
  cases item with
  | mk addr string kind child =>
    rw [loadElements]
    exact count_ldrArrayItems child addr (string.getD []) 0 i
theorem count_ldrArrayItems (l : List (Item ν)) (array : Addr) (arrayName : Bytes) (k i : Nat) :
    ((ldrArrayItems array arrayName k l).flatMap Node.idents).count i ≤
      (l.flatMap addrs).count i := by
  cases l with
  | nil =>
    rw [ldrArrayItems]
    exact Nat.le_refl _
  | cons item rest =>
    have own := count_elementNode array arrayName k (adds_loadChildren item) i
    have later := count_ldrArrayItems rest array arrayName (k + 1) i
    rw [ldrArrayItems, List.flatMap_cons, List.flatMap_cons, List.count_append, List.count_append]
    exact Nat.add_le_add own later
end

end Documents

section Files
variable [DoubleText ν]

/-- The blocks of what is loaded: one for each directory, and the items of the documents. -/
def blocksOf (images : List (DirImage ν)) : List Nat :=
  images.flatMap fun dir => dir.ident :: dir.archives.flatMap fun image => image.document.addrs

/-- A document has no name, so the archive stands for it. -/
theorem adds_ldrLoadArchive {document : Item ν} (unnamed : document.string = none)
    (archive : Node) : Adds archive (ldrLoadArchive archive document) document.child := by
  rw [ldrLoadArchive, ldrNextMisc.eq_def]
  simp only [unnamed]
  split
  · exact fun _ i => Nat.le_add_right _ _
  · exact adds_loadChildren document archive
  · exact adds_loadChildren document archive
  · rw [ldrNextMisc]
    exact fun _ i => Nat.le_add_right _ _

theorem count_archiveImageNode {dir archive : Node} {image : ArchiveImage ν}
    (unnamed : image.document.string = none) (made : archiveImageNode dir image = some archive)
    (i : Nat) : archive.idents.count i ≤ image.document.addrs.count i := by
  obtain ⟨empty, accepted, rfl⟩ := Option.map_eq_some_iff.mp made
  rw [archiveNode] at accepted
  split at accepted
  · cases accepted
  · obtain rfl := Option.some.inj accepted
    refine Nat.le_trans (adds_ldrLoadArchive unnamed _ (ordered_nil _) i) ?_
    rw [count_addrs, Nat.add_comm]
    refine Nat.add_le_add_left ?_ _
    change [image.document.addr].count i ≤ _
    rw [List.count_singleton]
    simp

theorem count_dirImageNode {image : DirImage ν}
    (unnamed : ∀ file ∈ image.archives, file.document.string = none) (i : Nat) :
    (dirImageNode image).idents.count i ≤
      (image.ident :: image.archives.flatMap fun file => file.document.addrs).count i := by
  have added := count_insertScopes (n := loadedDir image.ident image.name)
    (image.archives.filterMap (archiveImageNode (loadedDir image.ident image.name)))
    (ordered_nil _) i
  rw [← ldrFilesystemLoadArchive_eq] at added
  have own : (loadedDir image.ident image.name).idents = [image.ident] := rfl
  have files : ∀ l : List (ArchiveImage ν), (∀ file ∈ l, file.document.string = none) →
      ((l.filterMap (archiveImageNode (loadedDir image.ident image.name))).flatMap
        Node.idents).count i ≤ (l.flatMap fun file => file.document.addrs).count i := by
    intro l
    induction l with
    | nil => exact fun _ => Nat.le_refl _
    | cons file rest ih =>
      intro all
      obtain ⟨here, later⟩ := List.forall_mem_cons.mp all
      rw [List.flatMap_cons, List.count_append, List.filterMap_cons]
      cases made : archiveImageNode (loadedDir image.ident image.name) file with
      | none => exact Nat.le_trans (ih later) (Nat.le_add_left _ _)
      | some archive =>
        rw [List.flatMap_cons, List.count_append]
        exact Nat.add_le_add (count_archiveImageNode here made i) (ih later)
  have bound := files image.archives unnamed
  rw [own] at added
  refine Nat.le_trans added ?_
  rw [List.count_singleton, List.count_cons]
  omega

variable {images : List (DirImage ν)}
  (unnamed : ∀ dir ∈ images, ∀ file ∈ dir.archives, file.document.string = none)
include unnamed

/-- The blocks of a loaded tree. The root has the number 0. -/
theorem count_loadedRoot (i : Nat) :
    (rootNode (loadedRoot images)).idents.count i ≤ (0 :: blocksOf images).count i := by
  have whole : rootNode (loadedRoot images) =
      (images.map dirImageNode).foldl insertScope (rootNode .nil) := by
    have info := insertScopes_info (images.map dirImageNode) (rootNode .nil)
    have array := insertScopes_array (images.map dirImageNode) (rootNode .nil)
    rw [loadedRoot, ldrFilesystemLoadDir_eq]
    generalize (images.map dirImageNode).foldl insertScope (rootNode .nil) = node at info array ⊢
    obtain ⟨own, tree, items⟩ := node
    obtain rfl : own = _ := info
    obtain rfl : items = _ := array
    rfl
  have added := count_insertScopes (n := rootNode .nil) (images.map dirImageNode) (ordered_nil _) i
  rw [← whole] at added
  have own : (rootNode .nil).idents = [0] := rfl
  rw [own] at added
  refine Nat.le_trans added ?_
  rw [List.count_singleton, List.count_cons, Nat.add_comm]
  refine Nat.add_le_add_right ?_ _
  clear whole added
  induction images with
  | nil => exact Nat.le_refl _
  | cons image rest ih =>
    obtain ⟨here, later⟩ := List.forall_mem_cons.mp unnamed
    rw [List.map_cons, List.flatMap_cons, List.count_append, blocksOf, List.flatMap_cons,
      List.count_append]
    exact Nat.add_le_add (count_dirImageNode here i) (ih later)

theorem nodup_loadedRoot (nodup : (blocksOf images).Nodup)
    (filled : 0 ∉ blocksOf images) : (rootNode (loadedRoot images)).idents.Nodup := by
  rw [List.nodup_iff_count_le_one]
  intro i
  have blocks := List.nodup_iff_count_le_one.mp (List.nodup_cons.mpr ⟨filled, nodup⟩) i
  exact Nat.le_trans (count_loadedRoot unnamed i) blocks

theorem mem_loadedRoot_idents {i : Nat}
    (inside : i ∈ (rootNode (loadedRoot images)).idents) : i = 0 ∨ i ∈ blocksOf images := by
  have some := List.count_pos_iff.mpr inside
  have bound := count_loadedRoot unnamed i
  exact List.mem_cons.mp (List.count_pos_iff.mp (Nat.lt_of_lt_of_le some bound))

end Files

end LoadedBlocks
