import Cfgd.DeleteSteps
import Cfgd.Orders
import Cfgd.SlotTables

/-!
# The directories and archives of the tree

The first two levels of the tree, as a map from names to nodes, and what each request
does to them and to the slots of the fs: nothing, or one of a few effects. What happens
inside an archive does not show here.
-/

namespace Catalog

open AvlTree CText CJson Request ConfigNode Loader FsImage SlotTables Runtime DeleteRange
open DeleteTargets KeyShape Reach UpdateCases AppendSteps RegularTree DeleteSteps Orders

variable {ν : Type}

/-- The directories by name, and the archives by the names of their directory and their own. -/
structure Listing where
  dir : Bytes → Option NodeInfo
  archive : Bytes → Bytes → Option NodeInfo

def listing (root : Avl Node) : Listing where
  dir key := ((rootNode root).getAt [.scope key]).map Node.info
  archive key key' := ((rootNode root).getAt [.scope key, .scope key']).map Node.info

namespace Listing

def empty : Listing := ⟨fun _ => none, fun _ _ => none⟩

def addDir (l : Listing) (key : Bytes) (info : NodeInfo) : Listing where
  dir := Function.update l.dir key (some info)
  archive := Function.update l.archive key fun _ => none

def dropDir (l : Listing) (key : Bytes) : Listing where
  dir := Function.update l.dir key none
  archive := Function.update l.archive key fun _ => none

def addArchive (l : Listing) (key key' : Bytes) (info : NodeInfo) : Listing where
  dir := l.dir
  archive := Function.update l.archive key (Function.update (l.archive key) key' (some info))

def dropArchive (l : Listing) (key key' : Bytes) : Listing where
  dir := l.dir
  archive := Function.update l.archive key (Function.update (l.archive key) key' none)

section Lookup
variable (l : Listing) (key key' k k' : Bytes) (info : NodeInfo)

theorem addDir_dir : (l.addDir key info).dir k = if k = key then some info else l.dir k :=
  Function.update_apply ..

theorem addDir_archive :
    (l.addDir key info).archive k k' = if k = key then none else l.archive k k' := by
  simp only [addDir, Function.update_apply]
  split <;> rfl

theorem dropDir_dir : (l.dropDir key).dir k = if k = key then none else l.dir k :=
  Function.update_apply ..

theorem dropDir_archive :
    (l.dropDir key).archive k k' = if k = key then none else l.archive k k' := by
  simp only [dropDir, Function.update_apply]
  split <;> rfl

theorem addArchive_archive : (l.addArchive key key' info).archive k k' =
    if k = key ∧ k' = key' then some info else l.archive k k' := by
  simp only [addArchive, Function.update_apply]
  by_cases here : k = key
  · subst here
    simp [Function.update_apply]
  · simp [here]

theorem dropArchive_archive : (l.dropArchive key key').archive k k' =
    if k = key ∧ k' = key' then none else l.archive k k' := by
  simp only [dropArchive, Function.update_apply]
  by_cases here : k = key
  · subst here
    simp [Function.update_apply]
  · simp [here]

end Lookup

end Listing

/-- What a request can do to the directories and archives of the tree and to the fs. -/
inductive Effect : Listing → FsLayout → Listing → FsLayout → Prop where
  | none (l : Listing) (fs : FsLayout) : Effect l fs l fs
  | save (l : Listing) (fs : FsLayout) (fsSection : Int) (text : Option Bytes) :
      Effect l fs l (fsOverrideFile fs fsSection text).1
  | mkdir {l : Listing} {fs fs' : FsLayout} {id : Int} {info : NodeInfo}
      (fits : Roomy info.scopeName)
      (call : fsAllocateDir fs info.scopeName = some (fs', id)) (made : 0 ≤ id) :
      Effect l fs (l.addDir (fold info.scopeName) info) fs'
  | rmdir {l : Listing} {fs : FsLayout} {info : NodeInfo}
      (there : l.dir (fold info.scopeName) = some info) :
      Effect l fs (l.dropDir (fold info.scopeName)) (fsDeleteDir fs info.scopeName)
  | clear (l : Listing) (fs : FsLayout) : Effect l fs .empty (fsClearConfig fs)
  | create {l : Listing} {fs fs' : FsLayout} {dir info : NodeInfo} {fsSection : Int}
      (there : l.dir (fold dir.scopeName) = some dir)
      (missing : l.archive (fold dir.scopeName) (fold info.scopeName) = none)
      (noDot : dot ∉ info.scopeName) (fits : Roomy info.scopeName)
      (call : allocateSection fs dir.scopeName info.scopeName = (fs', some fsSection))
      (own : info.fsSection = fsSection) :
      Effect l fs (l.addArchive (fold dir.scopeName) (fold info.scopeName) info) fs'
  | refuse {l : Listing} {fs fs' : FsLayout} {dir : NodeInfo} {name : Bytes}
      (there : l.dir (fold dir.scopeName) = some dir) (fits : Roomy name)
      (call : allocateSection fs dir.scopeName name = (fs', .none)) : Effect l fs l fs'
  | undo {l : Listing} {fs fs' : FsLayout} {dir : NodeInfo} {name : Bytes} {fsSection : Int}
      (there : l.dir (fold dir.scopeName) = some dir) (fits : Roomy name)
      (call : allocateSection fs dir.scopeName name = (fs', some fsSection)) :
      Effect l fs l (fsDeleteFile fs' fsSection)
  | delete {l : Listing} {fs : FsLayout} {dir info : NodeInfo}
      (there : l.dir (fold dir.scopeName) = some dir)
      (found : l.archive (fold dir.scopeName) (fold info.scopeName) = some info) :
      Effect l fs (l.dropArchive (fold dir.scopeName) (fold info.scopeName))
        (fsDeleteFile fs info.fsSection)

section Slots

/-- Deleting a range of the tree is none of the fs's business. -/
theorem stepwise_fs : Stepwise (ν := ν) fun store store' => store'.fs = store.fs where
  refl _ := rfl
  trans first second := second.trans first
  scope _ _ _ _ := rfl
  array _ _ _ _ := rfl
  item _ _ _ _ := rfl

/-- `rt_delete` gives back the slot of an archive, and no other. -/
theorem rtDelete_fs {fuel : Nat} {store : Store ν} {n parent : Node} {segm : Segment}
    {deleted : Deleted ν} (h : rtDelete fuel store n parent segm = some deleted) :
    deleted.store.fs = if n.info.jsl = .archive then fsDeleteFile store.fs n.info.fsSection
      else store.fs := by
  have kept := rtDelete_keeps stepwise_fs h
  rw [beforeDelete] at kept
  split at kept
  · rename_i archive
    rw [if_pos archive]
    exact kept
  · rename_i other
    rw [if_neg other]
    exact kept

/-- Without an archive among the segments no slot is taken. -/
theorem rtAppend_fs (v : Bytes) (store : Store ν) (node : Node) {segms : List Segment}
    (inner : ∀ segm ∈ segms, segm.jsl ≠ .archive) :
    (rtAppend v store node segms).store.fs = store.fs := by
  have appending : Appending fun (store : Store ν) r => r.store.fs = store.fs :=
    { stops := fun _ _ _ _ _ => rfl
      allocates := fun _ same => same }
  exact rtAppend_keeps appending v (fun ⟨segm, mem, archive⟩ => absurd archive (inner segm mem))
    store node

variable [DoubleText ν]

theorem rtFieldUpdate_fs (store : Store ν) (node : Node) (v : Bytes) :
    (rtFieldUpdate store node v).1.fs = store.fs := by
  obtain ⟨heap, same⟩ := rtFieldUpdate_store store v node
  rw [same]

theorem rtArrayFieldUpdate_fs (store : Store ν) (node : Node) (which : Int) (v : Bytes) :
    (rtArrayFieldUpdate store node which v).1.fs = store.fs := by
  obtain ⟨heap, same⟩ := rtArrayFieldUpdate_store store v node which
  rw [same]

end Slots

section Listings

theorem getAt_one (n : Node) (s : Step) : n.getAt [s] = n.follow s := by
  rw [Node.getAt]
  cases n.follow s <;> rfl

/-- A write further down, or one that keeps the members of the node, does not show in the
members of the nodes above. -/
theorem info_getAt_modifyAt {n m : Node} {path q : Path} {write : Node → Node}
    (there : n.getAt path = some m) (key : (write m).scopeKey = m.scopeKey)
    (same : q = path → (write m).info = m.info) (short : q.length ≤ path.length) :
    ((n.modifyAt write path).getAt q).map Node.info = (n.getAt q).map Node.info := by
  induction path generalizing n q with
  | nil =>
    obtain rfl := List.eq_nil_of_length_eq_zero (Nat.le_zero.mp short)
    obtain rfl := Option.some.inj there
    exact congrArg some (same rfl)
  | cons s rest ih =>
    have keeps : ∀ m', n.getAt (s :: rest) = some m' → (write m').scopeKey = m'.scopeKey := by
      intro m' hm'
      obtain rfl := Option.some.inj (there.symm.trans hm')
      exact key
    cases q with
    | nil => exact congrArg some modifyAt_info
    | cons s' q =>
      rw [Node.getAt] at there
      obtain ⟨c, hc, below⟩ := Option.bind_eq_some_iff.mp there
      rw [Node.getAt, Node.getAt, follow_modifyAt keeps]
      split
      · rename_i here
        subst here
        rw [hc, Option.map_some, Option.bind_some, Option.bind_some]
        exact ih below (fun h => same (congrArg _ h)) (Nat.le_of_succ_le_succ short)
      · rfl

theorem listing_modifyAt {root root' : Avl Node} {m : Node} {path : Path} {write : Node → Node}
    (tree : rootNode root' = (rootNode root).modifyAt write path)
    (there : (rootNode root).getAt path = some m) (key : (write m).scopeKey = m.scopeKey)
    (deep : 2 ≤ path.length) (same : path.length = 2 → (write m).info = m.info) :
    listing root' = listing root := by
  have kept : ∀ q : Path, q.length ≤ 2 →
      ((rootNode root').getAt q).map Node.info = ((rootNode root).getAt q).map Node.info := by
    intro q short
    rw [tree]
    refine info_getAt_modifyAt there key (fun h => same ?_) (Nat.le_trans short deep)
    subst h
    exact Nat.le_antisymm short deep
  rw [listing, listing]
  congr
  · funext key
    exact kept [.scope key] (by simp)
  · funext key key'
    exact kept [.scope key, .scope key'] (by simp)

/-- A write to a directory that keeps its members shows in its archives only. -/
theorem listing_modifyDir {root root' : Avl Node} {dir dir' : Node} {key : Bytes}
    (found : (rootNode root).follow (.scope key) = some dir)
    (tree : rootNode root' = (rootNode root).modifyAt (fun _ => dir') [.scope key])
    (info : dir'.info = dir.info) : listing root' = { listing root with
      archive := Function.update (listing root).archive key
        fun key' => (dir'.follow (.scope key')).map Node.info } := by
  have key' : dir'.scopeKey = dir.scopeKey := by rw [Node.scopeKey, info, Node.scopeKey]
  have there : (rootNode root).getAt [.scope key] = some dir := by
    rw [Node.getAt, found]
    rfl
  have keeps : ∀ m', (rootNode root).getAt [.scope key] = some m' →
      dir'.scopeKey = m'.scopeKey := by
    intro m' hm'
    obtain rfl := Option.some.inj (there.symm.trans hm')
    exact key'
  rw [listing, listing]
  congr
  · funext k
    have same := @info_getAt_modifyAt _ _ _ [.scope k] (fun _ => dir') there key' (fun _ => info)
      (Nat.le_refl 1)
    rw [← tree] at same
    exact same
  · funext k k'
    rw [tree, Node.getAt, @follow_modifyAt _ (fun _ => dir') _ [] keeps, Function.update_apply]
    by_cases here : k = key
    · subst here
      rw [if_pos rfl, if_pos rfl, found]
      exact congrArg _ (getAt_one dir' _)
    · rw [if_neg (by simpa using here), if_neg here]
      rfl

theorem listing_dir {root : Avl Node} {key : Bytes} {dir : Node}
    (found : (rootNode root).follow (.scope key) = some dir) :
    key = fold dir.info.scopeName ∧
      (listing root).dir (fold dir.info.scopeName) = some dir.info := by
  have same : fold dir.info.scopeName = key := key_of_avlsearch Node.scopeKey found
  refine ⟨same.symm, ?_⟩
  rw [same, listing]
  dsimp only
  rw [Node.getAt, found]
  rfl

theorem listing_archive {root : Avl Node} {key : Bytes} {dir : Node}
    (found : (rootNode root).follow (.scope key) = some dir) (key' : Bytes) :
    (listing root).archive key key' = (dir.follow (.scope key')).map Node.info := by
  rw [listing]
  dsimp only
  rw [Node.getAt, found]
  exact congrArg _ (getAt_one dir _)

end Listings

section Effects
variable {world : World ν}

theorem root_eq_of_rootNode {root root' : Avl Node} (h : rootNode root' = rootNode root) :
    root' = root := congrArg Node.nextScope h

/-- The first two segments of a key that is appended below a directory. -/
theorem effect_rtAppend {dir : Node} {key name v : Bytes} {index : Int} {rest : List Segment}
    {root' : Avl Node} (found : (rootNode world.root).follow (.scope key) = some dir)
    (missing : dir.follow (.scope (fold name)) = none)
    (ordered : Ordered Node.scopeKey dir.nextScope) (noDot : dot ∉ name) (fits : Roomy name)
    (inner : ∀ segm ∈ rest, segm.jsl ≠ .archive)
    (tree : rootNode root' = (rootNode world.root).modifyAt
      (fun _ => (rtAppend v world.store dir (⟨name, index, .archive⟩ :: rest)).node) [.scope key]) :
    Effect (listing world.root) world.store.fs (listing root')
      (rtAppend v world.store dir (⟨name, index, .archive⟩ :: rest)).store.fs := by
  obtain ⟨rfl, there⟩ := listing_dir found
  have at' : (rootNode world.root).getAt [.scope (fold dir.info.scopeName)] = some dir := by
    rw [getAt_one]
    exact found
  rw [rtAppend_archive] at tree ⊢
  cases call : allocateSection world.store.fs dir.info.scopeName name with
  | mk fs answer =>
    cases answer with
    | none =>
      simp only [call] at tree ⊢
      obtain rfl := root_eq_of_rootNode (tree.trans (modifyAt_self at'))
      exact .refuse there fits call
    | some fsSection =>
      simp only [call] at tree ⊢
      cases made : archiveNode dir name world.store.heap.nextAddr world.store.heap.nextAddr with
      | none =>
        simp only [made] at tree ⊢
        obtain rfl := root_eq_of_rootNode (tree.trans (modifyAt_self at'))
        exact .undo there fits call
      | some archive =>
        simp only [made] at tree ⊢
        rw [makeArchive] at tree ⊢
        have named := archiveNode_spec noDot made
        generalize hfresh : (archive.setInfo fun info => { info with fsSection := fsSection }) =
          fresh at tree ⊢
        obtain ⟨scopeName, jsl, own⟩ : fresh.info.scopeName = name ∧ fresh.info.jsl = .archive ∧
            fresh.info.fsSection = fsSection := by
          rw [← hfresh, Node.info_setInfo]
          exact ⟨named.1, named.2.1, rfl⟩
        generalize hstore : ({ world.store with
          fs := fs
          heap := (cjsonCreate world.store.heap Kind.cjsonObject).1.addRoot
            (cjsonCreate world.store.heap Kind.cjsonObject).2 } : Store ν) = store at tree ⊢
        have kept := rtAppend_kept v store fresh rest
        have info := kept.2.2 (by rw [jsl]; exact nofun)
        have slots := rtAppend_fs v store fresh inner
        have fs' : store.fs = fs := by rw [← hstore]
        generalize rtAppend v store fresh rest = below at tree info slots ⊢
        have childKey : below.node.scopeKey = fold name := by
          rw [Node.scopeKey, info, scopeName]
        have after := listing_modifyDir found tree (insertScope_info dir below.node)
        have members : (fun key' =>
            ((insertScope dir below.node).follow (.scope key')).map Node.info) =
            Function.update ((listing world.root).archive (fold dir.info.scopeName))
              (fold below.node.info.scopeName) (some below.node.info) := by
          funext key'
          rw [follow_insertScope ordered, childKey, Function.update_apply, info, scopeName,
            listing_archive found]
          by_cases here : key' = fold name
          · subst here
            rw [if_pos rfl, if_pos rfl, missing, Option.getD_none, Option.map_some, info]
          · rw [if_neg (by simpa using here), if_neg here]
        have whole : listing root' = (listing world.root).addArchive (fold dir.info.scopeName)
            (fold below.node.info.scopeName) below.node.info := by
          rw [after]
          dsimp only
          rw [members]
          rfl
        have name' : below.node.info.scopeName = name := by rw [info, scopeName]
        have call' : allocateSection world.store.fs dir.info.scopeName below.node.info.scopeName =
            (fs, some fsSection) := by rw [name', call]
        rw [whole, slots, fs']
        refine .create there ?_ (name' ▸ noDot) (name' ▸ fits) call' (by rw [info, own])
        rw [listing_archive found, name', missing]
        rfl

/-- Fields and arrays are below the archives. -/
theorem deep_of_level {depth : Nat} {c : Node} (h : Regular depth c) (notDir : c.info.jsl ≠ .dir)
    (notArchive : c.info.jsl ≠ .archive) : 3 ≤ depth := by
  have stands := h.here.stands
  rcases depth with _ | _ | _ | depth
  · exact absurd stands notDir
  · exact absurd stands notDir
  · exact absurd stands notArchive
  · omega

theorem rtDelete_archive {fuel : Nat} {store : Store ν} {n parent : Node} {segm : Segment}
    {deleted : Deleted ν} (level : n.info.jsl = .archive)
    (h : rtDelete fuel store n parent segm = some deleted) :
    deleted.parentnode = removeScope parent n.info.scopeName := by
  cases rtDelete_cases h with
  | refused level' => exact absurd level level'.2.2
  | whole level' => simp [level] at level'
  | archive _ call =>
    have above := (rtDeleteRange_unlinks true fuel _ _ _ _ _ _ call).above
    rwa [parentAfter, if_neg (not_isItem level (by simp) (by simp))] at above
  | item level' => simp [level] at level'
  | entire level' => simp [level] at level'

/-- The archive that is taken out of its directory gives back its slot. -/
theorem effect_rtDelete {dir archive : Node} {key key' : Bytes} {root' : Avl Node}
    (found : (rootNode world.root).follow (.scope key) = some dir)
    (found' : dir.follow (.scope key') = some archive)
    (ordered : Ordered Node.scopeKey dir.nextScope)
    (tree : rootNode root' = (rootNode world.root).modifyAt
      (fun _ => removeScope dir archive.info.scopeName) [.scope key]) :
    Effect (listing world.root) world.store.fs (listing root')
      (fsDeleteFile world.store.fs archive.info.fsSection) := by
  obtain ⟨rfl, there⟩ := listing_dir found
  obtain rfl : fold archive.info.scopeName = key' := key_of_avlsearch Node.scopeKey found'
  have after := listing_modifyDir found tree (removeScope_info dir archive.info.scopeName)
  have members : (fun key' =>
      ((removeScope dir archive.info.scopeName).follow (.scope key')).map Node.info) =
      Function.update ((listing world.root).archive (fold dir.info.scopeName))
        (fold archive.info.scopeName) none := by
    funext key'
    rw [follow_removeScope ordered, Function.update_apply, listing_archive found]
    by_cases here : key' = fold archive.info.scopeName
    · subst here
      rw [if_pos rfl, if_pos rfl]
      rfl
    · rw [if_neg (by simpa using here), if_neg here]
  have whole : listing root' = (listing world.root).dropArchive (fold dir.info.scopeName)
      (fold archive.info.scopeName) := by
    rw [after]
    dsimp only
    rw [members]
    rfl
  rw [whole]
  refine .delete there ?_
  rw [listing_archive found, found']
  rfl

theorem mem_take_two_of_walks {n m : Node} {segms passed rest : List Segment} {s : Step}
    {segm : Segment} (walk : Walks n segms [s] passed m (segm :: rest)) :
    segm ∈ segms.take 2 := by
  cases walk with
  | scope found level level' further =>
    cases further
    simp

variable [DoubleText ν]

/-- An update of a regular tree has one effect. -/
theorem effect_update {jrp : Jrp} {u : Updated ν} (h : Regular 0 (rootNode world.root))
    (accepted : AcceptedKey jrp.segm) (noDot : ∀ segm ∈ jrp.segm, dot ∉ segm.name)
    (fits : ∀ segm ∈ jrp.segm.take 2, Roomy segm.name) (done : rtConfigUpdate world jrp = some u) :
    Effect (listing world.root) world.store.fs (listing u.world.root) u.world.store.fs := by
  cases value : jrp.valuestring with
  | none =>
    rw [rtConfigUpdate, value] at done
    obtain rfl := Option.some.inj done
    exact .none _ _
  | some v =>
    -- what is written below an archive, or to the members of a field or an array there
    have inside : ∀ {path : Path} {m m' : Node} {store : Store ν},
        (rootNode world.root).getAt path = some m → Regular path.length m' →
        m'.scopeKey = m.scopeKey → m'.info.jsl = m.info.jsl → 2 ≤ path.length →
        (path.length = 2 → m'.info = m.info) → store.fs = world.store.fs →
        Effect (listing world.root) world.store.fs
          (listing (world.modifyAt (fun _ => m') path store).root) store.fs := by
      intro path m m' store there written key jsl deep same fs
      have started : path ≠ [] := by
        rintro rfl
        cases deep
      obtain ⟨tree, _⟩ := regular_world h there written (Or.inr ⟨started, key, jsl⟩) store
      rw [listing_modifyAt tree there key deep same, fs]
      exact .none _ _
    cases update_cases h.built accepted value done with
    | refused archive => exact .none _ _
    | @delete path passed n c segm walk found target keyword deleted call checkpoints archive =>
      have there := getAt_of_walks walk
      have regular := regular_at h there
      have regularC := regular.follow found
      have level := regular.here.level c (mem_of_avlsearch Node.scopeKey found)
      obtain ⟨after, info, array⟩ := regular_reduced regular found (rtDelete_reduced level call)
      have slots := rtDelete_fs call
      obtain ⟨tree, _⟩ := regular_world h there after (Or.inl ⟨info, array⟩)
        { deleted.store with deletedCheckpoints := checkpoints }
      rcases path with _ | ⟨s, _ | ⟨s', path⟩⟩
      · -- a directory is not deleted by a write
        have isDir : c.info.jsl = .dir := regularC.here.stands
        obtain rfl := rtDelete_dir isDir call
        rw [modifyAt_self there] at tree
        have same := root_eq_of_rootNode tree
        change Effect _ _ (listing _) world.store.fs
        rw [same]
        exact .none _ _
      · have isArchive : c.info.jsl = .archive := regularC.here.stands
        rw [if_pos isArchive] at slots
        have found' : (rootNode world.root).follow s = some n := by
          rwa [getAt_one] at there
        cases s with
        | item i => cases found'
        | scope key =>
          rw [rtDelete_archive isArchive call] at tree ⊢
          change Effect _ _ (listing _) deleted.store.fs
          rw [slots]
          exact effect_rtDelete found' found regular.here.ordered tree
      · have inner : c.info.jsl ≠ .archive := regularC.here.stands
        rw [if_neg inner] at slots
        refine inside there after ?_ (by rw [info]) (by simp) (fun _ => info) slots
        rw [Node.scopeKey, info, Node.scopeKey]
    | @field path passed n c segm walk found level level' notDeleted archive =>
      have there := getAt_member walk found
      have regular := regular_at h there
      obtain ⟨after, key, jsl⟩ := regular_rtFieldUpdate regular world.store v
      have deep := deep_of_level regular (by simp [level]) (by simp [level])
      exact inside there after key jsl (Nat.le_of_succ_le deep) (fun two => by omega)
        (rtFieldUpdate_fs ..)
    | @item path passed n c segm walk found level level' place notDeleted archive =>
      have there := getAt_member walk found
      have regular := regular_at h there
      obtain ⟨after, key, jsl⟩ := regular_rtArrayFieldUpdate regular world.store segm.index v
      have deep := deep_of_level regular (by simp [level]) (by simp [level])
      exact inside there after key jsl (Nat.le_of_succ_le deep) (fun two => by omega)
        (rtArrayFieldUpdate_fs ..)
    | @missing path passed rest m segm walk started missing level noFile notDeleted archive =>
      have there := getAt_of_walks walk
      have regular := regular_at h there
      have notArray := notArray_of_walks walk h (by rintro ⟨⟩)
      have levels := segmsFit_of_walks accepted walk started
      have after := regular_rtAppend v world.store (segm :: rest) regular levels
        fun isArray => absurd isArray notArray
      have kept := rtAppend_kept v world.store m (segm :: rest)
      rcases levels with ⟨deep, all⟩ | ⟨one, segm', rest', same, isArchive, inner⟩
      · exact inside there after (scopeKey_rtAppend ..) kept.2.1 deep (fun _ => kept.2.2 notArray)
          (rtAppend_fs v world.store m all)
      · obtain ⟨rfl, rfl⟩ := List.cons.inj same
        obtain ⟨tree, _⟩ := regular_world h there after
          (Or.inr ⟨started, scopeKey_rtAppend .., kept.2.1⟩)
          (rtAppend v world.store m (segm :: rest)).store
        obtain ⟨s, rfl⟩ := List.length_eq_one_iff.mp one
        have found : (rootNode world.root).follow s = some m := by rwa [getAt_one] at there
        have left := suffix_of_walks walk
        rcases segm with ⟨name, index, jsl⟩
        obtain rfl : jsl = .archive := isArchive
        cases s with
        | item i => cases found
        | scope key =>
          have inTwo := mem_take_two_of_walks walk
          exact effect_rtAppend found missing regular.here.ordered
            (noDot _ (left.subset (List.mem_cons_self ..))) (fits _ inTwo) inner tree
    | @extend path passed rest m c segm walk found level level' next notDeleted archive =>
      have there := getAt_member walk found
      have regular := regular_at h there
      have levels := segmsFit_array accepted walk level'
      have after := regular_rtAppend v world.store (segm :: rest) regular
        (by rwa [List.length_append]) fun _ => by
          rintro _ ⟨⟩
          exact level'
      have kept := rtAppend_kept v world.store c (segm :: rest)
      have deep := deep_of_level regular (by simp [level]) (by simp [level])
      have inner : ∀ s ∈ segm :: rest, s.jsl ≠ .archive := by
        rcases levels with ⟨_, all⟩ | ⟨_, segm', rest', same, isArchive, _⟩
        · exact all
        · obtain ⟨rfl, _⟩ := List.cons.inj same
          rw [level'] at isArchive
          cases isArchive
      exact inside there after (scopeKey_rtAppend ..) kept.2.1 (Nat.le_of_succ_le deep)
        (fun two => by omega) (rtAppend_fs v world.store c inner)

end Effects

section Orders
variable {world : World ν}

/-- The request was parsed from a payload. -/
def Received (jrp : Jrp) : Prop := ∃ payload, rtCreateJrp payload = some jrp

theorem Received.accepted {jrp : Jrp} (h : Received jrp) : AcceptedKey jrp.segm := by
  obtain ⟨payload, parsed⟩ := h
  exact (acceptedKey_of_rtCreateJrp parsed).1

theorem Received.noDot {jrp : Jrp} (h : Received jrp) : ∀ segm ∈ jrp.segm, dot ∉ segm.name := by
  obtain ⟨payload, parsed⟩ := h
  rw [rtCreateJrp] at parsed
  split at parsed
  · cases parsed
  · obtain ⟨segm, separated, rfl⟩ := Option.map_eq_some_iff.mp parsed
    exact noDot_of_rtSeparateSegment separated

/-- The names of directory and archive fit into the slots of the fs. -/
def NamesFit (jrp : Jrp) : Prop := ∀ segm ∈ jrp.segm.take 2, Fits segm.name

/-- The names of directory and archive stay inside `name` and `unused` of their slots. -/
def NamesRoomy (jrp : Jrp) : Prop := ∀ segm ∈ jrp.segm.take 2, Roomy segm.name

theorem NamesFit.roomy {jrp : Jrp} (h : NamesFit jrp) : NamesRoomy jrp :=
  fun segm mem => (h segm mem).roomy

theorem regular_nil : Regular 0 (rootNode .nil) := regular_leaf rfl rfl rfl rfl

theorem listing_nil : listing .nil = .empty := rfl

/-- `rt_create_dir` makes a directory in the tree and in the fs, or neither. -/
theorem effect_rtCreateDir {jrp : Jrp} {result : World ν × Int}
    (h : Regular 0 (rootNode world.root)) (fits : NamesRoomy jrp)
    (missing : ∀ segm fs id, jrp.segm = [segm] →
      fsAllocateDir world.store.fs segm.name = some (fs, id) → 0 ≤ id →
      (rootNode world.root).follow (.scope (fold segm.name)) = none)
    (done : rtCreateDir world jrp = some result) :
    Regular 0 (rootNode result.1.root) ∧
      Effect (listing world.root) world.store.fs (listing result.1.root) result.1.store.fs := by
  rw [rtCreateDir] at done
  split at done
  · rename_i segm one _
    obtain ⟨⟨fs, id⟩, call, rfl⟩ := Option.map_eq_some_iff.mp done
    have outcome := allocateDir_cases call
    dsimp only
    split
    · rename_i negative
      rcases outcome with ⟨rfl, _⟩ | ⟨d, _, _, _, rfl, _⟩
      · exact ⟨h, .none _ _⟩
      · have positive := dirIdOf_pos d
        omega
    · rename_i made
      have positive := Int.not_lt.mp made
      have isNew := missing segm fs id one call positive
      have fit : Roomy segm.name := fits segm (by rw [one]; simp)
      generalize hnode : ldrCreateDir world.store.heap.nextAddr segm.name = dir
      have parts : dir.info.scopeName = segm.name ∧ dir.info.jsl = .dir ∧ dir.nextScope = .nil ∧
          dir.array = [] ∧ dir.info.arraysize = 0 := by
        rw [← hnode]
        exact ⟨rfl, rfl, rfl, rfl, rfl⟩
      obtain ⟨named, level, tree, array, size⟩ := parts
      have regular : Regular 1 dir := regular_leaf tree array size level
      have whole : rootNode (avlinsert Node.scopeKey world.root dir) =
          insertScope (rootNode world.root) dir := rfl
      have key : dir.scopeKey = fold segm.name := by rw [Node.scopeKey, named]
      refine ⟨?_, ?_⟩
      · rw [whole]
        exact regular_insertScope h regular
          (not_isItem level (by rintro ⟨⟩) (by rintro ⟨⟩)) (by rintro ⟨⟩)
      · have members : listing (avlinsert Node.scopeKey world.root dir) =
            (listing world.root).addDir (fold dir.info.scopeName) dir.info := by
          have follow : ∀ k, (rootNode (avlinsert Node.scopeKey world.root dir)).follow (.scope k) =
              if k = fold segm.name then some dir
              else (rootNode world.root).follow (.scope k) := by
            intro k
            rw [whole, follow_insertScope h.here.ordered, key]
            by_cases here : k = fold segm.name
            · subst here
              rw [if_pos rfl, if_pos rfl, isNew]
              rfl
            · rw [if_neg (by simpa using here), if_neg here]
          rw [listing, Listing.addDir, named]
          congr
          · funext k
            rw [getAt_one, follow, Function.update_apply]
            by_cases here : k = fold segm.name
            · rw [if_pos here, if_pos here]
              rfl
            · rw [if_neg here, if_neg here, listing]
              dsimp only
              rw [getAt_one]
          · funext k k'
            rw [Node.getAt, follow, Function.update_apply]
            by_cases here : k = fold segm.name
            · rw [if_pos here, if_pos here, Option.bind_some, getAt_one, Node.follow, tree]
              rfl
            · rw [if_neg here, if_neg here]
              rfl
        rw [members]
        refine .mkdir (named.symm ▸ fit) (named.symm ▸ call) positive
  · obtain rfl := Option.some.inj done
    exact ⟨h, .none _ _⟩

/-- `rt_delete_dir` takes a directory out of the fs first, then out of the tree. -/
theorem rtDeleteDir_spec {rel : Store ν → Store ν → Prop} (stepwise : Stepwise rel) {dir : Node}
    {world' : World ν} {tree : Avl Node} (level : dir.info.jsl = .dir)
    (done : rtDeleteDir world dir = some (world', tree)) :
    tree = world'.root ∧
      rootNode world'.root = removeScope (rootNode world.root) dir.info.scopeName ∧
      ∃ store last, world'.store = store.free last ∧
        rel { world.store with fs := fsDeleteDir world.store.fs dir.info.scopeName } store := by
  rw [rtDeleteDir, if_neg (not_not.mpr level)] at done
  obtain ⟨⟨store, root⟩, call, same⟩ := Option.map_eq_some_iff.mp done
  obtain ⟨rfl, rfl⟩ := Prod.mk.inj same
  rw [rtDeleteRangeOfDir] at call
  split at call
  · cases call
  · split at call
    · cases call
    · rename_i drained
      obtain ⟨rfl, rfl⟩ := Prod.mk.inj (Option.some.inj call)
      have named := (drainScopes_same (rtDeleteRange_unlinks true _) drained).1.scopeName
      refine ⟨rfl, ?_, _, _, rfl,
        drainScopes_keeps stepwise (rtDeleteRange_keeps stepwise true _) drained⟩
      rw [named]
      rfl

/-- `rt_delete_dir` of a directory takes it out of the tree and of the fs. -/
theorem effect_rtDeleteDir {key : Bytes} {dir : Node} {world' : World ν} {tree : Avl Node}
    (h : Regular 0 (rootNode world.root))
    (found : (rootNode world.root).follow (.scope key) = some dir)
    (done : rtDeleteDir world dir = some (world', tree)) :
    Regular 0 (rootNode world'.root) ∧
      Effect (listing world.root) world.store.fs (listing world'.root) world'.store.fs := by
  have level : dir.info.jsl = .dir := (h.follow found).here.stands
  obtain ⟨_, whole, store, last, freed, slots⟩ := rtDeleteDir_spec stepwise_fs level done
  have slots : world'.store.fs = fsDeleteDir world.store.fs dir.info.scopeName := by
    rw [freed]
    exact slots
  obtain ⟨rfl, there⟩ := listing_dir found
  have follow : ∀ k, (rootNode world'.root).follow (.scope k) =
      if k = fold dir.info.scopeName then none else (rootNode world.root).follow (.scope k) := by
    intro k
    rw [whole, follow_removeScope h.here.ordered]
    simp
  have members : listing world'.root = (listing world.root).dropDir (fold dir.info.scopeName) := by
    rw [listing, Listing.dropDir]
    congr
    · funext k
      rw [getAt_one, follow, Function.update_apply]
      by_cases here : k = fold dir.info.scopeName
      · rw [if_pos here, if_pos here]
        rfl
      · rw [if_neg here, if_neg here, listing]
        dsimp only
        rw [getAt_one]
    · funext k k'
      rw [Node.getAt, follow, Function.update_apply]
      by_cases here : k = fold dir.info.scopeName
      · rw [if_pos here, if_pos here]
        rfl
      · rw [if_neg here, if_neg here]
        rfl
  rw [whole, members, slots]
  exact ⟨regular_removeScope h _, .rmdir there⟩

/-- The loop over all directories ends with an empty tree, and with what each
`rt_delete_dir` keeps. -/
theorem removeDirs_keeps {P : World ν → Prop}
    (keeps : ∀ {world dir world' tree}, dir.info.jsl = .dir → P world →
      rtDeleteDir world dir = some (world', tree) → P world')
    {fuel : Nat} {world' : World ν} (h : Regular 0 (rootNode world.root)) (start : P world)
    (done : removeDirs fuel world world.root = some world') : world'.root = .nil ∧ P world' := by
  induction fuel generalizing world with
  | zero => cases done
  | succ fuel ih =>
    cases split : world.root with
    | nil =>
      rw [split, removeDirs] at done
      obtain rfl := Option.some.inj done
      exact ⟨split, start⟩
    | node l dir r height =>
      have mem : dir ∈ (rootNode world.root).nextScope.toList := by
        change dir ∈ world.root.toList
        rw [split]
        simp [Avl.toList]
      have found : (rootNode world.root).follow (.scope dir.scopeKey) = some dir :=
        (mem_toList_iff Node.scopeKey h.here.ordered).mp mem
      have level : dir.info.jsl = .dir := (h.follow found).here.stands
      rw [split, removeDirs] at done
      cases call : rtDeleteDir world dir with
      | none =>
        rw [call] at done
        cases done
      | some result =>
        obtain ⟨world₁, cursor⟩ := result
        rw [call] at done
        obtain ⟨rfl, _⟩ := rtDeleteDir_spec stepwise_fs level call
        exact ih (effect_rtDeleteDir h found call).1 (keeps level start call) done

/-- What `rt_remove_dir` does: nothing, the loop over all directories, or one `rt_delete_dir`. -/
inductive RemovedDir (world : World ν) : World ν → Prop where
  | refused : RemovedDir world world
  | cleared {fuel : Nat} {world₁ : World ν}
      (loop : removeDirs fuel world world.root = some world₁) :
      RemovedDir world ⟨world₁.root, { world₁.store with fs := fsClearConfig world₁.store.fs }⟩
  | removed {key : Bytes} {dir : Node} {world' : World ν} {tree : Avl Node}
      (found : (rootNode world.root).follow (.scope key) = some dir)
      (call : rtDeleteDir world dir = some (world', tree)) : RemovedDir world world'

theorem rtRemoveDir_cases {jrp : Jrp} {result : World ν × Int}
    (h : Regular 0 (rootNode world.root)) (done : rtRemoveDir world jrp = some result) :
    RemovedDir world result.1 := by
  rw [rtRemoveDir] at done
  split at done
  · obtain rfl := Option.some.inj done
    exact .refused
  · split at done
    · obtain ⟨world₁, loop, rfl⟩ := Option.map_eq_some_iff.mp done
      exact .cleared loop
    · split at done
      · obtain rfl := Option.some.inj done
        exact .refused
      · rename_i one
        obtain ⟨segm, hsegm⟩ := List.length_eq_one_iff.mp (not_not.mp one)
        rw [rtReachLastScope, hsegm, rtReachLastScopeLoop] at done
        simp only [Bool.false_eq_true, if_false] at done
        have search : searchScope world.root segm.name =
          (rootNode world.root).follow (.scope (fold segm.name)) := rfl
        rw [search] at done
        cases found : (rootNode world.root).follow (.scope (fold segm.name)) with
        | none =>
          simp only [found] at done
          obtain rfl := Option.some.inj done
          exact .refused
        | some dir =>
          have level : dir.info.jsl = .dir := (h.follow found).here.stands
          simp only [found, level, List.nil_append, rtReachLastScopeLoop] at done
          rw [if_pos nofun] at done
          simp only [getAt_one, found] at done
          obtain ⟨⟨world₁, tree⟩, call, rfl⟩ := Option.map_eq_some_iff.mp done
          exact .removed found call

/-- `rt_remove_dir` takes out one directory, or everything. -/
theorem effect_rtRemoveDir {jrp : Jrp} {result : World ν × Int}
    (h : Regular 0 (rootNode world.root)) (done : rtRemoveDir world jrp = some result) :
    Regular 0 (rootNode result.1.root) ∧
      Effect (listing world.root) world.store.fs (listing result.1.root) result.1.store.fs := by
  have removed := rtRemoveDir_cases h done
  generalize result.1 = world' at removed
  cases removed with
  | refused => exact ⟨h, .none _ _⟩
  | cleared loop =>
    obtain ⟨empty, _⟩ := removeDirs_keeps (P := fun _ => True) (fun _ _ _ => trivial) h trivial loop
    dsimp only
    rw [empty]
    exact ⟨regular_nil, listing_nil ▸ .clear _ _⟩
  | removed found call => exact effect_rtDeleteDir h found call

variable [DoubleText ν]

/-- A write has the effect of the update, and may save one archive after it. -/
theorem effects_proVariableWrite {print : Item ν → Bytes} {jrp : Jrp} {answered : Answered ν}
    (h : Regular 0 (rootNode world.root)) (received : Received jrp) (fits : NamesRoomy jrp)
    (done : proVariableWrite print world jrp = some answered) :
    Regular 0 (rootNode answered.world.root) ∧ ∃ fs,
      Effect (listing world.root) world.store.fs (listing answered.world.root) fs ∧
      Effect (listing answered.world.root) fs (listing answered.world.root)
        answered.world.store.fs := by
  rw [proVariableWrite] at done
  split at done
  · obtain rfl := Option.some.inj done
    exact ⟨h, _, .none _ _, .none _ _⟩
  · obtain ⟨u, update, rfl⟩ := Option.map_eq_some_iff.mp done
    have regular := regular_update h received.accepted update
    have effect := effect_update h received.accepted received.noDot fits update
    split
    · exact ⟨regular, _, effect, .none _ _⟩
    · split
      · rw [saveArchive]
        split
        · exact ⟨regular, _, effect, .none _ _⟩
        · exact ⟨regular, _, effect, .save _ _ _ _⟩
      · exact ⟨regular, _, effect, .none _ _⟩

end Orders

end Catalog
