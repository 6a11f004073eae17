import Cfgd.DirRequests
import Cfgd.AllOrNothing

/-!
# The texts of all archives

A write changes the archive of its key, and the slot of that archive. Every other archive
keeps its node and its slot.
-/

namespace SavedTexts

open AvlTree CText CJson Item Request ConfigNode Loader FsImage SlotTables Runtime DeleteRange
open KeyShape Reach UpdateCases AppendSteps RegularTree Orders Catalog Correspondence Saving
open DocTree SideBySide WriteEffects DocumentItems Coherence DirRequests Transition

variable {ν : Type}

section Slots
variable {fs fs' : FsLayout}

/-- The slots that are in use before and after are the same. -/
def SlotsStay (fs fs' : FsLayout) : Prop :=
  ∀ s, FileActive fs s → FileActive fs' s → fs'.archive s = fs.archive s

theorem slotsStay_of_eq (same : fs' = fs) : SlotsStay fs fs' := fun _ _ _ => by rw [same]

theorem slotsStay_setFile {n : Fin fsMaxArch} {used : Bool} {archive : FsArchive}
    (other : ¬ FileActive fs n ∨ archive.id ≤ 0) : SlotsStay fs (setFile fs n used archive) := by
  intro s before after
  by_cases here : s = n
  · subst here
    rcases other with free | gone
    · exact absurd before free
    · simp only [FileActive, setFile, Function.update_self] at after
      omega
  · simp [setFile, here]

theorem slotsStay_deleteFile (filed : SlotTables.Filed fs) (sectionNo : Int) :
    SlotsStay fs (fsDeleteFile fs sectionNo) := by
  rcases deleteFile_cases filed sectionNo with ⟨_, same⟩ | ⟨n, _, _, gone⟩
  · exact slotsStay_of_eq same
  · rw [gone]
    exact slotsStay_setFile (Or.inr (by decide))

theorem slotsStay_allocate (tables : Tables fs) {dirName name : Bytes} {result : Option Int}
    (roomy : Roomy name) (call : allocateSection fs dirName name = (fs', result)) :
    SlotsStay fs fs' := by
  rcases Correspondence.allocateSection_cases tables roomy call with
    ⟨_, same, _⟩ | ⟨d, _, _, ⟨same, _⟩ | ⟨n, free, _, made, _⟩⟩
  · exact slotsStay_of_eq same
  · exact slotsStay_of_eq same
  · rw [made]
    exact slotsStay_setFile (Or.inl free)

end Slots

section Frame
variable {world : World ν} {d a v : Bytes} {m m' : Node} {store : Store ν}

/-- The path that the node of an archive shows, and it fits into its value. -/
def PathFits (dir archive : NodeInfo) : Prop :=
  archive.scopeValue = dir.scopeValue ++ archive.scopeName ++ jsonExtension ∧
    archive.scopeValue.length < maxValueSize

/-- What an update of a key in an archive leaves of the two upper levels and of the slots. -/
structure Frame (world world' : World ν) (d a : Bytes) : Prop where
  dirs : ∀ k, ((rootNode world'.root).follow (.scope k)).map Node.info =
    ((rootNode world.root).follow (.scope k)).map Node.info
  others : ∀ d' a', ¬ (d' = d ∧ a' = a) → (rootNode world'.root).getAt (archiveAt d' a') =
    (rootNode world.root).getAt (archiveAt d' a')
  own : ∀ archive, (rootNode world'.root).getAt (archiveAt d a) = some archive →
    (∃ old, (rootNode world.root).getAt (archiveAt d a) = some old ∧ old.info = archive.info) ∨
      ∃ dir, (rootNode world.root).follow (.scope d) = some dir ∧ PathFits dir.info archive.info
  slots : SlotsStay world.store.fs world'.store.fs

/-- Nothing happens to the tree. -/
theorem frame_same {world' : World ν} (tree : rootNode world'.root = rootNode world.root)
    (slots : SlotsStay world.store.fs world'.store.fs) : Frame world world' d a := by
  refine ⟨fun k => by rw [tree], fun _ _ _ => by rw [tree], fun archive there => ?_, slots⟩
  rw [tree] at there
  exact Or.inl ⟨archive, there, rfl⟩

/-- A write to a directory that keeps what the directory itself shows. -/
theorem dirs_modifyAt {path : Path} {s : Step}
    (there : (rootNode world.root).getAt (s :: path) = some m) (key : m'.scopeKey = m.scopeKey)
    (info : path = [] → m'.info = m.info) (k : Bytes) :
    ((rootNode (world.modifyAt (fun _ => m') (s :: path) store).root).follow (.scope k)).map
      Node.info = ((rootNode world.root).follow (.scope k)).map Node.info := by
  have keeps : ∀ x, (rootNode world.root).getAt (s :: path) = some x →
      m'.scopeKey = x.scopeKey := by
    intro x hx
    obtain rfl := Option.some.inj (there.symm.trans hx)
    exact key
  rw [rootNode_modifyAt world _ (List.cons_ne_nil _ _), follow_modifyAt keeps]
  split
  · rename_i here
    rw [here]
    cases path with
    | nil =>
      rw [Catalog.getAt_one] at there
      rw [there, Option.map_some, Option.map_some, Option.map_some]
      exact congrArg some (info rfl)
    | cons s' rest =>
      rw [Option.map_map]
      congr 1
      funext c
      exact modifyAt_info
  · rfl

/-- A write to a node below an archive, or to the archive without its own data. -/
theorem frame_below {q : Path} (there : (rootNode world.root).getAt (archiveAt d a ++ q) = some m)
    (key : m'.scopeKey = m.scopeKey) (info : q = [] → m'.info = m.info)
    (slots : SlotsStay world.store.fs store.fs) :
    Frame world (world.modifyAt (fun _ => m') (archiveAt d a ++ q) store) d a := by
  have tree := rootNode_modifyAt world (fun _ => m') (show archiveAt d a ++ q ≠ [] by simp) store
  refine ⟨dirs_modifyAt there key (by simp), ?_, ?_, slots⟩
  · intro d' a' other
    rw [tree, archive_modifyAt there key, if_neg other]
  · intro archive hArchive
    rw [tree, archive_modifyAt there key, if_pos ⟨rfl, rfl⟩] at hArchive
    obtain ⟨old, found, rfl⟩ := Option.map_eq_some_iff.mp hArchive
    refine Or.inl ⟨old, found, ?_⟩
    cases q with
    | nil =>
      rw [List.append_nil] at there
      obtain rfl := Option.some.inj (there.symm.trans found)
      exact (info rfl).symm
    | cons s rest => exact modifyAt_info.symm

/-- A write to a directory that makes or removes one archive. -/
theorem frame_dir (there : (rootNode world.root).follow (.scope d) = some m)
    (info : m'.info = m.info) (others : ∀ a', a' ≠ a → m'.follow (.scope a') = m.follow (.scope a'))
    (own : ∀ archive, m'.follow (.scope a) = some archive → PathFits m.info archive.info)
    (slots : SlotsStay world.store.fs store.fs) :
    Frame world (world.modifyAt (fun _ => m') [.scope d] store) d a := by
  have key : m'.scopeKey = m.scopeKey := by rw [Node.scopeKey, info, Node.scopeKey]
  have at' : (rootNode world.root).getAt [.scope d] = some m := by rw [Catalog.getAt_one, there]
  have tree := rootNode_modifyAt world (fun _ => m') (List.cons_ne_nil (.scope d) []) store
  refine ⟨dirs_modifyAt at' key fun _ => info, ?_, ?_, slots⟩
  · intro d' a' other
    rw [tree, archive_dir there key]
    split
    · rename_i here
      subst here
      rw [others a' fun same => other ⟨rfl, same⟩, Node.getAt, there, Option.bind_some,
        Catalog.getAt_one]
    · rfl
  · intro archive hArchive
    rw [tree, archive_dir there key, if_pos rfl] at hArchive
    exact Or.inr ⟨m, there, own archive hArchive⟩

/-- The first two segments of a key, appended below a directory. -/
theorem frame_rtAppend {name : Bytes} {index : Int} {rest : List Segment}
    (tables : Tables world.store.fs)
    (there : (rootNode world.root).follow (.scope d) = some m)
    (missing : m.follow (.scope (fold name)) = none) (ordered : Ordered Node.scopeKey m.nextScope)
    (noDot : dot ∉ name) (roomy : Roomy name) (inner : ∀ segm ∈ rest, segm.jsl ≠ .archive) :
    Frame world (world.modifyAt
      (fun _ => (rtAppend v world.store m (⟨name, index, .archive⟩ :: rest)).node) [.scope d]
      (rtAppend v world.store m (⟨name, index, .archive⟩ :: rest)).store) d (fold name) := by
  have at' : (rootNode world.root).getAt [.scope d] = some m := by rw [Catalog.getAt_one, there]
  have unchanged : ∀ store : Store ν, SlotsStay world.store.fs store.fs →
      Frame world (world.modifyAt (fun _ => m) [.scope d] store) d (fold name) := by
    intro store slots
    refine frame_same ?_ slots
    rw [rootNode_modifyAt world _ (by simp), modifyAt_self at']
  rw [rtAppend_archive]
  cases call : allocateSection world.store.fs m.info.scopeName name with
  | mk fs answer =>
    cases answer with
    | none => exact unchanged _ (slotsStay_allocate tables roomy call)
    | some fsSection =>
      dsimp only
      cases made : archiveNode m name world.store.heap.nextAddr world.store.heap.nextAddr with
      | none => exact unchanged _ (slotsStay_of_eq (undone tables roomy call))
      | some archive =>
        dsimp only
        rw [makeArchive]
        dsimp only
        have named := archiveNode_spec noDot made
        have value : PathFits m.info archive.info := by
          simp only [archiveNode] at made
          split at made
          · cases made
          · rename_i short
            obtain rfl := Option.some.inj made
            exact ⟨rfl, Nat.not_le.mp fun long => short (Or.inr long)⟩
        generalize hfresh : (archive.setInfo fun info => { info with fsSection := fsSection }) =
          fresh
        obtain ⟨scopeName, jsl, shown⟩ : fresh.info.scopeName = name ∧ fresh.info.jsl = .archive ∧
            PathFits m.info fresh.info := by
          rw [← hfresh, Node.info_setInfo]
          exact ⟨named.1, named.2.1, value⟩
        generalize hstore : ({ world.store with
          fs := fs
          heap := (cjsonCreate world.store.heap Kind.cjsonObject).1.addRoot
            (cjsonCreate world.store.heap Kind.cjsonObject).2 } : Store ν) = store
        have info := (rtAppend_kept v store fresh rest).2.2 (by rw [jsl]; intro same; cases same)
        have slots : (rtAppend v store fresh rest).store.fs = fs := by
          rw [rtAppend_fs v store fresh inner, ← hstore]
        generalize rtAppend v store fresh rest = below at info slots ⊢
        have key : below.node.scopeKey = fold name := by rw [Node.scopeKey, info, scopeName]
        refine frame_dir there (insertScope_info m below.node) ?_ ?_ ?_
        · intro a' other
          rw [follow_insertScope ordered, key, if_neg fun same => other (Step.scope.inj same)]
        · intro archive' found
          rw [follow_insertScope ordered, key, if_pos rfl, missing] at found
          obtain rfl := Option.some.inj found
          rw [Option.getD_none, info]
          exact shown
        · rw [slots]
          exact slotsStay_allocate tables roomy call

variable [DoubleText ν]

/-- What an update of a key in an archive leaves as it was. -/
theorem frame_update {jrp : Jrp} {u : Updated ν} {rest : List Segment}
    (regular : Regular 0 (rootNode world.root)) (tables : Tables world.store.fs)
    (received : Received jrp) (roomy : NamesRoomy jrp)
    (key : jrp.segm = ⟨d, -1, .dir⟩ :: ⟨a, -1, .archive⟩ :: rest)
    (done : rtConfigUpdate world jrp = some u) : Frame world u.world (fold d) (fold a) := by
  have accepted := received.accepted
  have stay : SlotsStay world.store.fs world.store.fs := slotsStay_of_eq rfl
  cases value : jrp.valuestring with
  | none =>
    rw [rtConfigUpdate, value] at done
    obtain rfl := Option.some.inj done
    exact frame_same rfl stay
  | some v =>
    -- where the way of the key has come to
    have place : ∀ {path : Path} {passed left : List Segment} {n : Node} {segm : Segment},
        Walks (rootNode world.root) jrp.segm path passed n (segm :: left) → path ≠ [] →
        (path = [.scope (fold d)] ∧ segm = ⟨a, -1, .archive⟩ ∧ left = rest) ∨
          ∃ q, path = archiveAt (fold d) (fold a) ++ q ∧ segm :: left <:+ rest := by
      intro path passed left n segm walk started
      rw [key] at walk
      exact place_of_walks walk started
    -- a field or an array lies below an archive
    have deeper : ∀ {path : Path} {n c : Node} {s : Step},
        (rootNode world.root).getAt path = some n → n.follow s = some c →
        c.info.jsl ≠ .dir → c.info.jsl ≠ .archive → 2 ≤ path.length := by
      intro path n c s there found notDir notArchive
      have regularC := (regular_at regular there).follow found
      have deep := Catalog.deep_of_level regularC notDir notArchive
      omega
    cases update_cases regular.built accepted value done with
    | refused archive => exact frame_same rfl stay
    | @delete path passed n c segm walk found target keyword deleted call checkpoints archive =>
      have there := getAt_of_walks walk
      have slots : SlotsStay world.store.fs deleted.store.fs := by
        rw [rtDelete_fs call]
        split
        · exact slotsStay_deleteFile tables.filed _
        · exact stay
      have regularN := regular_at regular there
      rcases path with _ | ⟨s, path⟩
      · have isDir : c.info.jsl = .dir := (regularN.follow found).here.stands
        obtain rfl := rtDelete_dir isDir call
        obtain rfl := Option.some.inj there
        exact frame_same rfl stay
      · rcases place walk (List.cons_ne_nil _ _) with ⟨here, rfl, _⟩ | ⟨q, here, suffix⟩
        · rw [here] at there regularN ⊢
          have isArchive : c.info.jsl = .archive := (regularN.follow found).here.stands
          have name := key_of_avlsearch Node.scopeKey found
          rw [Catalog.getAt_one] at there
          rw [rtDelete_archive isArchive call]
          have follows := follow_removeScope regularN.here.ordered c.info.scopeName
          have name : fold c.info.scopeName = fold a := name
          refine frame_dir there (removeScope_info ..) ?_ ?_ slots
          · intro a' other
            rw [follows, name, if_neg fun same => other (Step.scope.inj same)]
          · intro archive' found'
            rw [follows, name, if_pos rfl] at found'
            cases found'
        · rw [here] at there ⊢
          have level := regularN.here.level c (mem_of_avlsearch Node.scopeKey found)
          obtain ⟨_, info, _⟩ := regular_reduced regularN found (rtDelete_reduced level call)
          exact frame_below there (by rw [Node.scopeKey, info, Node.scopeKey]) (fun _ => info) slots
    | @field path passed n c segm walk found level level' notDeleted archive =>
      have there := getAt_member walk found
      obtain ⟨_, same, _⟩ := regular_rtFieldUpdate (regular_at regular there) world.store v
      have deep := deeper (getAt_of_walks walk) found (by simp [level]) (by simp [level])
      rcases place walk (by rintro rfl; simp at deep) with ⟨rfl, _⟩ | ⟨q, rfl, _⟩
      · simp at deep
      · rw [List.append_assoc] at there ⊢
        exact frame_below there same (by simp) (slotsStay_of_eq (rtFieldUpdate_fs ..))
    | @item path passed n c segm walk found level level' place' notDeleted archive =>
      have there := getAt_member walk found
      obtain ⟨_, same, _⟩ :=
        regular_rtArrayFieldUpdate (regular_at regular there) world.store segm.index v
      have deep := deeper (getAt_of_walks walk) found (by simp [level]) (by simp [level])
      rcases place walk (by rintro rfl; simp at deep) with ⟨rfl, _⟩ | ⟨q, rfl, _⟩
      · simp at deep
      · rw [List.append_assoc] at there ⊢
        exact frame_below there same (by simp) (slotsStay_of_eq (rtArrayFieldUpdate_fs ..))
    | @missing path passed left m segm walk started missing level noFile notDeleted archive =>
      have there := getAt_of_walks walk
      have regularM := regular_at regular there
      have levels := segmsFit_of_walks accepted walk started
      rcases place walk started with ⟨rfl, rfl, rfl⟩ | ⟨q, rfl, suffix⟩
      · rcases levels with ⟨deep, _⟩ | ⟨_, segm', rest', same, isArchive, inner⟩
        · simp at deep
        · obtain ⟨rfl, rfl⟩ := List.cons.inj same
          rw [Catalog.getAt_one] at there
          have mem : ⟨a, -1, .archive⟩ ∈ jrp.segm := by rw [key]; simp
          have two : ⟨a, -1, .archive⟩ ∈ jrp.segm.take 2 := by rw [key]; simp
          exact frame_rtAppend tables there missing regularM.here.ordered
            (received.noDot _ mem) (roomy _ two) inner
      · have inner : ∀ s ∈ segm :: left, s.jsl ≠ .archive := by
          rcases levels with ⟨_, all⟩ | ⟨one, _⟩
          · exact all
          · simp at one
        have notArray := notArray_of_walks walk regular (by rintro ⟨⟩)
        exact frame_below there (scopeKey_rtAppend ..)
          (fun _ => (rtAppend_kept v world.store m (segm :: left)).2.2 notArray)
          (slotsStay_of_eq (rtAppend_fs v world.store m inner))
    | @extend path passed left m c segm walk found level level' next notDeleted archive =>
      have there := getAt_member walk found
      have deep := deeper (getAt_of_walks walk) found (by simp [level]) (by simp [level])
      have inner : ∀ s ∈ segm :: left, s.jsl ≠ .archive := by
        rcases segmsFit_array accepted walk level' with
          ⟨_, all⟩ | ⟨_, segm', rest', same, archive, _⟩
        · exact all
        · obtain ⟨rfl, _⟩ := List.cons.inj same
          rw [level'] at archive
          cases archive
      rcases place walk (by rintro rfl; simp at deep) with ⟨rfl, _⟩ | ⟨q, rfl, _⟩
      · simp at deep
      · rw [List.append_assoc] at there ⊢
        exact frame_below there (scopeKey_rtAppend ..) (by simp)
          (slotsStay_of_eq (rtAppend_fs v world.store c inner))

end Frame

section Sections
variable {root : Avl Node} {fs : FsLayout} {d a d' a' : Bytes} {dir archive archive' : Node}

/-- The slots that a directory and an archive in it have. -/
structure InSlots (fs : FsLayout) (dir archive : Node) (e : Fin fsMaxDir) (s : Fin fsMaxArch) :
    Prop where
  active : DirActive fs e
  dirName : (fs.dir e).name = dir.info.scopeName
  inside : InDir fs (fs.dir e).id s
  own : archive.info.fsSection = s
  name : archive.info.scopeName = archiveScopeName (fs.archive s).name

theorem steps_of_archive {n : Node} (there : n.getAt (archiveAt d a) = some archive) :
    ∃ dir, n.follow (.scope d) = some dir ∧ dir.follow (.scope a) = some archive := by
  rw [Node.getAt] at there
  obtain ⟨dir, first, second⟩ := Option.bind_eq_some_iff.mp there
  rw [Catalog.getAt_one] at second
  exact ⟨dir, first, second⟩

theorem archive_of_steps {n : Node} (found : n.follow (.scope d) = some dir)
    (found' : dir.follow (.scope a) = some archive) : n.getAt (archiveAt d a) = some archive := by
  rw [Node.getAt, found, Option.bind_some, Catalog.getAt_one, found']

theorem inSlots_archive (m : Matches (listing root) fs) (outside : d ≠ fold procName)
    (found : (rootNode root).follow (.scope d) = some dir)
    (found' : dir.follow (.scope a) = some archive) : ∃ e s, InSlots fs dir archive e s := by
  obtain ⟨named, entry⟩ := listing_dir found
  rw [← named] at entry
  obtain ⟨e, active, same⟩ := m.dirs _ _ entry outside
  have inside : (listing root).archive (fold (fs.dir e).name) a = some archive.info := by
    rw [same, ← named, listing_archive found, found']
    rfl
  obtain ⟨s, mine, own, name⟩ := m.archives e active _ _ inside
  exact ⟨e, s, active, same, mine, own, name⟩

/-- An archive has its slot to itself. -/
theorem slot_apart (m : Matches (listing root) fs) (filed : SlotTables.Filed fs)
    (outside : d ≠ fold procName) (outside' : d' ≠ fold procName)
    (there : (rootNode root).getAt (archiveAt d a) = some archive)
    (there' : (rootNode root).getAt (archiveAt d' a') = some archive')
    (same : archive.info.fsSection = archive'.info.fsSection) : d' = d ∧ a' = a := by
  obtain ⟨dir, found, below⟩ := steps_of_archive there
  obtain ⟨dir', found', below'⟩ := steps_of_archive there'
  obtain ⟨e, s, slots⟩ := inSlots_archive m outside found below
  obtain ⟨e', s', slots'⟩ := inSlots_archive m outside' found' below'
  obtain rfl := file_of_section slots.own (same.trans slots'.own)
  obtain rfl :=
    dir_of_id filed slots.active slots'.active (slots.inside.2.symm.trans slots'.inside.2)
  have key : fold dir.info.scopeName = d := key_of_avlsearch Node.scopeKey found
  have key' : fold dir'.info.scopeName = d' := key_of_avlsearch Node.scopeKey found'
  have name : fold archive.info.scopeName = a := key_of_avlsearch Node.scopeKey below
  have name' : fold archive'.info.scopeName = a' := key_of_avlsearch Node.scopeKey below'
  constructor
  · rw [← key', ← key, ← slots.dirName, ← slots'.dirName]
  · rw [← name', ← name, slots.name, slots'.name]

/-- `fs_override_file` leaves the other slots as they are. -/
theorem overrideFile_other {s s' : Fin fsMaxArch} (other : s' ≠ s) (text : Option Bytes) :
    (fsOverrideFile fs s text).1.archive s' = fs.archive s' := by
  cases found : fsSearchFileBysect fs s with
  | none => simp [fsOverrideFile, found]
  | some n =>
    have here : n = s := Fin.ext (by have same := (fileBysect_some found).1; omega)
    subst here
    cases text with
    | none => simp [fsOverrideFile]
    | some text =>
      simp only [fsOverrideFile, found]
      split
      · simp [other]
      · rfl

end Sections

section Records
variable [DoubleText ν]
variable (print : Item ν → Bytes) (fits : Item ν → Prop)

/-- No name and no string has a zero byte in it. -/
def Unbroken (_ : Addr) (string : Option Bytes) (kind : Kind ν) : Prop :=
  (∀ name, string = some name → 0 ∉ name) ∧ ∀ text, kind = .cjsonString text → 0 ∉ text

/-- A document of which the loader takes all, and whose text fits. -/
structure Stored (D : Item ν) : Prop where
  object : D.kind = .cjsonObject
  unnamed : D.string = none
  shape : Producible D
  words : ∀ x ∈ D.items, Wordy x.addr x.string x.kind ∧ Unbroken x.addr x.string x.kind
  whole : ∀ x ∈ D.items, (x.kind = .cjsonObject → PlainDoc.Distinct x.child) ∧
    ∀ c ∈ x.child, itemJsl c ≠ .dir
  fits : fits D

/-- The node of an archive mirrors a document, and the slot holds the text of the document. -/
structure Recorded (fs : FsLayout) (archive : Node) (D : Item ν) : Prop extends Stored fits D where
  mirrors : Mirrors archive D
  slot : ∃ s : Fin fsMaxArch, archive.info.fsSection = s ∧ (fs.archive s).data = print D

/-- All of the tree, but for `proc`, can be told from the slots. -/
structure Restorable (world : World ν) : Prop where
  steady : Steady world
  worded : Worded world
  unbroken : Each Unbroken world.store.heap
  values : ∀ d dir, (rootNode world.root).follow (.scope d) = some dir → d ≠ fold procName →
    dir.info.scopeValue = (loadedDir 0 dir.info.scopeName).info.scopeValue
  paths : ∀ d a dir archive, (rootNode world.root).follow (.scope d) = some dir →
    dir.follow (.scope a) = some archive → d ≠ fold procName → PathFits dir.info archive.info
  recorded : ∀ d a archive, (rootNode world.root).getAt (archiveAt d a) = some archive →
    d ≠ fold procName → ∃ D, Recorded print fits world.store.fs archive D

variable {print fits}

theorem Recorded.other {fs fs' : FsLayout} {archive : Node} {D : Item ν}
    (h : Recorded print fits fs archive D)
    (same : ∀ s : Fin fsMaxArch, archive.info.fsSection = s → (fs'.archive s).data =
      (fs.archive s).data) : Recorded print fits fs' archive D := by
  obtain ⟨s, own, data⟩ := h.slot
  exact { h with slot := ⟨s, own, (same s own).trans data⟩ }

/-- Only the tree, the documents and the slots count. -/
theorem restorable_congr {world world' : World ν} (h : Restorable print fits world)
    (steady : Steady world') (tree : rootNode world'.root = rootNode world.root)
    (heap : world'.store.heap = world.store.heap) (fs : world'.store.fs = world.store.fs) :
    Restorable print fits world' := by
  obtain ⟨_, ⟨backed, each⟩, unbroken, values, paths, recorded⟩ := h
  refine ⟨steady, ⟨⟨tree ▸ backed.regular, heap ▸ backed.separate, ?_, ?_⟩, heap ▸ each⟩,
    heap ▸ unbroken, tree ▸ values, tree ▸ paths, tree ▸ fs ▸ recorded⟩
  · rw [tree, heap]
    exact backed.filed
  · rw [tree]
    exact backed.apart

/-- What a step leaves in the tree besides the directories and the archives that it makes
anew. -/
structure Leaves (world world' : World ν) : Prop where
  dirs : ∀ d dir, (rootNode world'.root).follow (.scope d) = some dir →
    (rootNode world.root).follow (.scope d) = some dir ∨
      (dir.info.scopeValue = (loadedDir 0 dir.info.scopeName).info.scopeValue ∧
        dir.nextScope = .nil)
  slots : SlotsStay world.store.fs world'.store.fs

/-- A step that makes no archive, and leaves those that it leaves with their slots. -/
theorem restorable_leaves {world world' : World ν} (h : Restorable print fits world)
    (steady : Steady world') (worded : Worded world') (unbroken : Each Unbroken world'.store.heap)
    (leaves : Leaves world world') : Restorable print fits world' := by
  have m := matches_of_corresponds h.steady.sound.regular h.steady.corresponds h.steady.sound.proc
  have m' := matches_of_corresponds steady.sound.regular steady.corresponds steady.sound.proc
  -- the archives that are left were there
  have old : ∀ {d a : Bytes} {dir archive : Node},
      (rootNode world'.root).follow (.scope d) = some dir →
      dir.follow (.scope a) = some archive →
        (rootNode world.root).follow (.scope d) = some dir := by
    intro d a dir archive found below
    rcases leaves.dirs d dir found with same | ⟨_, empty⟩
    · exact same
    · rw [Node.follow, empty] at below
      cases below
  refine ⟨steady, worded, unbroken, ?_, ?_, ?_⟩
  · intro d dir found outside
    rcases leaves.dirs d dir found with same | ⟨value, _⟩
    · exact h.values d dir same outside
    · exact value
  · intro d a dir archive found below outside
    exact h.paths d a dir archive (old found below) below outside
  · intro d a archive there outside
    obtain ⟨dir, found, below⟩ := steps_of_archive there
    obtain ⟨D, record⟩ := h.recorded d a archive (archive_of_steps (old found below) below) outside
    refine ⟨D, record.other fun s own => ?_⟩
    obtain ⟨e, t, slots⟩ := inSlots_archive m outside (old found below) below
    obtain ⟨e', t', slots'⟩ := inSlots_archive m' outside found below
    obtain rfl := file_of_section slots.own own
    obtain rfl := file_of_section slots'.own own
    rw [leaves.slots _ slots.inside.1 slots'.inside.1]

end Records

section Directories
variable [DoubleText ν]
variable {print : Item ν → Bytes} {fits : Item ν → Prop} {world world' : World ν} {jrp : Jrp}

/-- The name of a new directory does not end in the sign that `ldr_create_dir` would not
repeat. -/
def NoSlash (jrp : Jrp) : Prop := ∀ segm ∈ jrp.segm, segm.name.getLast? ≠ some posixDirSymbol

theorem value_ldrCreateDir {ident : Nat} {name : Bytes} (roomy : Roomy name)
    (noSlash : name.getLast? ≠ some posixDirSymbol) :
    (ldrCreateDir ident name).info.scopeValue = (loadedDir 0 name).info.scopeValue := by
  have short : name.length < 128 := roomy.2
  change ofChars ['j', 'e', 's', 's', 'f', 's', '/'] ++ name ++ _ =
    (ofChars ['j', 'e', 's', 's', 'f', 's', '/'] ++ name ++ [posixDirSymbol]).take
      (maxValueSize - 1)
  rw [if_neg noSlash, List.take_of_length_le]
  simp [ofChars, maxValueSize]
  omega

theorem restorable_mkdir (h : Restorable print fits world) (received : Received jrp)
    (roomy : NamesRoomy jrp) (noSlash : NoSlash jrp)
    (done : step print world (.mkdir jrp) = some world') : Restorable print fits world' := by
  have steady := @steady_step _ _ _ _ _ (.mkdir jrp) h.steady received roomy done
  obtain ⟨answered, served, rfl⟩ := Option.map_eq_some_iff.mp done
  change proMkdir world jrp = some answered at served
  rw [proMkdir] at served
  split at served
  · obtain rfl := Option.some.inj served
    exact h
  · obtain ⟨result, call, rfl⟩ := Option.map_eq_some_iff.mp served
    obtain ⟨backed, roots⟩ := backed_rtCreateDir h.worded.backed steady.sound.regular call
    refine restorable_leaves h steady ⟨backed, ?_⟩ ?_ ?_
    · rw [Each, answerDir, roots]
      exact h.worded.each
    · rw [Each, answerDir, roots]
      exact h.unbroken
    · rw [rtCreateDir] at call
      split at call
      · rename_i segm one _
        obtain ⟨⟨fs, id⟩, taken, rfl⟩ := Option.map_eq_some_iff.mp call
        have archives : fs.archive = world.store.fs.archive := by
          rcases allocateDir_cases taken with ⟨rfl, _⟩ | ⟨_, _, _, _, _, rfl⟩ <;> rfl
        have mem : segm ∈ jrp.segm := by rw [one]; exact List.mem_cons_self ..
        have two : segm ∈ jrp.segm.take 2 := by rw [one]; exact List.mem_cons_self ..
        dsimp only [answerDir]
        split
        · exact ⟨fun d dir found => Or.inl found, fun s _ _ => by rw [archives]⟩
        · refine ⟨fun d dir found => ?_, fun s _ _ => by rw [archives]⟩
          have follows := @follow_insertScope _ (ldrCreateDir world.store.heap.nextAddr segm.name)
            h.steady.sound.regular.here.ordered (.scope d)
          rw [show (rootNode _).follow (.scope d) = _ from follows] at found
          split at found
          · cases old : (rootNode world.root).follow (.scope d) with
            | some c =>
              rw [old] at found
              exact Or.inl found
            | none =>
              rw [old] at found
              obtain rfl := Option.some.inj found
              exact Or.inr ⟨value_ldrCreateDir (roomy segm two) (noSlash segm mem), rfl⟩
          · exact Or.inl found
      · obtain rfl := Option.some.inj call
        exact ⟨fun d dir found => Or.inl found, slotsStay_of_eq rfl⟩

theorem restorable_rmdir (h : Restorable print fits world) (received : Received jrp)
    (roomy : NamesRoomy jrp) (done : step print world (.rmdir jrp) = some world') :
    Restorable print fits world' := by
  have steady := @steady_step _ _ _ _ _ (.rmdir jrp) h.steady received roomy done
  obtain ⟨answered, served, rfl⟩ := Option.map_eq_some_iff.mp done
  change proRmdir world jrp = some answered at served
  rw [proRmdir] at served
  split at served
  · obtain rfl := Option.some.inj served
    exact h
  · obtain ⟨result, call, rfl⟩ := Option.map_eq_some_iff.mp served
    have regular := h.steady.sound.regular
    refine restorable_leaves h steady ⟨backed_rtRemoveDir h.worded.backed call,
      each_rtRemoveDir regular h.worded.each call⟩ (each_rtRemoveDir regular h.unbroken call) ?_
    have removed := rtRemoveDir_cases regular call
    dsimp only [answerDir]
    generalize result.1 = after at removed
    cases removed with
    | refused => exact ⟨fun d dir found => Or.inl found, slotsStay_of_eq rfl⟩
    | cleared loop =>
      obtain ⟨empty, _⟩ := @removeDirs_keeps _ _ (fun _ => True) (fun _ _ _ => trivial) _ _ regular
        trivial loop
      refine ⟨fun d dir found => ?_, fun s _ active => ?_⟩
      · rw [empty] at found
        cases found
      · cases active
    | @removed key dir after tree found call =>
      have level := (regular.follow found).here.stands
      obtain ⟨_, whole, store, last, freed, slots⟩ := rtDeleteDir_spec stepwise_fs level call
      refine ⟨fun d dir' found' => ?_, fun s _ active => ?_⟩
      · rw [whole, follow_removeScope regular.here.ordered] at found'
        split at found'
        · cases found'
        · exact Or.inl found'
      · have left : after.store.fs = fsDeleteDir world.store.fs dir.info.scopeName := by
          rw [freed, Store.free, slots]
        rw [left] at active ⊢
        rcases deleteDir_cases h.steady.sound.tables.filed dir.info.scopeName with
          ⟨_, same⟩ | ⟨e, _, _, gone⟩
        · rw [same]
        · rw [gone] at active ⊢
          exact if_neg fun mine => (fileActive_withoutDir.mp active).2 mine.2

end Directories

section Writes
variable [DoubleText ν]
variable {print : Item ν → Bytes} {fits : Item ν → Prop} {world mid world' : World ν} {jrp : Jrp}
variable {d a : Bytes}

/-- What the frame of an update keeps, and a record of the one archive that it changes. -/
theorem restorable_frame (h : Restorable print fits world) (frame : Frame world mid d a)
    (matching : Matches (listing mid.root) mid.store.fs)
    (tree : rootNode world'.root = rootNode mid.root)
    (rest : ∀ d' a' archive, ¬ (d' = d ∧ a' = a) → d' ≠ fold procName →
      (rootNode mid.root).getAt (archiveAt d' a') = some archive → ∀ s : Fin fsMaxArch,
        archive.info.fsSection = s →
          (world'.store.fs.archive s).data = (mid.store.fs.archive s).data)
    (own : ∀ archive, (rootNode mid.root).getAt (archiveAt d a) = some archive →
      d ≠ fold procName → ∃ D, Recorded print fits world'.store.fs archive D)
    (steady : Steady world') (worded : Worded world')
    (unbroken : Each Unbroken world'.store.heap) : Restorable print fits world' := by
  have m := matches_of_corresponds h.steady.sound.regular h.steady.corresponds h.steady.sound.proc
  have dirs : ∀ {d' : Bytes} {dir : Node}, (rootNode mid.root).follow (.scope d') = some dir →
      ∃ dir₀, (rootNode world.root).follow (.scope d') = some dir₀ ∧ dir₀.info = dir.info := by
    intro d' dir found
    have same := frame.dirs d'
    rw [found] at same
    exact Option.map_eq_some_iff.mp same.symm
  refine ⟨steady, worded, unbroken, ?_, ?_, ?_⟩
  · rw [tree]
    intro d' dir found outside
    obtain ⟨dir₀, found₀, same⟩ := dirs found
    rw [← same]
    exact h.values d' dir₀ found₀ outside
  · rw [tree]
    intro d' a' dir archive found below outside
    obtain ⟨dir₀, found₀, same⟩ := dirs found
    rw [← same]
    -- an archive of the tree before
    have before : ∀ archive₀, (rootNode world.root).getAt (archiveAt d' a') = some archive₀ →
        PathFits dir₀.info archive₀.info := by
      intro archive₀ there
      obtain ⟨dir₁, found₁, below₁⟩ := steps_of_archive there
      obtain rfl := Option.some.inj (found₀.symm.trans found₁)
      exact h.paths d' a' dir₀ archive₀ found₀ below₁ outside
    have there := archive_of_steps found below
    by_cases here : d' = d ∧ a' = a
    · obtain ⟨rfl, rfl⟩ := here
      rcases frame.own archive there with ⟨old, there₀, info⟩ | ⟨dir₁, found₁, path⟩
      · rw [← info]
        exact before old there₀
      · obtain rfl := Option.some.inj (found₀.symm.trans found₁)
        exact path
    · rw [frame.others d' a' here] at there
      exact before archive there
  · rw [tree]
    intro d' a' archive there outside
    by_cases here : d' = d ∧ a' = a
    · obtain ⟨rfl, rfl⟩ := here
      exact own archive there outside
    · have there₀ := there
      rw [frame.others d' a' here] at there₀
      obtain ⟨D, record⟩ := h.recorded d' a' archive there₀ outside
      refine ⟨D, record.other fun s same => ?_⟩
      obtain ⟨_, found, below⟩ := steps_of_archive there
      obtain ⟨_, found₀, below₀⟩ := steps_of_archive there₀
      obtain ⟨_, t, slots⟩ := inSlots_archive matching outside found below
      obtain ⟨_, t₀, slots₀⟩ := inSlots_archive m outside found₀ below₀
      obtain rfl := file_of_section slots.own same
      obtain rfl := file_of_section slots₀.own same
      rw [rest d' a' archive here outside there _ same,
        frame.slots _ slots₀.inside.1 slots.inside.1]

/-- An archive that a request deletes is not handed back. -/
theorem archive_deleted {u : Updated ν} (h : Regular 0 (rootNode world.root))
    (key : jrp.segm = [⟨d, -1, .dir⟩, ⟨a, -1, .archive⟩]) (done : rtConfigUpdate world jrp = some u)
    (ok : 0 ≤ u.retval) : u.archive = none := by
  have refused : ∀ archive, some (⟨world, -1, archive⟩ : Updated ν) = some u →
      u.archive = none := by
    rintro archive ⟨⟩
    cases ok
  rw [rtConfigUpdate] at done
  cases value : jrp.valuestring with
  | none =>
    rw [value] at done
    exact refused _ done
  | some v =>
    simp only [value, key] at done
    split at done
    · exact refused _ done
    rw [rtReachLastMatchScope, rtReachLoop] at done
    have top : searchScope world.root d = (rootNode world.root).follow (.scope (fold d)) := rfl
    rw [top] at done
    cases found : (rootNode world.root).follow (.scope (fold d)) with
    | none =>
      simp only [found] at done
      exact refused _ done
    | some dir =>
      have level : dir.info.jsl = .dir := (h.follow found).here.stands
      have there : (rootNode world.root).getAt [.scope (fold d)] = some dir := by
        rw [Catalog.getAt_one, found]
      simp only [found, level, rtReachLoop, searchScope_eq_follow] at done
      cases found' : dir.follow (.scope (fold a)) with
      | none =>
        simp [found', updateMissing, there, level, key] at done
        exact refused _ (congrArg some done)
      | some archive =>
        have level' : archive.info.jsl = .archive := ((h.follow found).follow found').here.stands
        have there' : (rootNode world.root).getAt (archiveAt (fold d) (fold a)) = some archive :=
          archive_of_steps found found'
        simp [found', level', updateFound, there, there'] at done
        split at done
        · obtain ⟨deleted, _, rfl⟩ := Option.map_eq_some_iff.mp done
          rfl
        · exact refused _ done

/-- The request is a C string. -/
def Terminated (jrp : Jrp) : Prop :=
  (∀ segm ∈ jrp.segm, 0 ∉ segm.name) ∧ ∀ v, jrp.valuestring = some v → 0 ∉ v

theorem zero_mem_fold {name : Bytes} : 0 ∈ fold name ↔ 0 ∈ name := by
  have only : ∀ c : UInt8, tolower c = 0 ↔ c = 0 := by
    intro c
    rw [tolower]
    split
    · rename_i upper
      have low := UInt8.le_iff_toNat_le.mp upper.1
      have high := UInt8.le_iff_toNat_le.mp upper.2
      rw [← UInt8.toNat_inj, ← UInt8.toNat_inj, UInt8.toNat_add]
      simp only [UInt8.reduceToNat] at low high ⊢
      omega
    · exact Iff.rfl
  simp [fold, only]

/-- An update writes nothing that is not in the request. -/
theorem unbroken_update {u : Updated ν} (h : Worded world)
    (unbroken : Each Unbroken world.store.heap)
    (received : Received jrp) (terminated : Terminated jrp)
    (done : rtConfigUpdate world jrp = some u) : Each Unbroken u.world.store.heap := by
  cases value : jrp.valuestring with
  | none =>
    rw [rtConfigUpdate, value] at done
    obtain rfl := Option.some.inj done
    exact unbroken
  | some v =>
    have noZero := terminated.2 v value
    have named : ∀ {a : Addr} {kind : Kind ν}, ∀ segm ∈ jrp.segm,
        (∀ text, kind = .cjsonString text → 0 ∉ text) → Unbroken a (some segm.name) kind := by
      intro a kind segm mem text
      refine ⟨fun name same => ?_, text⟩
      obtain rfl := Option.some.inj same
      exact terminated.1 segm mem
    have string : ∀ text, (Kind.cjsonString v : Kind ν) = .cjsonString text → 0 ∉ text := by
      rintro text ⟨⟩
      exact noZero
    have object : ∀ text, (Kind.cjsonObject : Kind ν) = .cjsonString text → 0 ∉ text := by simp
    have array : ∀ text, (Kind.cjsonArray : Kind ν) = .cjsonString text → 0 ∉ text := by simp
    have noName : ∀ name : Bytes, none = some name → 0 ∉ name := by simp
    refine each_rtConfigUpdate h.backed unbroken received.accepted value (fun _ => ⟨?_, ?_, ?_, ?_⟩)
      ?_ done
    · exact fun a _ => ⟨⟨noName, object⟩, ⟨noName, array⟩, ⟨noName, string⟩⟩
    · exact fun a _ segm mem _ => named segm mem string
    · exact fun a _ segm mem _ => named segm mem object
    · exact fun a _ segm mem _ => named segm mem array
    · rintro _ x mem string' kind same new
      obtain ⟨names, _⟩ := unbroken x mem
      refine ⟨fun name hname zero => ?_, ?_⟩
      · rw [hname] at same
        obtain ⟨name', hname', same'⟩ := Option.map_eq_some_iff.mp same.symm
        exact names name' hname' (zero_mem_fold.mp (same' ▸ zero_mem_fold.mpr zero))
      · generalize x.kind = old at new
        cases new with
        | string => exact string
        | number => simp

variable (print) (fits) in
/-- What is asked of a write: nothing is made before it is refused, and the text of the
document that it leaves in its archive fits. -/
structure Lands (world : World ν) (jrp : Jrp) : Prop where
  whole : AllOrNothing.Whole world jrp
  fits : ∀ d a D after, (jrp.segm.map Segment.name).take 2 = [d, a] → fold d ≠ fold procName →
    proVariableWrite print world jrp = some after → after.ok = true →
    documentAt after.world d a = some D → fits D

/-- The archive of a key that was changed is in its slot. -/
theorem recorded_saved {u : Updated ν} {archive : Node} (worded : Worded u.world)
    (unbroken : Each Unbroken u.world.store.heap) (within : Within u.world.store.fs)
    (matching : Matches (listing u.world.root) u.world.store.fs) (outside : fold d ≠ fold procName)
    (place : u.archive = some (fileAt d a))
    (there : (rootNode u.world.root).getAt (fileAt d a) = some archive)
    (room : ∀ D, fits D → (print D).length ≤ fsMaxFileSize)
    (lands : ∀ D, documentAt u.world d a = some D → fits D) :
    ∃ D, Recorded print fits (saveArchive print u.world u.archive).world.store.fs archive D := by
  have level : archive.info.jsl = .archive := (regular_at worded.backed.regular there).here.stands
  obtain ⟨D, filed, document⟩ := Reload.document_of_filed worded.backed there
  have shows : archive.info.jsl = itemJsl D ∨
      (archive.info.jsl = .archive ∧ D.kind = .cjsonObject) := Or.inr ⟨level, filed.object⟩
  have document' : documentAt u.world d a = some D := document
  have fit := lands D document'
  have inHeap : ∀ x ∈ D.items, x ∈ u.world.store.heap.roots.flatMap items :=
    fun x inside => List.mem_flatMap.mpr ⟨D, filed.root, inside⟩
  have words : ∀ x ∈ D.items, Wordy x.addr x.string x.kind :=
    fun x inside => worded.each x (inHeap x inside)
  refine ⟨D, ⟨filed.object, filed.unnamed, Reload.producible_of_over filed.overlay trivial shows,
    fun x inside => ⟨words x inside, unbroken x (inHeap x inside)⟩,
    Reload.whole_of_over filed.overlay trivial shows, fit⟩, ?_, ?_⟩
  · refine Reload.mirrors_of_over filed.overlay trivial shows
      (fun x inside => taken_of_wordy (words x inside)) fun x inside r number => ?_
    have type := (words x inside).1
    rw [number] at type
    simp at type
  · obtain ⟨s, active, own⟩ := slot_of_archive matching outside there
    have text : documentText print u.world.store archive = some (print D) := by
      have pointed := document'
      rw [documentAt, there, Option.bind_some] at pointed
      rw [documentText, pointed]
      rfl
    refine ⟨s, own, ?_⟩
    rw [saveArchive, place, Option.bind_some, there]
    dsimp only
    rw [text, own]
    exact (overrideFile_iff within active (print D)).mpr (room D fit)

theorem restorable_write (h : Restorable print fits world) (received : Received jrp)
    (roomy : NamesRoomy jrp) (accepts : Accepts jrp) (terminated : Terminated jrp)
    (room : ∀ D, fits D → (print D).length ≤ fsMaxFileSize) (lands : Lands print fits world jrp)
    (done : step print world (.write jrp) = some world') : Restorable print fits world' := by
  have steady := @steady_step _ _ _ _ _ (.write jrp) h.steady received roomy done
  obtain ⟨answered, served, rfl⟩ := Option.map_eq_some_iff.mp done
  change proVariableWrite print world jrp = some answered at served
  have written := served
  rw [proVariableWrite] at served
  split at served
  · obtain rfl := Option.some.inj served
    exact h
  obtain ⟨u, updated, rfl⟩ := Option.map_eq_some_iff.mp served
  have sound := h.steady.sound
  have m := matches_of_corresponds sound.regular h.steady.corresponds sound.proc
  by_cases failed : u.retval < 0
  · have clean := (AllOrNothing.failsCleanly_iff sound.regular sound.tables.fileEmpty received).mpr
      lands.whole u updated failed
    rw [if_pos failed] at steady ⊢
    exact restorable_congr h steady (by rw [clean.root]) clean.heap clean.fs
  have ok := Int.not_lt.mp failed
  have worded := worded_update h.worded received accepts updated
  have unbroken := unbroken_update h.worded h.unbroken received terminated updated
  have regular' := regular_update sound.regular received.accepted updated
  have effect := effect_update sound.regular received.accepted received.noDot roomy updated
  obtain ⟨tables', m'⟩ := matches_effect sound.tables (named_listing _) m effect
  have within' := within_effect sound.tables h.steady.within effect
  rw [if_neg failed] at steady written ⊢
  by_cases zero : u.retval = 0
  swap
  · obtain ⟨tree, store⟩ := settled sound.regular received.accepted updated ok zero
    rw [if_neg fun both => zero both.1] at steady ⊢
    exact restorable_congr h steady tree (by rw [store]) (by rw [store])
  -- the archive that is changed
  obtain ⟨d, a, rest, key, handed⟩ : ∃ d a rest,
      jrp.segm = ⟨d, -1, .dir⟩ :: ⟨a, -1, .archive⟩ :: rest ∧
      ∀ place, u.archive = some place → place = fileAt d a := by
    have accepted := received.accepted
    have noDot := received.noDot
    generalize shape : jrp.segm = segms at accepted noDot
    cases accepted with
    | dir fits =>
      cases value : jrp.valuestring with
      | none =>
        rw [rtConfigUpdate, value] at updated
        obtain rfl := Option.some.inj updated
        cases ok
      | some v =>
        exact absurd (dir_refused sound.regular shape received.accepted value updated).1 failed
    | archive fits fits' =>
      refine ⟨_, _, _, rfl, fun place same => ?_⟩
      rw [archive_deleted sound.regular shape updated ok] at same
      cases same
    | below fits fits' below =>
      refine ⟨_, _, _, rfl, fun place same => ?_⟩
      have plain := noDot _ (List.mem_cons_of_mem _ (List.mem_cons_self ..))
      rw [archive_update sound.regular shape below.ne_nil (noArchive_below below) plain updated
        ok] at same
      exact (Option.some.inj same).symm
  have names : (jrp.segm.map Segment.name).take 2 = [d, a] := by rw [key]; rfl
  have frame := frame_update sound.regular sound.tables received roomy key updated
  have proc : inProc jrp = true ↔ fold d = fold procName := by
    rw [inProc, key, List.head?_cons, Option.any_some, decide_eq_true_eq, strcasecmp_eq_iff,
      eq_comm]
  by_cases outside : fold d = fold procName
  · rw [if_neg fun both => both.2 (proc.mpr outside)] at steady ⊢
    exact restorable_frame h frame m' rfl (fun _ _ _ _ _ _ _ _ => rfl)
      (fun _ _ other => absurd outside other) steady worded unbroken
  · rw [if_pos ⟨zero, fun isProc => outside (proc.mp isProc)⟩] at steady written ⊢
    have kept : ∀ {archive : Option Path},
        (saveArchive print u.world archive).world.root = u.world.root ∧
        (saveArchive print u.world archive).world.store.heap = u.world.store.heap := by
      intro archive
      rw [saveArchive]
      split <;> exact ⟨rfl, rfl⟩
    have saved := fun D (document : documentAt u.world d a = some D) =>
      lands.fits d a D _ names outside written
        (by rw [saveArchive]; split <;> rfl) ((documentAt_saveArchive ..).trans document)
    refine restorable_frame h frame m' (by rw [kept.1]) ?_ ?_ steady ⟨?_, ?_⟩ ?_
    · intro d' a' archive other outside' there s own
      rw [saveArchive]
      split
      · rfl
      · rename_i file target
        obtain ⟨place, own', there'⟩ := Option.bind_eq_some_iff.mp target
        rw [handed place own'] at there'
        obtain ⟨_, found, below⟩ := steps_of_archive there'
        obtain ⟨_, t, slots⟩ := inSlots_archive m' outside found below
        dsimp only
        rw [slots.own, overrideFile_other]
        rintro rfl
        exact other (slot_apart m' tables'.filed outside outside' there' there
          (slots.own.trans own.symm))
    · intro archive there _
      exact recorded_saved worded unbroken within' m' outside
        (archive_of_names sound.regular received names updated ok there) there room saved
    · obtain ⟨regular, separate, filed, apart⟩ := worded.backed
      refine ⟨?_, ?_, ?_, ?_⟩
      · rwa [kept.1]
      · rwa [kept.2]
      · rwa [kept.1, kept.2]
      · rwa [kept.1]
    · rw [kept.2]
      exact worded.each
    · rw [kept.2]
      exact unbroken

/-- What is asked of a request, besides that it can be received. -/
structure Asked (order : Order) : Prop where
  received : Received order.jrp
  roomy : NamesRoomy order.jrp
  noSlash : ∀ jrp, order = .mkdir jrp → NoSlash jrp
  words : ∀ jrp, order = .write jrp → Accepts jrp ∧ Terminated jrp

theorem restorable_step {order : Order} (h : Restorable print fits world) (asked : Asked order)
    (room : ∀ D, fits D → (print D).length ≤ fsMaxFileSize)
    (lands : ∀ jrp, order = .write jrp → Lands print fits world jrp)
    (done : step print world order = some world') : Restorable print fits world' := by
  obtain ⟨received, roomy, noSlash, words⟩ := asked
  cases order with
  | mkdir jrp => exact restorable_mkdir h received roomy (noSlash jrp rfl) done
  | rmdir jrp => exact restorable_rmdir h received roomy done
  | write jrp =>
    obtain ⟨accepts, terminated⟩ := words jrp rfl
    exact restorable_write h received roomy accepts terminated room (lands jrp rfl) done

end Writes

end SavedTexts
