import Cfgd.AnsweredAlike
import Cfgd.JsonRoundTrip
import Cfgd.SavedTexts
import Cfgd.SlotLoading

/-!
# A server that is started again

What the slots hold after a run of requests is printed, and at the next start it is parsed
and loaded. The tree that is loaded then answers every key outside of `proc` as the tree
did that clients were reading.
-/

namespace StartUp

open AvlTree CText CJson Item Request ConfigNode Loader FsImage SlotTables LoadSlots Runtime DocTree
open PlainDoc DeleteRange Backing DocumentItems
open RegularTree Orders Catalog Correspondence Saving SideBySide SearchSound SlotLoading Coherence
open JsonText JsonAccepted JsonRoundTrip SavedTexts AnsweredAlike SyncProtocol Transition

variable {ν : Type}

section Texts

theorem bare_numbered (x : Item ν) (a : Nat) : (numbered a x).1.bare = x.bare := by
  induction x using Item.induct generalizing a with
  | step j ih =>
    obtain ⟨addr, string, kind, child⟩ := j
    have each : ∀ (l : List (Item ν)) (a : Nat), (∀ c ∈ l, ∀ a, (numbered a c).1.bare = c.bare) →
        (numberedList a l).1.map bare = l.map bare := by
      intro l
      induction l with
      | nil => intro _ _; rfl
      | cons c rest ih =>
        intro a all
        obtain ⟨here, later⟩ := List.forall_mem_cons.mp all
        rw [numberedList, List.map_cons, List.map_cons, here, ih _ later]
    rw [numbered, bare_eq, bare_eq]
    simp only [string_mk, kind_mk, child_mk]
    rw [each child (a + 1) ih]

variable [NumberFormat ν]

/-- `cJSON_Parse` on the text of a slot, which has the terminator behind it. -/
def parseSlot (text : Bytes) : Option (Item ν) :=
  match (cjsonParse 0 (text ++ [0]) : Reading (Item ν × Addr)) with
  | .done (item, _) => some item
  | _ => none

/-- The text of the document leaves room for its terminator in the slot, and it has no more
levels than the parser takes. -/
def Rereadable (D : Item ν) : Prop :=
  (printed D).length < fsMaxFileSize ∧ nesting D ≤ cjsonNestingLimit

instance (D : Item ν) : Decidable (Rereadable D) := inferInstanceAs (Decidable (_ ∧ _))

variable {fs : FsLayout} {archive : Node} {D : Item ν}

theorem printable_of_stored (h : Stored Rereadable D) : Printable D where
  made := h.shape
  clean x inside := (h.words x inside).2
  finite x inside n number := by
    have type := (h.words x inside).1.1
    rw [number] at type
    simp at type

variable [DoubleText ν]

/-- What is read from the slot is the document, at other addresses. -/
theorem document_of_recorded (laws : NumberLaws ν) (h : Recorded printed Rereadable fs archive D)
    {s : Fin fsMaxArch} (own : archive.info.fsSection = s) :
    SlotLoading.documentOf parseSlot (fs.archive s).data = (numbered 0 D).1 := by
  obtain ⟨t, own', data⟩ := h.slot
  obtain rfl := file_of_section own own'
  have printable := printable_of_stored h.toStored
  have clean := printed_clean laws D printable
  have whole : (printed D).takeWhile (· ≠ 0) = printed D := by
    rw [List.takeWhile_eq_self_iff]
    intro c mem
    exact decide_eq_true fun zero => clean (zero ▸ mem)
  have parsed := cjsonParse_printed laws printable h.unnamed 0 []
  rw [if_pos h.fits.2] at parsed
  rw [SlotLoading.documentOf, data, whole, parseSlot, parsed]
  rfl

end Texts

section Slots
variable (parse : Bytes → Option (Item ν)) {root : Avl Node} {fs : FsLayout} {key : Bytes}
variable {loaded : List (Fin fsMaxDir × List (Fin fsMaxArch))} {dir archive : Node}

theorem dirOf_none (other : ∀ d ∈ loaded, fold (fs.dir d.1).name ≠ key) :
    dirOf (loaded.map (imageOf parse fs)) key = none := by
  rw [dirOf, List.find?_eq_none]
  intro image mem
  obtain ⟨d, inside, rfl⟩ := List.mem_map.mp mem
  rw [decide_eq_true_eq]
  exact other d inside

/-- A directory that the tree does not have is not loaded. -/
theorem dirOf_missing (m : Matches (listing root) fs) (all : LoadsAll fs loaded)
    (missing : (rootNode root).follow (.scope key) = none) :
    dirOf (loaded.map (imageOf parse fs)) key = none := by
  refine dirOf_none parse fun d inside named => ?_
  obtain ⟨_, i, entry, _⟩ := m.slots d.1 ((all.dirs d.1).mp (List.mem_map_of_mem inside))
  obtain ⟨n, there, _⟩ := Option.map_eq_some_iff.mp entry
  rw [getAt_one, named, missing] at there
  cases there

/-- A directory of the tree is loaded from its slot. -/
theorem dirOf_some (m : Matches (listing root) fs) (filed : SlotTables.Filed fs)
    (all : LoadsAll fs loaded) (outside : key ≠ fold procName)
    (found : (rootNode root).follow (.scope key) = some dir) :
    ∃ e files, DirActive fs e ∧ (fs.dir e).name = dir.info.scopeName ∧ (e, files) ∈ loaded ∧
      dirOf (loaded.map (imageOf parse fs)) key = some (imageOf parse fs (e, files)) := by
  obtain ⟨named, entry⟩ := listing_dir found
  rw [← named] at entry
  obtain ⟨e, active, same⟩ := m.dirs _ _ entry outside
  obtain ⟨⟨e', files⟩, inside, rfl⟩ := List.mem_map.mp ((all.dirs e).mpr active)
  have right : fold (imageOf parse fs (e', files)).name = key := by
    rw [named, ← same]
    rfl
  have there : (dirOf (loaded.map (imageOf parse fs)) key).isSome := by
    rw [dirOf, List.find?_isSome]
    exact ⟨_, List.mem_map_of_mem inside, decide_eq_true right⟩
  obtain ⟨image, chosen⟩ := Option.isSome_iff_exists.mp there
  obtain ⟨⟨d, others⟩, inside', rfl⟩ := List.mem_map.mp (List.mem_of_find?_eq_some chosen)
  have active' := (all.dirs d).mp (List.mem_map_of_mem inside')
  have picked := List.find?_some chosen
  have right' : fold (fs.dir d).name = key := of_decide_eq_true picked
  obtain rfl := filed.dirNames d e' active' active (right'.trans right.symm)
  exact ⟨d, others, active, same, inside', chosen⟩

variable {e : Fin fsMaxDir} {files : List (Fin fsMaxArch)}

theorem archiveOf_none
    (other : ∀ s ∈ files, fold (archiveScopeName (fs.archive s).readName) ≠ key) :
    archiveOf (imageOf parse fs (e, files)) key = none := by
  rw [archiveOf, List.find?_eq_none]
  intro image mem
  obtain ⟨s, mine, rfl⟩ := List.mem_map.mp mem
  rw [decide_eq_true_eq]
  exact fun both => other s mine both.2

/-- An archive that the directory does not have is not loaded. -/
theorem archiveOf_missing (m : Matches (listing root) fs) (tables : Tables fs)
    (all : LoadsAll fs loaded) (active : DirActive fs e) (inside : (e, files) ∈ loaded)
    {d : Bytes} (name : fold (fs.dir e).name = d)
    (found : (rootNode root).follow (.scope d) = some dir)
    (missing : dir.follow (.scope key) = none) :
    archiveOf (imageOf parse fs (e, files)) key = none := by
  refine archiveOf_none parse fun s mine named => ?_
  have inDir := (all.files e files inside s).mp mine
  obtain ⟨i, entry, _⟩ := m.files e active s inDir
  rw [name, listing_archive found] at entry
  obtain ⟨n, there, _⟩ := Option.map_eq_some_iff.mp entry
  rw [readName_fits (tables.fileFits s inDir.1)] at named
  rw [named, missing] at there
  cases there

/-- An archive of the tree is loaded from its slot. -/
theorem archiveOf_some (m : Matches (listing root) fs) (tables : Tables fs)
    (all : LoadsAll fs loaded) (active : DirActive fs e) (inside : (e, files) ∈ loaded)
    {d : Bytes} (name : fold (fs.dir e).name = d)
    (found : (rootNode root).follow (.scope d) = some dir)
    (below : dir.follow (.scope key) = some archive)
    (fits : PathFits (loadedDir 0 (fs.dir e).name).info archive.info) :
    ∃ s : Fin fsMaxArch, archive.info.fsSection = s ∧
      archive.info.scopeName = archiveScopeName (fs.archive s).readName ∧
      archiveOf (imageOf parse fs (e, files)) key =
        some ⟨(fs.archive s).readName, (fs.archive s).fsSection,
          SlotLoading.documentOf parse (fs.archive s).data⟩ := by
  have entry := listing_archive found key
  rw [below, ← name] at entry
  obtain ⟨s, mine, own, named⟩ := m.archives e active _ _ entry
  have readable : ∀ {t}, FileActive fs t → (fs.archive t).readName = (fs.archive t).name :=
    fun active => readName_fits (tables.fileFits _ active)
  have key' : fold archive.info.scopeName = key := key_of_avlsearch Node.scopeKey below
  have there : (archiveOf (imageOf parse fs (e, files)) key).isSome := by
    rw [archiveOf, List.find?_isSome]
    refine ⟨_, List.mem_map_of_mem ((all.files e files inside s).mpr mine), decide_eq_true ⟨?_, ?_⟩⟩
    · rw [archiveFits, decide_eq_true_eq, readable mine.1, ← named]
      obtain ⟨path, short⟩ := fits
      rw [path] at short
      exact short
    · rw [readable mine.1, ← named, key']
  obtain ⟨image, chosen⟩ := Option.isSome_iff_exists.mp there
  obtain ⟨t, mine', rfl⟩ := List.mem_map.mp (List.mem_of_find?_eq_some chosen)
  have inDir := (all.files e files inside t).mp mine'
  have picked := List.find?_some chosen
  obtain ⟨_, right⟩ := of_decide_eq_true picked
  obtain ⟨i, entry', own', named'⟩ := m.files e active t inDir
  rw [readable inDir.1] at right
  rw [right, entry] at entry'
  obtain rfl := Option.some.inj entry'
  obtain rfl := file_of_section own own'
  exact ⟨s, own, by rw [readable mine.1, named], chosen⟩

variable [DoubleText ν]

/-- What the node of a loaded archive shows, and what is below it. -/
theorem archiveImageNode_shown {dir : Node} {image : ArchiveImage ν} (level : dir.info.jsl = .dir)
    (short : (dir.info.scopeValue ++ archiveScopeName image.name ++ jsonExtension).length <
      maxValueSize) (shape : Producible image.document) (unnamed : image.document.string = none) :
    ∃ node, archiveImageNode dir image = some node ∧ node.info.jsl = .archive ∧
      node.info.scopeValue = dir.info.scopeValue ++ archiveScopeName image.name ++ jsonExtension ∧
      Holds node.nextScope (topMembers image.document) := by
  have accepted : ¬ (dir.info.jsl ≠ .dir ∨ maxValueSize ≤
      (dir.info.scopeValue ++ archiveScopeName image.name ++ jsonExtension).length) := by
    rintro (other | long)
    · exact other level
    · omega
  simp only [archiveImageNode, archiveNode]
  rw [if_neg accepted]
  refine ⟨_, rfl, ?_, ?_, holds_ldrLoadArchive shape unnamed rfl⟩
  · exact congrArg NodeInfo.jsl (kept_ldrNextMisc [image.document] none _).1
  · exact congrArg NodeInfo.scopeValue (kept_ldrNextMisc [image.document] none _).1

end Slots

section State
variable [DoubleText ν]
variable {world : World ν}

/-- `fs_update_seq` finds nothing to number anew. -/
theorem updateSeq_filed {fs : FsLayout} (filed : SlotTables.Filed fs) :
    LayoutImage.updateSeq fs = fs := by
  change (UpdateSeq.fsUpdateSeq fs).getD fs = fs
  rw [UpdateSeq.fsUpdateSeq_same filed.dirs]
  rfl

/-- A key that asks for a directory or for an archive. -/
def pathRequest (names : List Bytes) : Jrp := ⟨names.map fun name => ⟨name, -1, .dir⟩, none, [], []⟩

/-- What is in the last slot of a table is not loaded, so the tree lacks it. -/
theorem free_of_rebuilds {parse : Bytes → Option (Item ν)} (steady : Steady world)
    (rebuilds : Rebuilds parse world.store.fs world.root) :
    ¬ DirActive world.store.fs lastDir ∧ ¬ FileActive world.store.fs lastFile := by
  obtain ⟨⟨regular, tables, proc⟩, corresponds, _⟩ := steady
  have m := matches_of_corresponds regular corresponds proc
  obtain ⟨loaded, done, _, dirs, files⟩ := loadDir_spec
    (fun d active => (tables.dirFits d active).1) fun s active => (tables.fileFits s active).1
  rw [Rebuilds, updateSeq_filed tables.filed, ldrLoadFilesystem, done, Option.getD_some] at rebuilds
  have answered : ∀ names : List Bytes, (∀ name ∈ names.head?, fold name ≠ fold procName) →
      rtSearchLoop 0 (loadedRoot (loaded.map (imageOf parse world.store.fs))) []
        (pathRequest names).segm = rtSearchLoop 0 world.root [] (pathRequest names).segm := by
    intro names outside
    refine rebuilds (pathRequest names) fun segm first => ?_
    cases names with
    | nil => cases first
    | cons name rest =>
      obtain rfl := Option.some.inj first
      exact outside name rfl
  -- the directory in an active slot, as the tree shows it
  have dirAt : ∀ d, DirActive world.store.fs d → fold (world.store.fs.dir d).name ≠ fold procName ∧
      ∃ dir, searchScope world.root (world.store.fs.dir d).name = some dir ∧ dir.info.jsl = .dir ∧
        (rootNode world.root).follow (.scope (fold (world.store.fs.dir d).name)) = some dir := by
    intro d active
    obtain ⟨outside, i, entry, _⟩ := m.slots d active
    obtain ⟨dir, there, _⟩ := Option.map_eq_some_iff.mp entry
    rw [getAt_one] at there
    exact ⟨outside, dir, there, (regular.follow there).here.stands, there⟩
  constructor
  · intro active
    obtain ⟨outside, dir, search, level, _⟩ := dirAt lastDir active
    have same := answered [(world.store.fs.dir lastDir).name] (by rintro _ ⟨⟩; exact outside)
    have missing : dirOf (loaded.map (imageOf parse world.store.fs))
        (fold (world.store.fs.dir lastDir).name) = none := by
      refine dirOf_none parse fun d inside named => ?_
      obtain ⟨below, active'⟩ := (dirs d.1).mp (List.mem_map_of_mem inside)
      rw [tables.filed.dirNames d.1 lastDir active' active named] at below
      exact absurd below (by decide)
    rw [pathRequest, List.map_cons, rtSearchLoop_dir, missing, rtSearchLoop, search] at same
    simp [level] at same
  · intro active
    obtain ⟨_, ⟨d, activeDir, owner⟩, _⟩ := tables.filed.files lastFile active
    obtain ⟨outside, dir, search, level, found⟩ := dirAt d activeDir
    obtain ⟨i, entry, own, _⟩ := m.files d activeDir lastFile ⟨active, owner⟩
    rw [listing_archive found] at entry
    obtain ⟨archive, below, rfl⟩ := Option.map_eq_some_iff.mp entry
    have level' : archive.info.jsl = .archive := ((regular.follow found).follow below).here.stands
    have same := answered [(world.store.fs.dir d).name,
      archiveScopeName (world.store.fs.archive lastFile).name] (by rintro _ ⟨⟩; exact outside)
    have missing : ∀ files', (d, files') ∈ loaded →
        archiveOf (imageOf parse world.store.fs (d, files'))
        (fold (archiveScopeName (world.store.fs.archive lastFile).name)) = none := by
      intro files' inside
      refine archiveOf_none parse fun s mine named => ?_
      obtain ⟨early, inDir⟩ := ((files d files' inside).2 s).mp mine
      obtain ⟨i', entry', own', _⟩ := m.files d activeDir s inDir
      rw [readName_fits (tables.fileFits s inDir.1)] at named
      rw [named, listing_archive found, below] at entry'
      obtain rfl := Option.some.inj entry'
      rw [file_of_section own' own] at early
      exact absurd early (by decide)
    have live : (rtSearchLoop 0 world.root [] (pathRequest [(world.store.fs.dir d).name,
        archiveScopeName (world.store.fs.archive lastFile).name]).segm).1 = 0 := by
      simp [pathRequest, rtSearchLoop, search, level, searchScope_eq_follow, below, level']
    rw [← same, pathRequest, List.map_cons, rtSearchLoop_dir] at live
    cases chosen : dirOf (loaded.map (imageOf parse world.store.fs))
        (fold (world.store.fs.dir d).name) with
    | none => simp [chosen] at live
    | some image =>
      obtain ⟨⟨e, files'⟩, inside, rfl⟩ := List.mem_map.mp (List.mem_of_find?_eq_some chosen)
      have picked := List.find?_some chosen
      have named : fold (world.store.fs.dir e).name = fold (world.store.fs.dir d).name :=
        of_decide_eq_true picked
      have activeE := ((dirs e).mp (List.mem_map_of_mem inside)).2
      obtain rfl := tables.filed.dirNames e d activeE activeDir named
      rw [chosen] at live
      simp [rtSearchLoop, search_archive, missing files' inside] at live

variable [NumberFormat ν]

/-- The tree that is loaded from the slots answers as the tree does. -/
theorem rebuilds_of_restorable (laws : NumberLaws ν) (h : Restorable printed Rereadable world)
    (free : ¬ DirActive world.store.fs lastDir ∧ ¬ FileActive world.store.fs lastFile) :
    Rebuilds (parseSlot : Bytes → Option (Item ν)) world.store.fs world.root := by
  obtain ⟨⟨regular, tables, proc⟩, corresponds, _⟩ := h.steady
  have m := matches_of_corresponds regular corresponds proc
  obtain ⟨loaded, done, complete⟩ := load_all_iff tables.filed
    (fun d active => (tables.dirFits d active).1) fun s active => (tables.fileFits s active).1
  have all := complete.mpr free
  intro jrp persisted
  rw [updateSeq_filed tables.filed, ldrLoadFilesystem, done, Option.getD_some, rtSearch, rtSearch]
  generalize jrp.dupvalue = dupvalue
  cases key : jrp.segm with
  | nil => rfl
  | cons segm rest =>
    have outside : fold segm.name ≠ fold procName := persisted segm (by rw [key]; rfl)
    have search : searchScope world.root segm.name =
      (rootNode world.root).follow (.scope (fold segm.name)) := rfl
    rw [rtSearchLoop_dir, rtSearchLoop, search]
    cases found : (rootNode world.root).follow (.scope (fold segm.name)) with
    | none => rw [dirOf_missing _ m all found]
    | some dir =>
      obtain ⟨e, files, active, name, inside, chosen⟩ :=
        dirOf_some (parseSlot : Bytes → Option (Item ν)) m tables.filed all outside found
      have level : dir.info.jsl = .dir := (regular.follow found).here.stands
      have value : (dirImageNode (imageOf (parseSlot : Bytes → Option (Item ν)) world.store.fs
          (e, files))).info.scopeValue = dir.info.scopeValue := by
        rw [dirImageNode_info, h.values _ dir found outside, ← name]
        rfl
      have own : fold (world.store.fs.dir e).name = fold segm.name := by
        rw [name]
        exact key_of_avlsearch Node.scopeKey found
      rw [chosen]
      simp only [level, value]
      split
      · rfl
      · cases rest with
        | nil => exact absurd rfl ‹_›
        | cons segm' rest =>
          rw [rtSearchLoop, rtSearchLoop, search_archive, searchScope_eq_follow]
          cases below : dir.follow (.scope (fold segm'.name)) with
          | none => rw [archiveOf_missing _ m tables all active inside own found below]; rfl
          | some archive =>
            have path := h.paths _ _ dir archive found below outside
            rw [PathFits, h.values _ dir found outside, ← name] at path
            obtain ⟨s, section', named, picked⟩ := archiveOf_some
              (parseSlot : Bytes → Option (Item ν)) m tables all active inside own found below path
            obtain ⟨D, record⟩ := h.recorded _ _ archive (archive_of_steps found below) outside
            have same := bare_numbered D 0
            have kind : (numbered 0 D).1.kind = .cjsonObject := by
              rw [← kind_bare, same, kind_bare, record.object]
            have unnamed : (numbered 0 D).1.string = none := by
              rw [← string_bare, same, string_bare, record.unnamed]
            have level' : archive.info.jsl = .archive :=
              ((regular.follow found).follow below).here.stands
            obtain ⟨node, made, shown, value', holds⟩ := @archiveImageNode_shown ν _
              (loadedDir e (world.store.fs.dir e).name) ⟨(world.store.fs.archive s).readName,
                (world.store.fs.archive s).fsSection, (numbered 0 D).1⟩ rfl
              (by dsimp only; rw [← named]; exact path.1 ▸ path.2)
              (producible_congr record.shape same) unnamed
            rw [picked, document_of_recorded laws record section', Option.bind_some,
              show imageOf (parseSlot : Bytes → Option (Item ν)) world.store.fs (e, files) =
                ⟨e, (world.store.fs.dir e).name, _⟩ from rfl]
            dsimp only
            rw [made]
            simp only [level', shown]
            split
            · rw [value', path.1, ← named]
              rfl
            · rw [rtSearchLoop_eq holds, topMembers_of_object kind,
                rtSearchLoop_eq (record.mirrors.holds record.object)]
              exact searchMembers_congr (child_of_bare same) _ _ _

end State

section Runs
variable [DoubleText ν]

/-- An archive of `proc`, as it is made. -/
structure ProcFile (archive : Node) : Prop where
  scopes : archive.nextScope = .nil
  array : archive.array = []
  size : archive.info.arraysize = 0
  level : archive.info.jsl = .archive
  parentptr : archive.info.jsonparentptr = none
  ptr : archive.info.jsonptr = some archive.info.ident

theorem procFile_procArchive {proc archive : Node} {addr : Addr} {name : Bytes}
    (ordered : Ordered Node.scopeKey proc.nextScope) (noDot : dot ∉ name)
    (inside : archive ∈ (procArchive proc addr name).nextScope.toList) :
    archive ∈ proc.nextScope.toList ∨ (ProcFile archive ∧ archive.info.ident = addr ∧
      archive.info.scopeName = name) := by
  rw [procArchive] at inside
  cases made : archiveNode proc name addr addr with
  | none =>
    rw [made] at inside
    exact Or.inl inside
  | some file =>
    rw [made] at inside
    dsimp only at inside
    rw [insertScope, Node.nextScope_setNextScope, toList_avlinsert Node.scopeKey ordered] at inside
    rcases mem_insertOrd Node.scopeKey inside with rfl | old
    · obtain ⟨scopeName, jsl, scopes, array, size, ptr, parentptr, ident⟩ :=
        AppendSteps.archiveNode_spec noDot made
      exact Or.inr ⟨⟨scopes, array, size, jsl, parentptr, by rw [ptr, ident]⟩, ident, scopeName⟩
    · exact Or.inl old

/-- The archives that `procfs_rebuild` makes, at these addresses. -/
theorem proc_files {ident jess history : Nat} {archive : Node}
    (inside : archive ∈ (procArchive (procArchive (ldrCreateDir ident procName) jess
      (ofChars ['j', 'e', 's', 's'])) history
        (ofChars ['h', 'i', 's', 't', 'o', 'r', 'y'])).nextScope.toList) :
    ProcFile archive ∧
      ((archive.info.ident = jess ∧ archive.info.scopeName = ofChars ['j', 'e', 's', 's']) ∨
        (archive.info.ident = history ∧
          archive.info.scopeName = ofChars ['h', 'i', 's', 't', 'o', 'r', 'y'])) := by
  have bare : Regular 1 (ldrCreateDir ident procName) := regular_leaf rfl rfl rfl rfl
  obtain ⟨made, _⟩ := outside_procArchive jess (ofChars ['j', 'e', 's', 's']) bare
    fun _ inside => absurd inside List.not_mem_nil
  rcases procFile_procArchive made.here.ordered (by decide) inside with old | ⟨file, own, name⟩
  · rcases procFile_procArchive bare.here.ordered (by decide) old with older | ⟨file, own, name⟩
    · cases older
    · exact ⟨file, Or.inl ⟨own, name⟩⟩
  · exact ⟨file, Or.inr ⟨own, name⟩⟩

theorem over_procFile {archive : Node} {next : Nat} (file : ProcFile archive) :
    Over (ν := ν) True next archive (.mk archive.info.ident none .cjsonObject []) := by
  have empty : ∀ s c, archive.follow s ≠ some c := by
    intro s c found
    cases s with
    | scope key =>
      rw [Node.follow, file.scopes] at found
      cases found
    | item i =>
      rw [Node.follow, file.array] at found
      cases found
  refine over_of_steps ⟨⟨file.ptr, fun s c found => absurd found (empty s c), ?_, ?_⟩, ?_, ?_, ?_,
    ?_, ?_, ?_, ?_⟩ fun s c found => absurd found (empty s c)
  · rw [file.scopes]
    exact ordered_nil _
  · rw [file.size, file.array]
    rfl
  · rw [file.size]
    decide
  · rw [file.level]
    rintro ⟨⟩
  · rw [file.level]
    rintro ⟨⟩
  · rw [file.array]
    exact List.nodup_nil
  · rw [file.array]
    simp
  · exact fun _ _ => ⟨List.Pairwise.nil, by simp⟩
  · rw [file.level]
    simp

omit [DoubleText ν] in
/-- All that the tree of a server without a configuration has is `proc`. -/
theorem emptyServer_dirs {key : Bytes} {dir : Node}
    (found : (rootNode (emptyServer : World ν).root).follow (.scope key) = some dir) :
    key = fold procName ∧ dir = procDir := by
  have mem : dir ∈ [procDir] := mem_of_avlsearch Node.scopeKey found
  obtain rfl := List.mem_singleton.mp mem
  have named : procDir.scopeKey = key := key_of_avlsearch Node.scopeKey found
  exact ⟨named.symm, rfl⟩

theorem emptyServer_worded : Worded (emptyServer : World ν) := by
  have addrs : (emptyServer : World ν).store.heap.roots.flatMap addrs = [3, 2] := rfl
  have file : ∀ {d a : Bytes} {archive : Node},
      (rootNode (emptyServer : World ν).root).getAt (archiveAt d a) = some archive →
      d = fold procName ∧ a = fold archive.info.scopeName ∧
        archive ∈ procDir.nextScope.toList := by
    intro d a archive there
    obtain ⟨dir, found, below⟩ := steps_of_archive there
    obtain ⟨rfl, rfl⟩ := emptyServer_dirs found
    exact ⟨rfl, (key_of_avlsearch Node.scopeKey below).symm, mem_of_avlsearch Node.scopeKey below⟩
  refine ⟨⟨emptyServer_sound.regular, ⟨?_, ?_⟩, ?_, ?_⟩, ?_⟩
  · rw [addrs]
    decide
  · rw [addrs]
    change ∀ b ∈ [3, 2], b < 4
    decide
  · intro d a archive there
    obtain ⟨procFile, place⟩ := proc_files (file there).2.2
    refine ⟨.mk archive.info.ident none .cjsonObject [], ?_, over_procFile procFile,
      procFile.parentptr, rfl, rfl⟩
    change _ ∈ [Item.mk 3 none Kind.cjsonObject [], Item.mk 2 none Kind.cjsonObject []]
    rcases place with ⟨ident, _⟩ | ⟨ident, _⟩ <;> simp [ident]
  · intro d a d' a' archive archive' there there' same
    obtain ⟨rfl, rfl, inside⟩ := file there
    obtain ⟨rfl, rfl, inside'⟩ := file there'
    obtain ⟨procFile, place⟩ := proc_files inside
    obtain ⟨procFile', place'⟩ := proc_files inside'
    rw [procFile.ptr, procFile'.ptr, Option.some.injEq] at same
    refine ⟨rfl, ?_⟩
    rcases place with ⟨ident, name⟩ | ⟨ident, name⟩ <;>
      rcases place' with ⟨ident', name'⟩ | ⟨ident', name'⟩
    · rw [name, name']
    · omega
    · omega
    · rw [name, name']
  · intro x mem
    have item : x ∈ [Item.mk 3 none Kind.cjsonObject [], Item.mk 2 none Kind.cjsonObject []] := mem
    rcases List.mem_pair.mp item with rfl | rfl <;> exact ⟨Or.inl rfl, by simp⟩

theorem emptyServer_restorable {print : Item ν → Bytes} {fits : Item ν → Prop} :
    Restorable print fits (emptyServer : World ν) where
  steady := emptyServer_steady
  worded := emptyServer_worded
  unbroken x mem := by
    have item : x ∈ [Item.mk 3 none Kind.cjsonObject [], Item.mk 2 none Kind.cjsonObject []] := mem
    rcases List.mem_pair.mp item with rfl | rfl <;> exact ⟨by simp, by simp⟩
  values d dir found outside := absurd (emptyServer_dirs found).1 outside
  paths d a dir archive found _ outside := absurd (emptyServer_dirs found).1 outside
  recorded d a archive there outside := by
    obtain ⟨dir, found, _⟩ := steps_of_archive there
    exact absurd (emptyServer_dirs found).1 outside

variable [NumberFormat ν]

/-- The condition on a write: its document can be read again. -/
def Rewritable (world : World ν) (order : Order) : Prop :=
  ∀ jrp, order = .write jrp → Lands (printed : Item ν → Bytes) Rereadable world jrp

/-- After any run of requests, a server that is started from what the slots hold then answers
as the one that was running, exactly when the last slots of both tables are free. -/
theorem always_rebuilds_iff (laws : NumberLaws ν) {orders : List Order}
    (asked : ∀ order ∈ orders, Asked order)
    (along : Along (step (printed : Item ν → Bytes)) Rewritable emptyServer orders) :
    Always (step (printed : Item ν → Bytes)) (fun world =>
      Rebuilds (parseSlot : Bytes → Option (Item ν)) world.store.fs world.root ↔
        ¬ DirActive world.store.fs lastDir ∧ ¬ FileActive world.store.fs lastFile)
      emptyServer orders := by
  have room : ∀ D : Item ν, Rereadable D → (printed D).length ≤ fsMaxFileSize :=
    fun D fits => Nat.le_of_lt fits.1
  have each := along_and (along_of_forall asked (emptyServer : World ν)) along
  have always := always_of_along
    (fun w order w' h both done => restorable_step h both.1 room both.2 done)
    emptyServer_restorable each
  exact always_mono (fun w h =>
    ⟨free_of_rebuilds h.steady, rebuilds_of_restorable laws h⟩) always

end Runs

section Digits

instance : DoubleText (Fin 10) where
  atof text := (NumberFormat.strtod text).1
  fixed3 n := [(48 + n.val).toUInt8] ++ ofChars ['.', '0', '0', '0']

/-- A directory is made and a field is written below it. -/
def twoOrders : List Order := [.mkdir dirRequest, .write writeRequest]

theorem twoOrders_asked : ∀ order ∈ twoOrders, Asked order := by
  have each : ∀ order ∈ twoOrders, order ∈ smallRun := by simp [twoOrders, smallRun]
  intro order mem
  refine ⟨smallRun_received order (each order mem), (smallRun_fits order (each order mem)).roomy,
    ?_, ?_⟩
  · rintro jrp rfl
    have here : Order.mkdir jrp = .mkdir dirRequest := by simpa [twoOrders] using mem
    injection here with here
    subst here
    unfold NoSlash
    decide
  · rintro jrp rfl
    have here : Order.write jrp = .write writeRequest := by simpa [twoOrders] using mem
    injection here with here
    subst here
    unfold Accepts Terminated
    decide +kernel

/-- The write of the run, after the directory is made. -/
theorem rewritable_writeRequest {world : World (Fin 10)}
    (made : step printed emptyServer (.mkdir dirRequest) = some world) :
    Rewritable world (.write writeRequest) := by
  have retval : ((step (printed : Item (Fin 10) → Bytes) emptyServer (.mkdir dirRequest)).bind
      fun w => (rtConfigUpdate w writeRequest).map (·.retval)) = some 0 := by decide +kernel
  have document : (((step (printed : Item (Fin 10) → Bytes) emptyServer (.mkdir dirRequest)).bind
      fun w => (proVariableWrite printed w writeRequest).bind fun answered =>
        documentAt answered.world (ofChars ['d']) (ofChars ['a'])).all
      fun D => decide (Rereadable D)) = true := by decide +kernel
  rw [made, Option.bind_some] at retval document
  have started := @AllOrNothing.started_step _ _ _ _ (.mkdir dirRequest) _
    ⟨emptyServer_sound.regular, emptyServer_sound.tables.fileEmpty⟩
    (twoOrders_asked (.mkdir dirRequest) (by simp [twoOrders])).received made
  intro jrp same
  injection same with same
  subst same
  refine ⟨(AllOrNothing.failsCleanly_iff started.regular started.vacant
    (twoOrders_asked (.write writeRequest) (by simp [twoOrders])).received).mp ?_, ?_⟩
  · intro u done failed
    change rtConfigUpdate world writeRequest = some u at done
    rw [done] at retval
    have success : u.retval = 0 := Option.some.inj retval
    omega
  · rintro d a D answered names - done - found
    obtain ⟨rfl, rfl⟩ : ofChars ['d'] = d ∧ ofChars ['a'] = a := by
      simpa [writeRequest] using names
    rw [done, Option.bind_some, found] at document
    exact of_decide_eq_true document

theorem always_rebuilds_iff_digits :
    Always (step (printed : Item (Fin 10) → Bytes)) (fun world =>
      Rebuilds (parseSlot : Bytes → Option (Item (Fin 10))) world.store.fs world.root ↔
        ¬ DirActive world.store.fs lastDir ∧ ¬ FileActive world.store.fs lastFile)
      emptyServer twoOrders :=
  always_rebuilds_iff digit_laws twoOrders_asked ⟨by rintro jrp ⟨⟩, fun _ made =>
    ⟨rewritable_writeRequest made, fun _ _ => trivial⟩⟩

end Digits

end StartUp
