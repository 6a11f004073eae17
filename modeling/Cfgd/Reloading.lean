import Cfgd.CheckpointFiles
import Cfgd.LoadedBlocks
import Cfgd.StartUp

/-!
# A tree that is loaded again

A recovery removes the tree and loads it from the slots, into blocks that were not given out
before. Where the slots held all of the tree, the new tree stands over its documents, and the
slots hold all of it again.
-/

namespace Reloading

open AvlTree CText CJson Item Request ConfigNode Loader FsImage SlotTables LoadSlots Runtime DocTree
open DeleteRange HeapEdit RegularTree Levels PlainDoc Backing SideBySide ItemNumbers LoadedTree
open DocumentItems Orders Catalog Correspondence Saving SearchSound SlotLoading Coherence
open JsonText JsonAccepted JsonRoundTrip SavedTexts AnsweredAlike StartUp LoadedBlocks
open CheckpointFiles (withProc jessName scopeKey_procArchive procfsConfigUpdate procfsRebuild
  procfsConfigUpdate_eq jrp_of_command rebuildCommands checkpointFiles versionKey addKey pendingKey
  timeoutKey checkpointName)

section Alike
variable {ν : Type} {x y : Item ν}

/-- Documents that differ in their addresses only have the same items, but for those. -/
theorem items_alike (same : x.bare = y.bare) {i : Item ν} (inside : i ∈ x.items) :
    ∃ i' ∈ y.items, i.bare = i'.bare := by
  induction x using Item.induct generalizing y with
  | step x ih =>
    rw [items_eq, List.mem_cons] at inside
    rcases inside with rfl | inside
    · exact ⟨y, self_mem_items y, same⟩
    · obtain ⟨c, child, deep⟩ := List.mem_flatMap.mp inside
      have there : c.bare ∈ y.child.map bare := child_of_bare same ▸ List.mem_map_of_mem child
      obtain ⟨c', child', alike⟩ := List.mem_map.mp there
      obtain ⟨i', inside', same'⟩ := ih c child alike.symm deep
      exact ⟨i', mem_items_of_child child' inside', same'⟩

theorem printed_bare (number : ν → Bytes) (x : Item ν) :
    cjsonPrintUnformatted number x.bare = cjsonPrintUnformatted number x := by
  induction x using Item.induct with
  | step x ih =>
    obtain ⟨addr, string, kind, child⟩ := x
    have elements : ∀ l : List (Item ν), (∀ c ∈ l, cjsonPrintUnformatted number c.bare =
        cjsonPrintUnformatted number c) →
        printElements number (l.map bare) = printElements number l ∧
          printMembers number (l.map bare) = printMembers number l := by
      intro l
      induction l with
      | nil => exact fun _ => ⟨rfl, rfl⟩
      | cons c rest ih =>
        intro all
        obtain ⟨here, later⟩ := List.forall_mem_cons.mp all
        obtain ⟨first, second⟩ := ih later
        have name : c.bare.string = c.string := by rw [bare_eq, string_mk]
        rw [List.map_cons, printElements, printElements, printMembers, printMembers, here, name,
          first, second]
        exact ⟨rfl, rfl⟩
    obtain ⟨first, second⟩ := elements child ih
    rw [bare_eq, string_mk, kind_mk, child_mk, cjsonPrintUnformatted.eq_def,
      cjsonPrintUnformatted.eq_def number (.mk addr string kind child)]
    dsimp only
    rw [first, second]

theorem nesting_bare (x : Item ν) : nesting x.bare = nesting x := by
  induction x using Item.induct with
  | step x ih =>
    obtain ⟨addr, string, kind, child⟩ := x
    have each : ∀ l : List (Item ν), (∀ c ∈ l, nesting c.bare = nesting c) →
        nestingList (l.map bare) = nestingList l := by
      intro l
      induction l with
      | nil => exact fun _ => rfl
      | cons c rest ih =>
        intro all
        obtain ⟨here, later⟩ := List.forall_mem_cons.mp all
        rw [List.map_cons, nestingList, nestingList, here, ih later]
    rw [bare_eq, string_mk, kind_mk, child_mk, nesting.eq_def,
      nesting.eq_def (.mk addr string kind child)]
    dsimp only
    rw [each child ih]

theorem addrs_numbered (x : Item ν) (a : Nat) :
    ∃ n, (numbered a x).2 = a + n ∧ (numbered a x).1.addrs = List.range' a n := by
  induction x using Item.induct generalizing a with
  | step x ih =>
    have each : ∀ (l : List (Item ν)) (a : Nat), (∀ c ∈ l, ∀ a, ∃ n, (numbered a c).2 = a + n ∧
        (numbered a c).1.addrs = List.range' a n) →
        ∃ n, (numberedList a l).2 = a + n ∧
          (numberedList a l).1.flatMap addrs = List.range' a n := by
      intro l
      induction l with
      | nil => exact fun a _ => ⟨0, rfl, rfl⟩
      | cons c rest ih =>
        intro a all
        obtain ⟨here, later⟩ := List.forall_mem_cons.mp all
        obtain ⟨n, behind, own⟩ := here a
        obtain ⟨m, behind', own'⟩ := ih (a + n) later
        refine ⟨n + m, ?_, ?_⟩
        · rw [numberedList, behind, behind', Nat.add_assoc]
        · rw [numberedList, behind, List.flatMap_cons, own, own', List.range'_append_1]
    obtain ⟨n, behind, own⟩ := each x.child (a + 1) ih
    rw [numbered_eq]
    refine ⟨n + 1, by rw [behind]; omega, ?_⟩
    rw [addrs_eq, addr_mk, child_mk, own, List.range'_succ]

end Alike

variable {ν : Type}

section Definitions
variable [DoubleText ν] [NumberFormat ν]

/-- `cJSON_Parse` on the data of a slot, into blocks from `next` on. Data that is no JSON text
counts as an empty object. -/
def readDocument (next : Addr) (data : Bytes) : Item ν × Addr :=
  match (cjsonParse next (data.takeWhile (· ≠ 0) ++ [0]) : Reading (Item ν × Addr)) with
  | .done read => read
  | _ => (.mk next none .cjsonObject [], next + 1)

/-- The archives of a directory, each with its document in new blocks. -/
def loadArchives (fs : FsLayout) (next : Addr) :
    List (Fin fsMaxArch) → List (ArchiveImage ν) × Addr
  | [] => ([], next)
  | s :: rest =>
    let read := readDocument next (fs.archive s).data
    let later := loadArchives fs read.2 rest
    (⟨(fs.archive s).readName, (fs.archive s).fsSection, read.1⟩ :: later.1, later.2)

def loadDirs (fs : FsLayout) (next : Addr) :
    List (Fin fsMaxDir × List (Fin fsMaxArch)) → List (DirImage ν) × Addr
  | [] => ([], next)
  | dir :: rest =>
    let files := loadArchives fs (next + 1) dir.2
    let later := loadDirs fs files.2 rest
    (⟨next, (fs.dir dir.1).name, files.1⟩ :: later.1, later.2)

/-- The directories and archives that `ldr_load_filesystem` loads, and the blocks behind them. -/
def loadImages (fs : FsLayout) (next : Addr) : List (DirImage ν) × Addr :=
  loadDirs fs next ((ldrFilesystemLoadDir fs).getD [])

/-- `ldr_load_filesystem` after `rt_suface_remove_dir` has removed the tree. The documents of
that tree stay allocated, but nothing points to them any more. -/
def loadFilesystem (store : Store ν) (fs : FsLayout) : World ν :=
  let images := loadImages fs (store.heap.nextAddr + 1)
  ⟨loadedRoot images.1, { store with
    fs := fs
    heap := ⟨images.1.flatMap fun dir => dir.archives.map ArchiveImage.document, images.2⟩ }⟩

end Definitions

section Documents
variable [NumberFormat ν]
variable {D x : Item ν} {fs : FsLayout} {s : Fin fsMaxArch}

theorem stored_alike (h : Stored Rereadable D) (same : x.bare = D.bare) : Stored Rereadable x where
  object := by rw [← kind_bare, same, kind_bare, h.object]
  unnamed := by rw [← string_bare, same, string_bare, h.unnamed]
  shape := producible_congr h.shape same
  words i inside := by
    obtain ⟨i', inside', alike⟩ := items_alike same inside
    have kind : i.kind = i'.kind := by rw [← kind_bare, alike, kind_bare]
    have string : i.string = i'.string := by rw [← string_bare, alike, string_bare]
    rw [kind, string]
    exact h.words i' inside'
  whole i inside := by
    obtain ⟨i', inside', alike⟩ := items_alike same inside
    have kind : i.kind = i'.kind := by rw [← kind_bare, alike, kind_bare]
    obtain ⟨distinct, known⟩ := h.whole i' inside'
    constructor
    · intro object
      have names := distinct (kind ▸ object)
      have strings : ∀ y : Item ν, y.child.map Item.string = (y.child.map bare).map Item.string :=
        fun y => by rw [List.map_map]; exact List.map_congr_left fun c _ => (string_bare c).symm
      have list : i.child.map Item.string = i'.child.map Item.string := by
        rw [strings, child_of_bare alike, ← strings]
      rw [Distinct,
        ← List.pairwise_map (f := Item.string) (R := fun a b => a.map fold ≠ b.map fold)]
        at names ⊢
      rwa [list]
    · intro c child
      have there : c.bare ∈ i'.child.map bare := child_of_bare alike ▸ List.mem_map_of_mem child
      obtain ⟨c', child', same'⟩ := List.mem_map.mp there
      rw [← itemJsl_bare, ← same', itemJsl_bare]
      exact known c' child'
  fits := by
    obtain ⟨short, shallow⟩ := h.fits
    refine ⟨?_, ?_⟩
    · rw [printed, ← printed_bare, same, printed_bare]
      exact short
    · rw [← nesting_bare, same, nesting_bare]
      exact shallow

/-- The text that is in a slot is read as the document that it is the text of. -/
theorem readDocument_printed (laws : NumberLaws ν) (h : Stored Rereadable D) (next : Addr) :
    readDocument next (printed D) = numbered next D := by
  have printable := printable_of_stored h
  have clean := printed_clean laws D printable
  have whole : (printed D).takeWhile (· ≠ 0) = printed D := by
    rw [List.takeWhile_eq_self_iff]
    intro c mem
    exact decide_eq_true fun zero => clean (zero ▸ mem)
  have parsed := cjsonParse_printed laws printable h.unnamed next []
  rw [if_pos h.fits.2] at parsed
  rw [readDocument, whole, parsed]

theorem length_intercalate {texts : List Bytes} (filled : ∀ text ∈ texts, 0 < text.length) :
    texts.length ≤ ([44].intercalate texts : Bytes).length ∧
      ∀ text ∈ texts, text.length ≤ ([44].intercalate texts : Bytes).length := by
  induction texts with
  | nil => exact ⟨Nat.le_refl _, fun _ mem => absurd mem List.not_mem_nil⟩
  | cons first rest ih =>
    obtain ⟨here, later⟩ := List.forall_mem_cons.mp filled
    obtain ⟨count, each⟩ := ih later
    have whole : ([44].intercalate (first :: rest) : Bytes).length = first.length +
        if rest = [] then 0 else ([44].intercalate rest : Bytes).length + 1 := by
      rw [intercalate_cons, List.length_append]
      split <;> rfl
    rw [whole]
    constructor
    · split
      · rename_i last
        rw [last, List.length_singleton]
        omega
      · rw [List.length_cons]
        omega
    · rintro text (_ | ⟨_, mem⟩)
      · exact Nat.le_add_right _ _
      · rw [if_neg (List.ne_nil_of_mem mem)]
        have bound := each text mem
        omega

theorem fewer_of_texts (text : Item ν → Bytes) (size : (printed D).length =
      ([44].intercalate (D.child.map text) : Bytes).length + 2)
    (within : ∀ c, (printed c).length ≤ (text c).length)
    (filled : ∀ c ∈ D.child, 0 < (printed c).length)
    (below : ∀ c ∈ D.child, ∀ x ∈ c.items, x.child.length < (printed c).length) :
    ∀ x ∈ D.items, x.child.length < (printed D).length := by
  obtain ⟨count, each⟩ := @length_intercalate (D.child.map text) (by
    intro t mem
    obtain ⟨c, child, rfl⟩ := List.mem_map.mp mem
    exact Nat.lt_of_lt_of_le (filled c child) (within c))
  rw [List.length_map] at count
  intro x inside
  rw [items_eq, List.mem_cons] at inside
  rcases inside with rfl | inside
  · omega
  · obtain ⟨c, child, deep⟩ := List.mem_flatMap.mp inside
    have few := below c child x deep
    have part := each _ (List.mem_map_of_mem child)
    have short := within c
    omega

/-- No item has as many children as the text of the document has bytes. -/
theorem children_fewer (shape : Producible D)
    (words : ∀ x ∈ D.items, Wordy x.addr x.string x.kind) :
    ∀ x ∈ D.items, x.child.length < (printed D).length := by
  have filled : ∀ y : Item ν, Wordy y.addr y.string y.kind → 0 < (printed y).length := by
    rintro ⟨addr, string, kind, child⟩ ⟨object | array | ⟨v, text⟩, _⟩
    · obtain rfl : kind = .cjsonObject := object
      exact Nat.succ_pos _
    · obtain rfl : kind = .cjsonArray := array
      exact Nat.succ_pos _
    · obtain rfl : kind = .cjsonString v := text
      exact Nat.succ_pos _
  induction shape with
  | @object addr string child names below ih =>
    have inner : ∀ c ∈ child, ∀ x ∈ c.items, Wordy x.addr x.string x.kind :=
      fun c mem x inside => words x (mem_items_of_child mem inside)
    refine fewer_of_texts member ?_ (fun c => ?_)
      (fun c mem => filled c (inner c mem c (self_mem_items c))) fun c mem => ih c mem (inner c mem)
    · rw [printed, cjsonPrintUnformatted.eq_def]
      dsimp only
      rw [printMembers_eq]
      simp
    · rw [member, List.length_append, List.length_cons]
      omega
  | @array addr string child names below ih =>
    have inner : ∀ c ∈ child, ∀ x ∈ c.items, Wordy x.addr x.string x.kind :=
      fun c mem x inside => words x (mem_items_of_child mem inside)
    refine fewer_of_texts printed ?_ (fun c => Nat.le_refl _)
      (fun c mem => filled c (inner c mem c (self_mem_items c))) fun c mem => ih c mem (inner c mem)
    rw [printed, cjsonPrintUnformatted.eq_def]
    dsimp only
    rw [printElements_eq]
    simp
  | leaf notObject notArray =>
    intro x inside
    rw [items_eq] at inside
    obtain rfl := List.mem_singleton.mp inside
    exact filled _ (words _ (self_mem_items _))

omit [NumberFormat ν] in
theorem producible_items (shape : Producible D) : ∀ x ∈ D.items, Producible x := by
  have inside : ∀ {j : Item ν}, Producible j → (∀ c ∈ j.child, ∀ x ∈ c.items, Producible x) →
      ∀ x ∈ j.items, Producible x := by
    intro j own lower x hx
    rw [items_eq, List.mem_cons] at hx
    rcases hx with rfl | hx
    · exact own
    · obtain ⟨c, child, deep⟩ := List.mem_flatMap.mp hx
      exact lower c child x deep
  induction shape with
  | object names below ih => exact inside (.object names below) ih
  | array names below ih => exact inside (.array names below) ih
  | leaf notObject notArray => exact inside (.leaf notObject notArray) nofun

theorem legible_of_stored (h : Stored Rereadable D) : Legible True D := by
  have words : ∀ x ∈ D.items, Wordy x.addr x.string x.kind := fun x inside => (h.words x inside).1
  have fewer := children_fewer h.shape words
  refine ⟨h.shape, fun x inside => ⟨?_, ?_⟩, ?_, fun _ => h.whole⟩
  · have few := fewer x inside
    have short := h.fits.1
    have room : (fsMaxFileSize : Int) < jaSymLast := by decide
    omega
  · intro array c child
    have shape := producible_items h.shape x inside
    generalize x = y at shape array child
    cases shape with
    | object => cases array
    | array names => exact names c child
    | leaf _ notArray => exact absurd array notArray
  · intro x inside c child name named
    exact (words c (items_trans inside (mem_items_of_child child (self_mem_items c)))).2 name named

end Documents

section Slots
variable [NumberFormat ν]
variable {fs : FsLayout}

/-- What the text in a slot is read as. -/
def ReadAs (fs : FsLayout) (s : Fin fsMaxArch) (D : Item ν) : Prop :=
  Stored Rereadable D ∧ (fs.archive s).data = printed D

/-- An archive as it is loaded from its slot. -/
structure FromSlot (fs : FsLayout) (s : Fin fsMaxArch) (image : ArchiveImage ν) : Prop where
  name : image.name = (fs.archive s).readName
  own : image.fsSection = (fs.archive s).fsSection
  read : ReadAs fs s image.document

structure FromDir (fs : FsLayout) (dir : Fin fsMaxDir × List (Fin fsMaxArch))
    (image : DirImage ν) : Prop where
  name : image.name = (fs.dir dir.1).name
  files : List.Forall₂ (FromSlot fs) dir.2 image.archives

theorem loadArchives_spec (laws : NumberLaws ν) {slots : List (Fin fsMaxArch)}
    (filled : ∀ s ∈ slots, ∃ D : Item ν, ReadAs fs s D) (next : Addr) :
    ∃ n, (loadArchives fs next slots : List (ArchiveImage ν) × Addr).2 = next + n ∧
      ((loadArchives fs next slots).1.flatMap fun image : ArchiveImage ν => image.document.addrs) =
        List.range' next n ∧
      List.Forall₂ (FromSlot fs) slots
        (loadArchives fs next slots : List (ArchiveImage ν) × Addr).1 := by
  induction slots generalizing next with
  | nil => exact ⟨0, rfl, rfl, .nil⟩
  | cons s rest ih =>
    obtain ⟨⟨D, stored, data⟩, later⟩ := List.forall_mem_cons.mp filled
    have read := readDocument_printed laws stored next
    rw [← data] at read
    obtain ⟨n, behind, own⟩ := addrs_numbered D next
    obtain ⟨m, behind', own', files⟩ := ih later (next + n)
    have alike := bare_numbered D next
    refine ⟨n + m, ?_, ?_, ?_⟩
    · simp only [loadArchives]
      rw [read, behind, behind', Nat.add_assoc]
    · simp only [loadArchives]
      rw [List.flatMap_cons, read, behind, own, own', List.range'_append_1]
    · simp only [loadArchives]
      rw [read, behind]
      refine .cons ⟨rfl, rfl, stored_alike stored alike, ?_⟩ files
      rw [data, printed, ← printed_bare, ← alike, printed_bare]

theorem loadDirs_spec (laws : NumberLaws ν)
    {dirs : List (Fin fsMaxDir × List (Fin fsMaxArch))}
    (filled : ∀ dir ∈ dirs, ∀ s ∈ dir.2, ∃ D : Item ν, ReadAs fs s D) (next : Addr) :
    ∃ n, (loadDirs fs next dirs : List (DirImage ν) × Addr).2 = next + n ∧
      blocksOf (loadDirs fs next dirs : List (DirImage ν) × Addr).1 = List.range' next n ∧
      List.Forall₂ (FromDir fs) dirs (loadDirs fs next dirs : List (DirImage ν) × Addr).1 := by
  induction dirs generalizing next with
  | nil => exact ⟨0, rfl, rfl, .nil⟩
  | cons dir rest ih =>
    obtain ⟨here, later⟩ := List.forall_mem_cons.mp filled
    obtain ⟨n, behind, own, files⟩ := loadArchives_spec laws here (next + 1)
    obtain ⟨m, behind', own', dirs⟩ := ih later (next + 1 + n)
    refine ⟨n + 1 + m, ?_, ?_, ?_⟩
    · simp only [loadDirs]
      rw [behind, behind', Nat.add_assoc next, Nat.add_comm 1 n, Nat.add_assoc next]
    · simp only [loadDirs]
      rw [blocksOf, List.flatMap_cons, behind, own, ← blocksOf, own']
      change (next :: List.range' (next + 1) n) ++ _ = _
      rw [← List.range'_succ, Nat.add_assoc next, Nat.add_comm 1 n, List.range'_append_1]
    · simp only [loadDirs]
      rw [behind]
      exact .cons ⟨rfl, files⟩ dirs

theorem mem_of_forall₂ {α β : Type} {R : α → β → Prop} {l : List α} {l' : List β}
    (h : List.Forall₂ R l l') :
    (∀ a ∈ l, ∃ b ∈ l', R a b) ∧ ∀ b ∈ l', ∃ a ∈ l, R a b := by
  induction h with
  | nil => exact ⟨nofun, nofun⟩
  | @cons a b l l' first _ ih =>
    constructor
    · rintro c (_ | ⟨_, mem⟩)
      · exact ⟨b, List.mem_cons_self .., first⟩
      · obtain ⟨d, mem', rel⟩ := ih.1 c mem
        exact ⟨d, List.mem_cons_of_mem _ mem', rel⟩
    · rintro c (_ | ⟨_, mem⟩)
      · exact ⟨a, List.mem_cons_self .., first⟩
      · obtain ⟨d, mem', rel⟩ := ih.2 c mem
        exact ⟨d, List.mem_cons_of_mem _ mem', rel⟩

variable [DoubleText ν]

omit [NumberFormat ν] in
/-- What the node of an archive takes from its slot. -/
theorem archiveImageNode_info {dir archive : Node} {image : ArchiveImage ν}
    (made : archiveImageNode dir image = some archive) :
    archive.info.scopeName = archiveScopeName image.name ∧
      archive.info.fsSection = image.fsSection ∧ PathFits dir.info archive.info := by
  obtain ⟨empty, accepted, rfl⟩ := Option.map_eq_some_iff.mp made
  rw [archiveNode] at accepted
  split at accepted
  · cases accepted
  · rename_i fits
    obtain rfl := Option.some.inj accepted
    rw [ldrLoadArchive, (kept_ldrNextMisc _ _ _).1]
    exact ⟨rfl, rfl, rfl, Nat.lt_of_not_le fun long => fits (Or.inr long)⟩

end Slots

section Trees
variable [DoubleText ν] [NumberFormat ν]
variable {world : World ν} {loaded : List (Fin fsMaxDir × List (Fin fsMaxArch))}
variable {images : List (DirImage ν)} {dir archive : Node} {key : Bytes}

/-- Every slot that is in use is read as a document. -/
theorem read_of_restorable (h : Restorable printed Rereadable world) {s : Fin fsMaxArch}
    (active : FileActive world.store.fs s) : ∃ D : Item ν, ReadAs world.store.fs s D := by
  obtain ⟨⟨regular, tables, proc⟩, corresponds, _⟩ := h.steady
  have m := matches_of_corresponds regular corresponds proc
  obtain ⟨_, ⟨e, activeDir, owner⟩, _⟩ := tables.filed.files s active
  obtain ⟨outside, _⟩ := m.slots e activeDir
  obtain ⟨i, entry, own, _⟩ := m.files e activeDir s ⟨active, owner⟩
  obtain ⟨archive, there, rfl⟩ := Option.map_eq_some_iff.mp entry
  obtain ⟨D, record⟩ := h.recorded _ _ archive there outside
  obtain ⟨t, own', data⟩ := record.slot
  obtain rfl := file_of_section own own'
  exact ⟨D, record.toStored, data⟩

/-- A directory of the tree that is loaded, and its slot. -/
theorem slot_of_dir (loads : List.Forall₂ (FromDir world.store.fs) loaded images)
    (found : (rootNode (loadedRoot images)).follow (.scope key) = some dir) :
    ∃ e files image, (e, files) ∈ loaded ∧ image ∈ images ∧
      FromDir world.store.fs (e, files) image ∧ dir = dirImageNode image ∧
      fold (world.store.fs.dir e).name = key := by
  have named : fold dir.info.scopeName = key := key_of_avlsearch Node.scopeKey found
  have search : searchScope (loadedRoot images) dir.info.scopeName = some dir := by
    rw [← named] at found
    exact found
  rw [search_dir] at search
  obtain ⟨image, chosen, rfl⟩ := Option.map_eq_some_iff.mp search
  have mem := List.mem_of_find?_eq_some chosen
  have picked := List.find?_some chosen
  obtain ⟨⟨e, files⟩, inside, made⟩ := (mem_of_forall₂ loads).2 image mem
  refine ⟨e, files, image, inside, mem, made, rfl, ?_⟩
  rw [← named, ← made.name]
  exact of_decide_eq_true picked

/-- A directory that is in use is loaded. -/
theorem dir_of_slot (filed : SlotTables.Filed world.store.fs) (all : LoadsAll world.store.fs loaded)
    (loads : List.Forall₂ (FromDir world.store.fs) loaded images) {e : Fin fsMaxDir}
    (active : DirActive world.store.fs e) :
    ∃ files image, (e, files) ∈ loaded ∧ image ∈ images ∧
      FromDir world.store.fs (e, files) image ∧
      (rootNode (loadedRoot images)).follow (.scope (fold (world.store.fs.dir e).name)) =
        some (dirImageNode image) := by
  obtain ⟨⟨e', own⟩, inside, same⟩ := List.mem_map.mp ((all.dirs e).mpr active)
  obtain rfl : e' = e := same
  obtain ⟨any, anywhere, made⟩ := (mem_of_forall₂ loads).1 _ inside
  have there : (dirOf images (fold (world.store.fs.dir e').name)).isSome := by
    rw [dirOf, List.find?_isSome]
    exact ⟨any, anywhere, decide_eq_true (congrArg fold made.name)⟩
  obtain ⟨image, chosen⟩ := Option.isSome_iff_exists.mp there
  have search : (rootNode (loadedRoot images)).follow
      (.scope (fold (world.store.fs.dir e').name)) = some (dirImageNode image) := by
    have search := search_dir images (world.store.fs.dir e').name
    rw [chosen] at search
    exact search
  obtain ⟨d, files, image', inside', mem', made', same', named⟩ := slot_of_dir loads search
  have active' := (all.dirs d).mp (List.mem_map_of_mem inside')
  obtain rfl := filed.dirNames d e' active' active named
  exact ⟨files, image', inside', mem', made', search.trans (congrArg some same')⟩

/-- An archive of the tree that is loaded, and its slot. -/
theorem slot_of_archive {e : Fin fsMaxDir} {files : List (Fin fsMaxArch)} {image : DirImage ν}
    (made : FromDir world.store.fs (e, files) image)
    (found : (dirImageNode image).follow (.scope key) = some archive) :
    ∃ s ∈ files, ∃ file ∈ image.archives, FromSlot world.store.fs s file ∧
      archiveImageNode (loadedDir image.ident image.name) file = some archive ∧
      fold (archiveScopeName (world.store.fs.archive s).readName) = key := by
  have named : fold archive.info.scopeName = key := key_of_avlsearch Node.scopeKey found
  have search : searchScope (dirImageNode image).nextScope archive.info.scopeName =
      some archive := by
    rw [← named] at found
    exact found
  rw [search_archive] at search
  obtain ⟨file, chosen, loads⟩ := Option.bind_eq_some_iff.mp search
  have mem := List.mem_of_find?_eq_some chosen
  obtain ⟨s, mine, own⟩ := (mem_of_forall₂ made.files).2 file mem
  refine ⟨s, mine, file, mem, own, loads, ?_⟩
  rw [← named, (archiveImageNode_info loads).1, own.name]

/-- An archive that is in use is loaded. -/
theorem archive_of_slot (h : Restorable printed Rereadable world)
    (all : LoadsAll world.store.fs loaded) {e : Fin fsMaxDir} {files : List (Fin fsMaxArch)}
    {image : DirImage ν} (active : DirActive world.store.fs e) (inside : (e, files) ∈ loaded)
    (made : FromDir world.store.fs (e, files) image) {s : Fin fsMaxArch} (mine : s ∈ files) :
    ∃ file ∈ image.archives, FromSlot world.store.fs s file ∧ ∃ archive,
      archiveImageNode (loadedDir image.ident image.name) file = some archive ∧
      (dirImageNode image).follow
        (.scope (fold (archiveScopeName (world.store.fs.archive s).name))) = some archive := by
  obtain ⟨⟨regular, tables, proc⟩, corresponds, _⟩ := h.steady
  have m := matches_of_corresponds regular corresponds proc
  have readable : ∀ {t}, FileActive world.store.fs t →
      (world.store.fs.archive t).readName = (world.store.fs.archive t).name :=
    fun active => readName_fits (tables.fileFits _ active)
  -- the archive as it stands in the tree
  obtain ⟨outside, i, entry, named⟩ := m.slots e active
  obtain ⟨old, found, rfl⟩ := Option.map_eq_some_iff.mp entry
  rw [getAt_one] at found
  have inDir := (all.files e files inside s).mp mine
  obtain ⟨i, entry', own, name⟩ := m.files e active s inDir
  rw [listing_archive found] at entry'
  obtain ⟨oldArchive, below, rfl⟩ := Option.map_eq_some_iff.mp entry'
  obtain ⟨path, short⟩ := h.paths _ _ old oldArchive found below outside
  rw [h.values _ old found outside, named, name] at path
  obtain ⟨file', mem', own'⟩ := (mem_of_forall₂ made.files).1 s mine
  have there :
      (archiveOf image (fold (archiveScopeName (world.store.fs.archive s).name))).isSome := by
    rw [archiveOf, List.find?_isSome]
    refine ⟨file', mem', decide_eq_true ⟨?_, by rw [own'.name, readable inDir.1]⟩⟩
    rw [archiveFits, decide_eq_true_eq, own'.name, readable inDir.1, made.name]
    rw [path] at short
    exact short
  obtain ⟨file, chosen⟩ := Option.isSome_iff_exists.mp there
  have mem := List.mem_of_find?_eq_some chosen
  have picked := List.find?_some chosen
  obtain ⟨fits, right⟩ := of_decide_eq_true picked
  obtain ⟨_, archive, loads, _⟩ := (archiveImageNode_spec image file).2 fits
  have search : (dirImageNode image).follow
      (.scope (fold (archiveScopeName (world.store.fs.archive s).name))) = some archive := by
    have search := search_archive image (archiveScopeName (world.store.fs.archive s).name)
    rw [chosen, Option.bind_some, loads] at search
    exact search
  -- no other slot of the directory has the name
  obtain ⟨t, mine', ownT⟩ := (mem_of_forall₂ made.files).2 file mem
  have inDir' := (all.files e files inside t).mp mine'
  rw [ownT.name, readable inDir'.1] at right
  obtain ⟨i, entry', own'', _⟩ := m.files e active t inDir'
  rw [right, listing_archive found, below] at entry'
  obtain rfl := Option.some.inj entry'
  obtain rfl := file_of_section own own''
  exact ⟨file, mem, ownT, archive, loads, search⟩

/-- The tree that is loaded agrees with the slots. -/
theorem matches_loaded (h : Restorable printed Rereadable world)
    (all : LoadsAll world.store.fs loaded)
    (loads : List.Forall₂ (FromDir world.store.fs) loaded images) :
    Matches (listing (loadedRoot images)) world.store.fs := by
  obtain ⟨⟨regular, tables, proc⟩, corresponds, _⟩ := h.steady
  have m := matches_of_corresponds regular corresponds proc
  have readable : ∀ {t}, FileActive world.store.fs t →
      (world.store.fs.archive t).readName = (world.store.fs.archive t).name :=
    fun active => readName_fits (tables.fileFits _ active)
  have named : ∀ {e files} {image : DirImage ν}, FromDir world.store.fs (e, files) image →
      (dirImageNode image).info.scopeName = (world.store.fs.dir e).name := by
    intro e files image made
    rw [dirImageNode_info, made.name]
    rfl
  constructor
  · intro key i entry _
    obtain ⟨dir, found, rfl⟩ := Option.map_eq_some_iff.mp entry
    rw [getAt_one] at found
    obtain ⟨e, files, image, inside, _, made, rfl, _⟩ := slot_of_dir loads found
    exact ⟨e, (all.dirs e).mp (List.mem_map_of_mem inside), (named made).symm⟩
  · intro e active
    obtain ⟨files, image, _, _, made, found⟩ := dir_of_slot tables.filed all loads active
    refine ⟨(m.slots e active).1, _, ?_, named made⟩
    rw [listing]
    dsimp only
    rw [getAt_one, found, Option.map_some]
  · intro e active key i entry
    obtain ⟨files, image, inside, _, made, found⟩ := dir_of_slot tables.filed all loads active
    rw [listing_archive found] at entry
    obtain ⟨archive, below, rfl⟩ := Option.map_eq_some_iff.mp entry
    obtain ⟨s, mine, file, _, own, loads, _⟩ := slot_of_archive made below
    have inDir := (all.files e files inside s).mp mine
    obtain ⟨name, section', _⟩ := archiveImageNode_info loads
    refine ⟨s, inDir, ?_, ?_⟩
    · rw [section', own.own, (tables.filed.files s inDir.1).1]
    · rw [name, own.name, readable inDir.1]
  · intro e active s inDir
    obtain ⟨files, image, inside, _, made, found⟩ := dir_of_slot tables.filed all loads active
    have mine := (all.files e files inside s).mpr inDir
    obtain ⟨file, _, own, archive, loads, below⟩ := archive_of_slot h all active inside made mine
    obtain ⟨name, section', _⟩ := archiveImageNode_info loads
    refine ⟨archive.info, ?_, ?_, ?_⟩
    · rw [listing_archive found, below, Option.map_some]
    · rw [section', own.own, (tables.filed.files s inDir.1).1]
    · rw [name, own.name, readable inDir.1]
  · intro key i entry
    obtain ⟨archive, there, rfl⟩ := Option.map_eq_some_iff.mp entry
    obtain ⟨dir, found, _⟩ := steps_of_archive there
    obtain ⟨e, files, image, inside, _, _, _, isProc⟩ := slot_of_dir loads found
    exact absurd isProc (m.slots e ((all.dirs e).mp (List.mem_map_of_mem inside))).1

/-- The documents that are read, in blocks that follow one another. -/
theorem loadedFrom_images {store : Store ν} {next n : Nat} (later : 0 < next)
    (loads : List.Forall₂ (FromDir world.store.fs) loaded images)
    (blocks : blocksOf images = List.range' next n) (nextAddr : store.heap.nextAddr = next + n)
    (roots : store.heap.roots =
      images.flatMap fun dir => dir.archives.map ArchiveImage.document) :
    LoadedFrom True images store := by
  have each : ∀ dir ∈ images, ∀ file ∈ dir.archives, Stored Rereadable file.document := by
    intro dir mem file mem'
    obtain ⟨d, _, made⟩ := (mem_of_forall₂ loads).2 dir mem
    obtain ⟨s, _, own⟩ := (mem_of_forall₂ made.files).2 file mem'
    exact own.read.1
  have unnamed := fun dir mem file mem' => (each dir mem file mem').unnamed
  have apart : (blocksOf images).Nodup := blocks ▸ List.nodup_range'
  have bounds : ∀ i ∈ blocksOf images, next ≤ i ∧ i < next + n := by
    intro i mem
    rw [blocks, List.mem_range'_1] at mem
    exact mem
  have addresses : (store.heap.roots.flatMap addrs).Sublist (blocksOf images) := by
    rw [roots, List.flatMap_assoc, blocksOf]
    clear roots blocks apart bounds each unnamed loads
    induction images with
    | nil => exact .slnil
    | cons dir rest ih =>
      rw [List.flatMap_cons, List.flatMap_cons, List.flatMap_map]
      exact (List.sublist_cons_self _ _).append ih
  refine ⟨⟨⟨apart.sublist addresses, fun a mem => ?_⟩, ?_, ?_⟩, unnamed, ?_, ?_, ?_, ?_⟩
  · rw [nextAddr]
    exact (bounds a (addresses.subset mem)).2
  · intro dir mem file mem'
    rw [roots]
    exact List.mem_flatMap.mpr ⟨dir, mem, List.mem_map_of_mem mem'⟩
  · intro dir mem file mem' x inside array
    have stored := each dir mem file mem'
    refine ⟨((legible_of_stored stored).countable x inside).1, fun name named => ?_⟩
    exact (legalName_iff.mp ((stored.words x inside).1.2 name named)).2.1
  · exact fun dir mem file mem' => (each dir mem file mem').object
  · exact fun dir mem file mem' => legible_of_stored (each dir mem file mem')
  · exact nodup_loadedRoot unnamed apart fun zero => by
      have first := (bounds 0 zero).1
      omega
  · intro i mem
    rw [nextAddr]
    rcases mem_loadedRoot_idents unnamed mem with rfl | inside
    · omega
    · exact (bounds i inside).2

/-- Slots that such a world has been saved to are loaded as such a world. -/
theorem restorable_loaded (h : Restorable printed Rereadable world)
    (all : LoadsAll world.store.fs loaded)
    (loads : List.Forall₂ (FromDir world.store.fs) loaded images) {store : Store ν}
    (fs : store.fs = world.store.fs) (roots : store.heap.roots =
      images.flatMap fun dir => dir.archives.map ArchiveImage.document)
    (source : LoadedFrom True images store) :
    Restorable printed Rereadable ⟨loadedRoot images, store⟩ := by
  obtain ⟨⟨_, tables, _⟩, _, within⟩ := h.steady
  have fresh := (fine_loadedRoot source.loadable).regular
  have matching := matches_loaded h all loads
  have stored : ∀ D ∈ store.heap.roots, Stored Rereadable D := by
    intro D mem
    rw [roots] at mem
    obtain ⟨dir, inside, mem⟩ := List.mem_flatMap.mp mem
    obtain ⟨file, inside', rfl⟩ := List.mem_map.mp mem
    obtain ⟨d, _, made⟩ := (mem_of_forall₂ loads).2 dir inside
    obtain ⟨s, _, own⟩ := (mem_of_forall₂ made.files).2 file inside'
    exact own.read.1
  refine ⟨⟨⟨fresh, fs ▸ tables, proc_of_matches fresh matching⟩, ?_, fs ▸ within⟩,
    ⟨backed_loaded source, ?_⟩, ?_, ?_, ?_, ?_⟩
  · rw [fs]
    exact corresponds_of_matches fresh tables.filed matching
  · intro x mem
    obtain ⟨D, root, inside⟩ := List.mem_flatMap.mp mem
    exact ((stored D root).words x inside).1
  · intro x mem
    obtain ⟨D, root, inside⟩ := List.mem_flatMap.mp mem
    exact ((stored D root).words x inside).2
  · intro d dir found _
    obtain ⟨e, files, image, _, _, _, rfl, _⟩ := slot_of_dir loads found
    rw [dirImageNode_info]
    rfl
  · intro d a dir archive found below _
    obtain ⟨e, files, image, _, _, made, rfl, _⟩ := slot_of_dir loads found
    obtain ⟨s, _, file, _, _, loaded', _⟩ := slot_of_archive made below
    rw [dirImageNode_info]
    exact (archiveImageNode_info loaded').2.2
  · intro d a archive there _
    obtain ⟨dir, found, below⟩ := steps_of_archive there
    obtain ⟨e, files, image, inside, mem, made, rfl, _⟩ := slot_of_dir loads found
    obtain ⟨s, mine, file, mem', own, loaded', _⟩ := slot_of_archive made below
    have inDir := (all.files e files inside s).mp mine
    have document := own.read.1
    refine ⟨file.document, document, ?_, s, ?_, ?_⟩
    · exact (archive_mirrors document.shape document.unnamed document.object loaded').1
    · rw [(archiveImageNode_info loaded').2.1, own.own, (tables.filed.files s inDir.1).1]
    · rw [fs]
      exact own.read.2

/-- What is loaded from the slots of such a world is such a world. -/
theorem restorable_loadFilesystem (laws : NumberLaws ν) (h : Restorable printed Rereadable world)
    (free : ¬ DirActive world.store.fs lastDir ∧ ¬ FileActive world.store.fs lastFile)
    (store : Store ν) : Restorable printed Rereadable (loadFilesystem store world.store.fs) ∧
      (rootNode (loadFilesystem store world.store.fs).root).follow (.scope (fold procName)) =
        none := by
  obtain ⟨⟨regular, tables, proc⟩, corresponds, _⟩ := h.steady
  have m := matches_of_corresponds regular corresponds proc
  obtain ⟨loaded, done, complete⟩ := load_all_iff tables.filed
    (fun d active => (tables.dirFits d active).1) fun s active => (tables.fileFits s active).1
  have all := complete.mpr free
  obtain ⟨n, behind, blocks, loads⟩ := @loadDirs_spec ν _ world.store.fs laws loaded
    (fun d mem s mine => read_of_restorable h ((all.files d.1 d.2 mem s).mp mine).1)
    (store.heap.nextAddr + 1)
  have images : loadImages world.store.fs (store.heap.nextAddr + 1) =
      (loadDirs world.store.fs (store.heap.nextAddr + 1) loaded : List (DirImage ν) × Addr) := by
    rw [loadImages, done, Option.getD_some]
  rw [loadFilesystem, images]
  generalize (loadDirs world.store.fs (store.heap.nextAddr + 1) loaded : List (DirImage ν) × Addr) =
    result at behind blocks loads ⊢
  obtain ⟨images, next⟩ := result
  dsimp only at behind blocks loads ⊢
  constructor
  · exact restorable_loaded h all loads rfl rfl
      (loadedFrom_images (Nat.succ_pos _) loads blocks behind rfl)
  · cases found : (rootNode (loadedRoot images)).follow (.scope (fold procName)) with
    | none => rfl
    | some dir =>
      obtain ⟨e, files, image, inside, _, _, _, isProc⟩ := slot_of_dir loads found
      exact absurd isProc (m.slots e ((all.dirs e).mp (List.mem_map_of_mem inside))).1

end Trees

section Proc
variable {print : Item ν → Bytes} {fits : Item ν → Prop} {world : World ν} {key : Bytes} {n : Node}

/-- The directory that `procfs_rebuild` inserts, in blocks from `next` on. -/
def procAt (next : Addr) : Node :=
  procArchive (procArchive (ldrCreateDir next procName) (next + 1) jessName) (next + 2)
    (ofChars ['h', 'i', 's', 't', 'o', 'r', 'y'])

theorem key_procAt (next : Addr) : (procAt next).scopeKey = fold procName := by
  rw [procAt, scopeKey_procArchive, scopeKey_procArchive]
  rfl

theorem regular_procAt (next : Addr) : Regular 1 (procAt next) ∧
    ∀ archive ∈ (procAt next).nextScope.toList, archive.info.fsSection < 0 := by
  have bare : Regular 1 (ldrCreateDir next procName) := regular_leaf rfl rfl rfl rfl
  obtain ⟨jess, outside⟩ := outside_procArchive (next + 1) jessName bare nofun
  exact outside_procArchive (next + 2) _ jess outside

theorem file_procAt {next : Addr} {archive : Node}
    (found : (procAt next).follow (.scope key) = some archive) : ProcFile archive ∧
      ((archive.info.ident = next + 1 ∧ archive.info.scopeName = jessName) ∨
        (archive.info.ident = next + 2 ∧
          archive.info.scopeName = ofChars ['h', 'i', 's', 't', 'o', 'r', 'y'])) :=
  proc_files (mem_of_avlsearch Node.scopeKey found)

theorem follow_withProc (regular : Regular 0 (rootNode world.root))
    (missing : (rootNode world.root).follow (.scope (fold procName)) = none) :
    (rootNode (withProc world).root).follow (.scope (fold procName)) =
        some (procAt world.store.heap.nextAddr) ∧
      ∀ key, key ≠ fold procName → (rootNode (withProc world).root).follow (.scope key) =
        (rootNode world.root).follow (.scope key) := by
  have inserted : ∀ s, (rootNode (withProc world).root).follow s = _ :=
    @follow_insertScope (rootNode world.root) (procAt world.store.heap.nextAddr)
      regular.here.ordered
  constructor
  · rw [inserted, key_procAt, if_pos rfl, missing]
    rfl
  · intro key other
    rw [inserted, key_procAt, if_neg]
    exact fun same => other (Step.scope.inj same)

/-- The archives of the tree are those that were there, and those of `proc`. -/
theorem archive_withProc {d a : Bytes} {archive : Node} (regular : Regular 0 (rootNode world.root))
    (missing : (rootNode world.root).follow (.scope (fold procName)) = none)
    (there : (rootNode (withProc world).root).getAt (archiveAt d a) = some archive) :
    (d ≠ fold procName ∧ (rootNode world.root).getAt (archiveAt d a) = some archive) ∨
      (d = fold procName ∧
        (procAt world.store.heap.nextAddr).follow (.scope a) = some archive) := by
  obtain ⟨own, others⟩ := follow_withProc regular missing
  obtain ⟨dir, found, below⟩ := steps_of_archive there
  by_cases isProc : d = fold procName
  · subst isProc
    rw [own] at found
    obtain rfl := Option.some.inj found
    exact Or.inr ⟨rfl, below⟩
  · rw [others d isProc] at found
    exact Or.inl ⟨isProc, archive_of_steps found below⟩

theorem regular_withProc (regular : Regular 0 (rootNode world.root)) :
    Regular 0 (rootNode (withProc world).root) := by
  have proc := (regular_procAt world.store.heap.nextAddr).1
  refine regular_insertScope (n := rootNode world.root) regular proc ?_ nofun
  exact not_isItem (proc.here.stands : _ = Jsl.dir) nofun nofun

theorem matches_withProc {fs : FsLayout} (regular : Regular 0 (rootNode world.root))
    (missing : (rootNode world.root).follow (.scope (fold procName)) = none)
    (m : Matches (listing world.root) fs) : Matches (listing (withProc world).root) fs := by
  obtain ⟨_, others⟩ := follow_withProc regular missing
  have dirs : ∀ key, key ≠ fold procName →
      (listing (withProc world).root).dir key = (listing world.root).dir key := by
    intro key other
    simp only [listing, getAt_one, others key other]
  have archives : ∀ key, key ≠ fold procName →
      (listing (withProc world).root).archive key = (listing world.root).archive key := by
    intro key other
    funext key'
    simp only [listing, Node.getAt, others key other]
  constructor
  · intro key i entry outside
    rw [dirs key outside] at entry
    exact m.dirs key i entry outside
  · intro d active
    obtain ⟨outside, entry⟩ := m.slots d active
    rw [dirs _ outside]
    exact ⟨outside, entry⟩
  · intro d active key i entry
    rw [archives _ (m.slots d active).1] at entry
    exact m.archives d active key i entry
  · intro d active s inside
    rw [archives _ (m.slots d active).1]
    exact m.files d active s inside
  · intro key i entry
    obtain ⟨archive, there, rfl⟩ := Option.map_eq_some_iff.mp entry
    rcases archive_withProc regular missing there with ⟨other, _⟩ | ⟨_, below⟩
    · exact absurd rfl other
    · exact (regular_procAt _).2 archive (mem_of_avlsearch Node.scopeKey below)

theorem separate_withProc (separate : Separate world.store.heap) :
    Separate (withProc world).store.heap := by
  have raised : Separate { world.store.heap with nextAddr := world.store.heap.nextAddr + 1 } :=
    ⟨separate.apart, fun b mem => Nat.lt_succ_of_lt (separate.below b mem)⟩
  exact WriteEffects.separate_addRoot (WriteEffects.separate_addRoot raised .cjsonObject)
    .cjsonObject

theorem each_withProc {P : Addr → Option Bytes → Kind ν → Prop}
    (each : DocumentItems.Each P world.store.heap) (object : ∀ a, P a none .cjsonObject) :
    DocumentItems.Each P (withProc world).store.heap :=
  each_addRoot (each_addRoot each (object _) rfl) (object _) rfl

variable [DoubleText ν]

theorem backed_withProc (h : Backed (fun _ _ => True) world)
    (missing : (rootNode world.root).follow (.scope (fold procName)) = none) :
    Backed (fun _ _ => True) (withProc world) := by
  have old : ∀ {archive : Node} {d a : Bytes},
      (rootNode world.root).getAt (archiveAt d a) = some archive →
      ∃ i, archive.info.jsonptr = some i ∧ i < world.store.heap.nextAddr := by
    intro archive d a there
    obtain ⟨D, filed⟩ := h.filed d a archive there
    exact ⟨D.addr, filed.overlay.here.linked.ptr,
      h.separate.below _ (List.mem_flatMap.mpr ⟨D, filed.root, addr_mem_addrs D⟩)⟩
  refine ⟨regular_withProc h.regular, separate_withProc h.separate, ?_, ?_⟩
  · intro d a archive there
    rcases archive_withProc h.regular missing there with ⟨_, there⟩ | ⟨_, below⟩
    · obtain ⟨D, filed⟩ := h.filed d a archive there
      refine ⟨D, ?_, filed.overlay.mono ?_, filed.parentptr, filed.object, filed.unnamed⟩
      · exact List.mem_append_left _ (List.mem_append_left _ filed.root)
      · exact Nat.le_add_right _ 3
    · obtain ⟨file, place⟩ := file_procAt below
      refine ⟨.mk archive.info.ident none .cjsonObject [], ?_, over_procFile file, file.parentptr,
        rfl, rfl⟩
      rcases place with ⟨ident, _⟩ | ⟨ident, _⟩
      · rw [ident]
        exact List.mem_append_left _ (List.mem_append_right _ (List.mem_singleton_self _))
      · rw [ident]
        exact List.mem_append_right _ (List.mem_singleton_self _)
  · intro d a d' a' archive archive' there there' same
    rcases archive_withProc h.regular missing there with ⟨_, before⟩ | ⟨rfl, below⟩ <;>
      rcases archive_withProc h.regular missing there' with ⟨_, before'⟩ | ⟨rfl, below'⟩
    · exact h.apart d a d' a' archive archive' before before' same
    · obtain ⟨i, ptr, early⟩ := old before
      obtain ⟨file, place⟩ := file_procAt below'
      rw [ptr, file.ptr, Option.some.injEq] at same
      subst same
      rcases place with ⟨ident, _⟩ | ⟨ident, _⟩
      · exact absurd (ident ▸ early) (Nat.not_lt.mpr (Nat.le_add_right _ 1))
      · exact absurd (ident ▸ early) (Nat.not_lt.mpr (Nat.le_add_right _ 2))
    · obtain ⟨i, ptr, early⟩ := old before'
      obtain ⟨file, place⟩ := file_procAt below
      rw [ptr, file.ptr, Option.some.injEq] at same
      subst same
      rcases place with ⟨ident, _⟩ | ⟨ident, _⟩
      · exact absurd (ident ▸ early) (Nat.not_lt.mpr (Nat.le_add_right _ 1))
      · exact absurd (ident ▸ early) (Nat.not_lt.mpr (Nat.le_add_right _ 2))
    · obtain ⟨file, place⟩ := file_procAt below
      obtain ⟨file', place'⟩ := file_procAt below'
      rw [file.ptr, file'.ptr, Option.some.injEq] at same
      have named : archive.info.scopeName = archive'.info.scopeName := by
        rcases place with ⟨ident, name⟩ | ⟨ident, name⟩ <;>
          rcases place' with ⟨ident', name'⟩ | ⟨ident', name'⟩
        · rw [name, name']
        · omega
        · omega
        · rw [name, name']
      have key : fold archive.info.scopeName = a := key_of_avlsearch Node.scopeKey below
      have key' : fold archive'.info.scopeName = a' := key_of_avlsearch Node.scopeKey below'
      exact ⟨rfl, by rw [← key, named, key']⟩

/-- `proc` is new to the tree, and has no slots. -/
theorem restorable_withProc (h : Restorable print fits world)
    (missing : (rootNode world.root).follow (.scope (fold procName)) = none) :
    Restorable print fits (withProc world) := by
  obtain ⟨⟨⟨regular, tables, proc⟩, corresponds, within⟩, worded, unbroken, values, paths,
    recorded⟩ := h
  have m := matches_withProc regular missing (matches_of_corresponds regular corresponds proc)
  have regular' := regular_withProc regular
  obtain ⟨_, others⟩ := follow_withProc regular missing
  refine ⟨⟨⟨regular', tables, proc_of_matches regular' m⟩,
    corresponds_of_matches regular' tables.filed m, within⟩,
    ⟨backed_withProc worded.backed missing,
      each_withProc worded.each fun _ => ⟨Or.inl rfl, by simp⟩⟩,
    each_withProc unbroken fun _ => ⟨by simp, by simp⟩, ?_, ?_, ?_⟩
  · intro d dir found outside
    rw [others d outside] at found
    exact values d dir found outside
  · intro d a dir archive found below outside
    rw [others d outside] at found
    exact paths d a dir archive found below outside
  · intro d a archive there outside
    rcases archive_withProc regular missing there with ⟨_, before⟩ | ⟨isProc, _⟩
    · exact recorded d a archive before outside
    · exact absurd isProc outside

end Proc

section Commands

/-- The answers outside of `proc` rest on the directories and the archives there. -/
theorem sameAnswers_of_archives {root root' : Avl Node} (regular : Regular 0 (rootNode root))
    (dirs : ∀ d, d ≠ fold procName → ((rootNode root').follow (.scope d)).map Node.info =
      ((rootNode root).follow (.scope d)).map Node.info)
    (archives : ∀ d a, d ≠ fold procName → (rootNode root').getAt (archiveAt d a) =
      (rootNode root).getAt (archiveAt d a)) : SameAnswers root' root := by
  intro jrp persisted
  rw [rtSearch, rtSearch]
  cases key : jrp.segm with
  | nil => rfl
  | cons segm rest =>
    have outside : fold segm.name ≠ fold procName := persisted segm (by rw [key]; rfl)
    have info := dirs _ outside
    have below := fun a => archives (fold segm.name) a outside
    have search : ∀ tree : Avl Node, searchScope tree segm.name =
        (rootNode tree).follow (.scope (fold segm.name)) := fun _ => rfl
    rw [rtSearchLoop, rtSearchLoop, search, search]
    cases found : (rootNode root).follow (.scope (fold segm.name)) with
    | none =>
      rw [found, Option.map_none, Option.map_eq_none_iff] at info
      rw [info]
    | some dir =>
      rw [found] at info
      obtain ⟨dir', found', same⟩ := Option.map_eq_some_iff.mp info
      have level : dir.info.jsl = .dir := (regular.follow found).here.stands
      rw [found']
      simp only [same, level]
      cases rest with
      | nil => rfl
      | cons segm' rest =>
        rw [if_neg (List.cons_ne_nil _ _), if_neg (List.cons_ne_nil _ _), rtSearchLoop,
          rtSearchLoop, searchScope_eq_follow, searchScope_eq_follow]
        have archive := below (fold segm'.name)
        simp only [Node.getAt, found, found', Option.bind_some, Option.bind_fun_some] at archive
        rw [archive]

variable {print : Item ν → Bytes} {fits : Item ν → Prop} {world world' : World ν} {jrp : Jrp}
variable {leaf : Segment}

/-- A value below `proc.jess`. -/
def BelowJess (leaf : Segment) (segms : List Segment) : Prop :=
  segms = [⟨procName, -1, .dir⟩, ⟨jessName, -1, .archive⟩, leaf]

/-- No directory of the slots has the name `proc`. -/
theorem proc_outside {fs : FsLayout} {root : Avl Node} (m : Matches (listing root) fs)
    {name : Bytes} (isProc : fold name = fold procName) : fsSearchDirByname fs name = none := by
  rw [fsSearchDirByname, Option.map_eq_none_iff, List.find?_eq_none]
  intro e _ same
  obtain ⟨equal, active⟩ := of_decide_eq_true same
  rw [strcasecmp_eq_iff, isProc] at equal
  exact (m.slots e active).1 equal.symm

/-- The segments that are left when a name is missing. -/
theorem whole_left {root : Avl Node} {path : Path} {passed rest : List Segment} {segm : Segment}
    {n : Node} (regular : Regular 0 (rootNode world.root))
    (m : Matches (listing root) world.store.fs) (key : BelowJess leaf jrp.segm)
    (fitsNew : AllOrNothing.FitsNew leaf) (level : leaf.jsl ≠ .archive)
    (walk : Reach.Walks (rootNode world.root) jrp.segm path passed n (segm :: rest))
    (started : path ≠ []) : AllOrNothing.AppendWhole world.store.fs n (segm :: rest) := by
  rw [key] at walk
  cases walk with
  | stop => exact absurd rfl started
  | item found levelArray =>
    rw [(regular.follow found).here.stands] at levelArray
    cases levelArray
  | scope found _ _ further =>
    cases further with
    | stop =>
      have named : fold n.info.scopeName = fold procName := key_of_avlsearch Node.scopeKey found
      rw [AllOrNothing.AppendWhole]
      dsimp only
      rw [AllOrNothing.ArchiveWhole, AllOrNothing.slotFor, proc_outside m named]
      exact Or.inr (List.forall_mem_singleton.mpr fitsNew)
    | item found' levelArray =>
      rw [((regular.follow found).follow found').here.stands] at levelArray
      cases levelArray
    | scope found' _ _ further =>
      have suffix := Reach.suffix_of_walks further
      rcases List.suffix_cons_iff.mp suffix with same | none
      · obtain ⟨rfl, rfl⟩ := List.cons.inj same
        rw [AllOrNothing.AppendWhole]
        split <;> simp_all
      · simp at none

/-- What is missing below `proc.jess` is made, or nothing is. -/
theorem whole_jess {root : Avl Node} (regular : Regular 0 (rootNode world.root))
    (m : Matches (listing root) world.store.fs) (key : BelowJess leaf jrp.segm)
    (fitsNew : AllOrNothing.FitsNew leaf) (level : leaf.jsl ≠ .archive) :
    AllOrNothing.Whole world jrp := by
  intro node segms appends
  obtain ⟨reached, previous, reach, missing, found, there, rfl⟩ := appends.place
  cases Reach.reachedBy_root regular.built reach with
  | whole archive walk => simp [AllOrNothing.AppendWhole]
  | @missing path passed rest segm n archive walk missing' =>
    have started : path ≠ [] := by
      rintro rfl
      cases found
    obtain rfl : path = previous := Option.some.inj ((if_neg started).symm.trans found)
    obtain rfl := Option.some.inj ((Reach.getAt_of_walks walk).symm.trans there)
    have behind := whole_left regular m key fitsNew level walk started
    simpa using behind
  | @extend path passed rest segm n c archive walk found' levelArray level' next =>
    have suffix := Reach.suffix_of_walks walk
    have segms : List.drop ([] ++ passed).length ([] ++ passed ++ segm :: rest) = segm :: rest := by
      simp
    rw [segms, AllOrNothing.AppendWhole, level']
    intro _ s mem
    have last : (segm :: rest) = [leaf] := by
      rw [key] at suffix
      rcases List.suffix_cons_iff.mp suffix with same | suffix
      · obtain ⟨rfl, _⟩ := List.cons.inj same
        cases level'
      rcases List.suffix_cons_iff.mp suffix with same | suffix
      · obtain ⟨rfl, _⟩ := List.cons.inj same
        cases level'
      rcases List.suffix_cons_iff.mp suffix with same | suffix
      · exact same
      · simp at suffix
    obtain ⟨_, rfl⟩ := List.cons.inj last
    cases mem
  | entire => cases missing

/-- A key of the server under `proc.jess`. -/
structure JessKey (key : Bytes) : Prop where
  noEqual : equalSign ∉ key
  noCr : 13 ∉ key
  names : ∀ segms, rtSeparateSegment key = some segms → ∃ leaf : Segment, BelowJess leaf segms ∧
    AllOrNothing.FitsNew leaf ∧ leaf.jsl ≠ .archive ∧ ldrOrganizeScopeName leaf.name ≠ none ∧
    0 ∉ leaf.name

/-- A text that can stand behind the key of a command. -/
structure Plain (text : Bytes) : Prop where
  filled : text ≠ []
  line : ¬ crlf <:+: text
  noZero : 0 ∉ text

instance (text : Bytes) : Decidable (Plain text) :=
  decidable_of_iff (text ≠ [] ∧ ¬ crlf <:+: text ∧ 0 ∉ text)
    ⟨fun ⟨filled, line, noZero⟩ => ⟨filled, line, noZero⟩,
      fun ⟨filled, line, noZero⟩ => ⟨filled, line, noZero⟩⟩

variable [DoubleText ν]

theorem restorable_command {key value : Bytes} (h : Restorable print fits world)
    (room : ∀ D, fits D → (print D).length ≤ fsMaxFileSize) (jess : JessKey key)
    (plain : Plain value)
    (done : procfsConfigUpdate world (CheckpointFiles.command key value) = some world') :
    Restorable print fits world' ∧ SameAnswers world'.root world.root := by
  rw [procfsConfigUpdate_eq world jess.noCr plain.line] at done
  split at done
  · obtain rfl := Option.some.inj done
    exact ⟨h, fun _ _ => rfl⟩
  rename_i jrp parsed
  obtain ⟨u, updated, rfl⟩ := Option.map_eq_some_iff.mp done
  obtain ⟨own, valued, separated⟩ := jrp_of_command jess.noEqual parsed
  obtain ⟨leaf, segms, fitsNew, level, accepted, noZero⟩ := jess.names _ separated
  have received : Received jrp := ⟨_, parsed⟩
  have sound := h.steady.sound
  have m := matches_of_corresponds sound.regular h.steady.corresponds sound.proc
  have each : ∀ {P : Segment → Prop}, P ⟨procName, -1, .dir⟩ → P ⟨jessName, -1, .archive⟩ → P leaf →
      ∀ segm ∈ jrp.segm, P segm := by
    intro P first second third
    rw [segms]
    exact List.forall_mem_cons.mpr ⟨first, List.forall_mem_cons.mpr ⟨second,
      List.forall_mem_singleton.mpr third⟩⟩
  have dupvalue : jrp.dupvalue = value := by
    have pair := ((Payload.rtCreateJrp_iff.mp parsed).2.pair
      (List.mem_append_right _ (List.mem_cons_self ..))).2
    exact Option.some.inj (pair.symm.trans valued)
  have isProc : inProc jrp = true := by
    rw [inProc, segms, List.head?_cons, Option.any_some]
    exact decide_eq_true (strcasecmp_eq_iff.mpr rfl)
  -- the server answers nobody, and otherwise does what it does for a client
  have served : step print world (.write jrp) = some u.world := by
    have nonempty : ¬ (jrp.dupvalue = [] ∨ jrp.valuestring = none) := by
      rw [dupvalue, valued]
      rintro (empty | none)
      · exact plain.filled empty
      · simp at none
    change (proVariableWrite print world jrp).map Answered.world = _
    rw [proVariableWrite, if_neg nonempty, updated, Option.map_some, Option.map_some]
    split
    · rfl
    · rw [if_neg fun both => both.2 isProc]
  have roomy : NamesRoomy jrp := by
    have roomy : ∀ name ∈ [procName, jessName], SlotTables.Roomy name := by
      unfold SlotTables.Roomy
      decide
    intro segm mem
    rw [segms] at mem
    rcases List.mem_pair.mp mem with rfl | rfl
    · exact roomy procName (List.mem_cons_self ..)
    · exact roomy jessName (List.mem_cons_of_mem _ (List.mem_singleton_self _))
  have frame := frame_update sound.regular sound.tables received roomy segms updated
  refine ⟨restorable_write h received roomy ?_ ⟨?_, ?_⟩ room
    ⟨whole_jess sound.regular m segms fitsNew level, ?_⟩ served,
    sameAnswers_of_archives sound.regular (fun d _ => frame.dirs d)
      fun d a outside => frame.others d a fun here => outside here.1⟩
  · exact each (by decide) (by decide) accepted
  · exact each (by decide) (by decide) noZero
  · intro v same
    obtain rfl := Option.some.inj (valued.symm.trans same)
    exact plain.noZero
  · intro d a D after names outside
    rw [segms] at names
    obtain ⟨rfl, _⟩ := List.cons.inj names
    exact absurd rfl outside

theorem jessKey_of_segms {key : Bytes} {leaf : Segment} (noEqual : equalSign ∉ key)
    (noCr : 13 ∉ key)
    (segms : rtSeparateSegment key = some [⟨procName, -1, .dir⟩, ⟨jessName, -1, .archive⟩, leaf])
    (fitsNew : AllOrNothing.FitsNew leaf) (level : leaf.jsl ≠ .archive)
    (accepted : ldrOrganizeScopeName leaf.name ≠ none) (noZero : 0 ∉ leaf.name) : JessKey key := by
  refine ⟨noEqual, noCr, fun segms' separated => ?_⟩
  obtain rfl := Option.some.inj (segms.symm.trans separated)
  exact ⟨leaf, rfl, fitsNew, level, accepted, noZero⟩

/-- The keys of the commands of `procfs_rebuild`. -/
theorem jessKeys : ∀ key ∈ [versionKey, checkpointKey, addKey, pendingKey, timeoutKey],
    JessKey key := by
  have field : ∀ key : Bytes, equalSign ∉ key ∧ 13 ∉ key ∧
      ldrOrganizeScopeName (key.drop 10) ≠ none ∧ 0 ∉ key.drop 10 ∧
      rtSeparateSegment key = some [⟨procName, -1, .dir⟩, ⟨jessName, -1, .archive⟩,
        ⟨key.drop 10, -1, .field⟩] → JessKey key :=
    fun key ⟨noEqual, noCr, accepted, noZero, segms⟩ => jessKey_of_segms noEqual noCr segms
      (AllOrNothing.fitsNew_of_level nofun) nofun accepted noZero
  have segms : rtSeparateSegment addKey = some [⟨procName, -1, .dir⟩, ⟨jessName, -1, .archive⟩,
      ⟨checkpointName, jaSymAdd, .array⟩] := by decide +kernel
  simp only [List.forall_mem_cons]
  refine ⟨field _ ?_, field _ ?_, ?_, field _ ?_, field _ ?_, nofun⟩
  · decide +kernel
  · decide +kernel
  · exact jessKey_of_segms (by decide) (by decide) segms (fun _ => Or.inr rfl) nofun
      (by decide +kernel) (by decide)
  · decide +kernel
  · decide +kernel

/-- `procfs_rebuild` puts nothing outside of `proc`. -/
theorem restorable_procfsRebuild {version : Bytes} {files : List Bytes}
    (h : Restorable print fits world)
    (missing : (rootNode world.root).follow (.scope (fold procName)) = none)
    (room : ∀ D, fits D → (print D).length ≤ fsMaxFileSize) (plain : Plain version)
    (names : ∀ file ∈ files, Plain file)
    (done : procfsRebuild version files world = some world') :
    Restorable print fits world' ∧ SameAnswers world'.root world.root := by
  have start := restorable_withProc h missing
  have each : ∀ pair ∈ rebuildCommands version files, JessKey pair.1 ∧ Plain pair.2 := by
    intro pair inside
    simp only [rebuildCommands, List.mem_append, List.mem_cons, List.not_mem_nil, or_false,
      List.mem_map] at inside
    rcases inside with ((rfl | rfl) | ⟨file, found, rfl⟩) | rfl | rfl
    · exact ⟨jessKeys _ (by simp), plain⟩
    · exact ⟨jessKeys _ (by simp), by decide⟩
    · exact ⟨jessKeys _ (by simp), names file (List.mem_filter.mp found).1⟩
    · exact ⟨jessKeys _ (by simp), by decide⟩
    · exact ⟨jessKeys _ (by simp), by decide⟩
  have old : SameAnswers (withProc world).root world.root := by
    obtain ⟨_, others⟩ := follow_withProc h.steady.sound.regular missing
    refine sameAnswers_of_archives h.steady.sound.regular (fun d outside => ?_)
      fun d a outside => ?_
    · rw [others d outside]
    · rw [Node.getAt, Node.getAt, others d outside]
  rw [procfsRebuild] at done
  generalize rebuildCommands version files = pairs at each done
  generalize withProc world = mid at start old done
  induction pairs generalizing mid with
  | nil =>
    obtain rfl := Option.some.inj done
    exact ⟨start, old⟩
  | cons pair rest ih =>
    obtain ⟨next, first, later⟩ := Option.bind_eq_some_iff.mp done
    obtain ⟨⟨key, value⟩, others⟩ := List.forall_mem_cons.mp each
    obtain ⟨next', same⟩ := restorable_command start room key value first
    exact ih others _ next' (fun jrp persisted => (same jrp persisted).trans (old jrp persisted))
      later

variable [NumberFormat ν]

/-- The tree that a recovery loads answers as that which the slots were saved from. -/
theorem recovered_alike (laws : NumberLaws ν) (h : Restorable printed Rereadable world)
    (free : ¬ DirActive world.store.fs lastDir ∧ ¬ FileActive world.store.fs lastFile)
    (store : Store ν) {version : Bytes} {files : List Bytes} (plain : Plain version)
    (names : ∀ file ∈ files, Plain file)
    (done : procfsRebuild version files (loadFilesystem store world.store.fs) = some world') :
    Restorable printed Rereadable world' ∧ SameAnswers world'.root world.root := by
  obtain ⟨loaded, missing⟩ := restorable_loadFilesystem laws h free store
  have room : ∀ D : Item ν, Rereadable D → (printed D).length ≤ fsMaxFileSize :=
    fun D fits => Nat.le_of_lt fits.1
  obtain ⟨after, same⟩ := restorable_procfsRebuild loaded missing room plain names done
  -- both trees are what the loader makes of the slots
  have again := rebuilds_of_restorable laws loaded free
  have before := rebuilds_of_restorable laws h free
  refine ⟨after, fun jrp persisted => ?_⟩
  rw [same jrp persisted, ← again jrp persisted, ← before jrp persisted]
  rfl

end Commands

end Reloading
