import Cfgd.Catalog
import Cfgd.Transition

/-!
# The tree and the slots of the fs

Directories of the tree and of the fs stand for each other, and so do their archives: the
node of an archive carries the number of the slot that holds its text. Every request
keeps this, whatever it answers, and so does every run of requests.
-/

namespace Correspondence

open AvlTree CText CJson Request ConfigNode Loader FsImage SlotTables Runtime RegularTree Orders
open Catalog Transition

variable {ν : Type} [DoubleText ν]

/-- Two sets of things stand for each other, one to one. -/
structure OneToOne {α β : Type} (A : α → Prop) (B : β → Prop) (R : α → β → Prop) : Prop where
  forth : ∀ a, A a → ∃! b, B b ∧ R a b
  back : ∀ b, B b → ∃! a, A a ∧ R a b

/-- A directory of the tree other than `proc`. -/
def DirNode (root : Avl Node) (n : Node) : Prop :=
  n ∈ root.toList ∧ n.info.jsl = .dir ∧ fold n.info.scopeName ≠ fold procName

def ArchiveNode (dir n : Node) : Prop := n ∈ dir.nextScope.toList ∧ n.info.jsl = .archive

def SameDir (fs : FsLayout) (n : Node) (d : Fin fsMaxDir) : Prop :=
  n.info.scopeName = (fs.dir d).name

/-- The names agree up to the extension that the name in the slot may have. -/
def SameArchive (fs : FsLayout) (n : Node) (s : Fin fsMaxArch) : Prop :=
  n.info.fsSection = s ∧ n.info.scopeName = archiveScopeName (fs.archive s).name

structure Corresponds (root : Avl Node) (fs : FsLayout) : Prop where
  dirs : OneToOne (DirNode root) (DirActive fs) (SameDir fs)
  archives : ∀ dir d, DirNode root dir → DirActive fs d → SameDir fs dir d →
    OneToOne (ArchiveNode dir) (InDir fs (fs.dir d).id) (SameArchive fs)

/-- What the server's data keep to besides: the tree is regular, the slot tables are in
order, and the archives of `proc` have no slot. -/
structure Sound (world : World ν) : Prop where
  regular : Regular 0 (rootNode world.root)
  tables : Tables world.store.fs
  proc : ∀ dir ∈ world.root.toList, fold dir.info.scopeName = fold procName →
    ∀ archive ∈ dir.nextScope.toList, archive.info.fsSection < 0

section Matching

/-- The correspondence as it is seen from the names of a listing. -/
structure Matches (l : Listing) (fs : FsLayout) : Prop where
  dirs : ∀ key i, l.dir key = some i → key ≠ fold procName →
    ∃ d, DirActive fs d ∧ (fs.dir d).name = i.scopeName
  slots : ∀ d, DirActive fs d → fold (fs.dir d).name ≠ fold procName ∧
    ∃ i, l.dir (fold (fs.dir d).name) = some i ∧ i.scopeName = (fs.dir d).name
  archives : ∀ d, DirActive fs d → ∀ key i, l.archive (fold (fs.dir d).name) key = some i →
    ∃ s, InDir fs (fs.dir d).id s ∧ i.fsSection = s ∧
      i.scopeName = archiveScopeName (fs.archive s).name
  files : ∀ d, DirActive fs d → ∀ s, InDir fs (fs.dir d).id s →
    ∃ i, l.archive (fold (fs.dir d).name) (fold (archiveScopeName (fs.archive s).name)) = some i ∧
      i.fsSection = s ∧ i.scopeName = archiveScopeName (fs.archive s).name
  proc : ∀ key i, l.archive (fold procName) key = some i → i.fsSection < 0

/-- Everything in a listing stands under its name. -/
structure Named (l : Listing) : Prop where
  dirs : ∀ key i, l.dir key = some i → key = fold i.scopeName
  archives : ∀ key key' i, l.archive key key' = some i → key' = fold i.scopeName

theorem named_listing (root : Avl Node) : Named (listing root) := by
  constructor
  · intro key i found
    obtain ⟨n, hn, rfl⟩ := Option.map_eq_some_iff.mp found
    rw [getAt_one] at hn
    exact (key_of_avlsearch Node.scopeKey hn).symm
  · intro key key' i found
    obtain ⟨n, hn, rfl⟩ := Option.map_eq_some_iff.mp found
    rw [Node.getAt] at hn
    obtain ⟨dir, _, below⟩ := Option.bind_eq_some_iff.mp hn
    rw [getAt_one] at below
    exact (key_of_avlsearch Node.scopeKey below).symm

variable {l : Listing} {fs : FsLayout}

/-- Only the names and numbers in the slots matter. -/
theorem matches_congr {fs' : FsLayout} (m : Matches l fs) (dir : fs'.dir = fs.dir)
    (files : ∀ s, (fs'.archive s).id = (fs.archive s).id ∧
      (fs'.archive s).dirid = (fs.archive s).dirid ∧
      (fs'.archive s).name = (fs.archive s).name) : Matches l fs' := by
  have active : ∀ d, DirActive fs' d ↔ DirActive fs d := by
    intro d
    rw [DirActive, dir, DirActive]
  have inside : ∀ dirid s, InDir fs' dirid s ↔ InDir fs dirid s := by
    intro dirid s
    rw [InDir, FileActive, (files s).1, (files s).2.1, InDir, FileActive]
  have names : ∀ s, (fs'.archive s).name = (fs.archive s).name := fun s => (files s).2.2
  constructor
  · simpa only [active, dir] using m.dirs
  · simpa only [active, dir] using m.slots
  · simpa only [active, dir, inside, names] using m.archives
  · simpa only [active, dir, inside, names] using m.files
  · exact m.proc

theorem dirIdOf_inj {d e : Fin fsMaxDir} (h : dirIdOf d = dirIdOf e) : d = e := by
  rw [dirIdOf, dirIdOf] at h
  exact Fin.ext (by omega)

/-- Different directories have different ids. -/
theorem dir_of_id (filed : Filed fs) {d e : Fin fsMaxDir} (active : DirActive fs d)
    (active' : DirActive fs e) (same : (fs.dir d).id = (fs.dir e).id) : d = e := by
  rw [filed.dirs d active, filed.dirs e active'] at same
  exact dirIdOf_inj same

theorem fold_apart (filed : Filed fs) {d e : Fin fsMaxDir} (active : DirActive fs d)
    (active' : DirActive fs e) (apart : e ≠ d) : fold (fs.dir e).name ≠ fold (fs.dir d).name :=
  fun same => apart (filed.dirNames e d active' active same)

/-- A new directory in both. -/
theorem matches_addDir (tables : Tables fs) (m : Matches l fs) {d : Fin fsMaxDir}
    {info : NodeInfo} (free : ¬ DirActive fs d) (notProc : fold info.scopeName ≠ fold procName)
    (isNew : ∀ e, DirActive fs e → fold info.scopeName ≠ fold (fs.dir e).name) :
    Matches (l.addDir (fold info.scopeName) info)
      { fs with dir := Function.update fs.dir d ⟨dirIdOf d, info.scopeName⟩ } := by
  generalize hnew : { fs with dir := Function.update fs.dir d ⟨dirIdOf d, info.scopeName⟩ } = fs'
  have here : fs'.dir d = ⟨dirIdOf d, info.scopeName⟩ := by rw [← hnew]; simp
  have active : DirActive fs' d := by
    rw [DirActive, here]
    exact dirIdOf_pos d
  have archive : fs'.archive = fs.archive := by rw [← hnew]
  have inside : ∀ dirid s, InDir fs' dirid s ↔ InDir fs dirid s := by
    intro dirid s
    rw [InDir, FileActive, archive, InDir, FileActive]
  have other : ∀ e, DirActive fs e → DirActive fs' e ∧ fs'.dir e = fs.dir e := by
    intro e activeE
    have apart : e ≠ d := fun same => free (same ▸ activeE)
    have same : fs'.dir e = fs.dir e := by
      rw [← hnew]
      simp [apart]
    refine ⟨?_, same⟩
    rw [DirActive, same]
    exact activeE
  have was : ∀ e, DirActive fs' e → e = d ∨ (DirActive fs e ∧ fs'.dir e = fs.dir e) := by
    intro e activeE
    by_cases apart : e = d
    · exact Or.inl apart
    · have same : fs'.dir e = fs.dir e := by
        rw [← hnew]
        simp [apart]
      rw [DirActive, same] at activeE
      exact Or.inr ⟨activeE, same⟩
  constructor
  · intro key i found notProc'
    rw [Listing.addDir_dir] at found
    split at found
    · obtain rfl := Option.some.inj found
      exact ⟨d, active, by rw [here]⟩
    · obtain ⟨e, activeE, named⟩ := m.dirs key i found notProc'
      obtain ⟨activeE', same⟩ := other e activeE
      exact ⟨e, activeE', by rw [same, named]⟩
  · intro e activeE
    rcases was e activeE with rfl | ⟨old, same⟩
    · rw [here, Listing.addDir_dir, if_pos rfl]
      exact ⟨notProc, info, rfl, rfl⟩
    · rw [same, Listing.addDir_dir, if_neg (isNew e old).symm]
      exact m.slots e old
  · intro e activeE key i found
    rcases was e activeE with rfl | ⟨old, same⟩
    · rw [here, Listing.addDir_archive, if_pos rfl] at found
      cases found
    · rw [same, Listing.addDir_archive, if_neg (isNew e old).symm] at found
      simp only [same, inside, archive]
      exact m.archives e old key i found
  · intro e activeE s mine
    rw [inside] at mine
    rcases was e activeE with rfl | ⟨old, same⟩
    · -- the number of the new directory was not in use
      obtain ⟨_, ⟨e', active', owner⟩, _⟩ := tables.filed.files s mine.1
      rw [mine.2, here, tables.filed.dirs e' active'] at owner
      exact absurd (dirIdOf_inj owner ▸ active') free
    · rw [same] at mine
      rw [same, archive, Listing.addDir_archive, if_neg (isNew e old).symm]
      exact m.files e old s mine
  · intro key i found
    rw [Listing.addDir_archive, if_neg notProc.symm] at found
    exact m.proc key i found

/-- A directory that is taken out of both; `proc` is in the tree only. -/
theorem matches_dropDir (tables : Tables fs) (names : Named l) (m : Matches l fs)
    {info : NodeInfo} (there : l.dir (fold info.scopeName) = some info) :
    Matches (l.dropDir (fold info.scopeName)) (fsDeleteDir fs info.scopeName) := by
  rcases deleteDir_cases tables.filed info.scopeName with ⟨none, same⟩ | ⟨d, active, named, gone⟩
  · rw [same]
    have isProc : fold info.scopeName = fold procName := by
      by_contra other
      obtain ⟨d, active, named⟩ := m.dirs _ info there other
      exact none d active (by rw [named])
    rw [isProc]
    constructor
    · intro key i found notProc
      rw [Listing.dropDir_dir, if_neg notProc] at found
      exact m.dirs key i found notProc
    · intro d active
      obtain ⟨notProc, i, found, named⟩ := m.slots d active
      rw [Listing.dropDir_dir, if_neg notProc]
      exact ⟨notProc, i, found, named⟩
    · intro d active key i found
      rw [Listing.dropDir_archive, if_neg (m.slots d active).1] at found
      exact m.archives d active key i found
    · intro d active s mine
      rw [Listing.dropDir_archive, if_neg (m.slots d active).1]
      exact m.files d active s mine
    · intro key i found
      rw [Listing.dropDir_archive, if_pos rfl] at found
      cases found
  · rw [gone]
    have apart : ∀ e, DirActive (withoutDir fs d) e → DirActive fs e ∧
        (withoutDir fs d).dir e = fs.dir e ∧ fold (fs.dir e).name ≠ fold info.scopeName := by
      intro e activeE
      obtain ⟨old, other⟩ := dirActive_withoutDir.mp activeE
      refine ⟨old, by simp [withoutDir, other], ?_⟩
      rw [named]
      exact fold_apart tables.filed active old other
    have kept : ∀ e, DirActive fs e → e ≠ d → ∀ s, InDir fs (fs.dir e).id s ↔
        InDir (withoutDir fs d) (fs.dir e).id s := by
      intro e activeE other s
      have elsewhere : (fs.dir e).id ≠ (fs.dir d).id :=
        fun same => other (dir_of_id tables.filed activeE active same)
      constructor
      · rintro ⟨file, owner⟩
        have stays : ¬ InDir fs (fs.dir d).id s := fun mine => elsewhere (owner.symm.trans mine.2)
        refine ⟨fileActive_withoutDir.mpr ⟨file, ?_⟩, ?_⟩
        · rw [owner]
          exact elsewhere
        · rw [withoutDir]
          dsimp only
          rw [if_neg stays]
          exact owner
      · rintro ⟨file, owner⟩
        obtain ⟨old, outside⟩ := fileActive_withoutDir.mp file
        have stays : ¬ InDir fs (fs.dir d).id s := fun mine => outside mine.2
        refine ⟨old, ?_⟩
        rw [withoutDir] at owner
        dsimp only at owner
        rwa [if_neg stays] at owner
    have text : ∀ e, DirActive fs e → e ≠ d → ∀ s, InDir fs (fs.dir e).id s →
        (withoutDir fs d).archive s = fs.archive s := by
      intro e activeE other s mine
      have elsewhere : ¬ InDir fs (fs.dir d).id s := fun theirs =>
        other (dir_of_id tables.filed activeE active (mine.2.symm.trans theirs.2))
      exact if_neg elsewhere
    constructor
    · intro key i found notProc
      by_cases here : key = fold info.scopeName
      · rw [here, Listing.dropDir_dir, if_pos rfl] at found
        cases found
      · rw [Listing.dropDir_dir, if_neg here] at found
        obtain ⟨e, activeE, named'⟩ := m.dirs key i found notProc
        have other : e ≠ d := by
          rintro rfl
          rw [named', ← names.dirs key i found] at named
          exact here named.symm
        refine ⟨e, dirActive_withoutDir.mpr ⟨activeE, other⟩, ?_⟩
        rw [show (withoutDir fs d).dir e = fs.dir e by simp [withoutDir, other]]
        exact named'
    · intro e activeE
      obtain ⟨old, same, other⟩ := apart e activeE
      obtain ⟨notProc, i, found, named'⟩ := m.slots e old
      rw [same, Listing.dropDir_dir, if_neg other]
      exact ⟨notProc, i, found, named'⟩
    · intro e activeE key i found
      obtain ⟨old, same, other⟩ := apart e activeE
      rw [same, Listing.dropDir_archive, if_neg other] at found
      obtain ⟨s, mine, own, named'⟩ := m.archives e old key i found
      have apart' := (dirActive_withoutDir.mp activeE).2
      refine ⟨s, ?_, own, ?_⟩
      · rw [same]
        exact (kept e old apart' s).mp mine
      · rw [text e old apart' s mine]
        exact named'
    · intro e activeE s mine
      obtain ⟨old, same, other⟩ := apart e activeE
      have apart' := (dirActive_withoutDir.mp activeE).2
      rw [same] at mine
      have mine' := (kept e old apart' s).mpr mine
      rw [same, Listing.dropDir_archive, if_neg other, text e old apart' s mine']
      exact m.files e old s mine'
    · intro key i found
      have notProc := (m.slots d active).1
      rw [← named] at notProc
      rw [Listing.dropDir_archive, if_neg notProc.symm] at found
      exact m.proc key i found

theorem matches_empty : Matches .empty (fsClearConfig fs) := by
  have none : ∀ d, ¬ DirActive (fsClearConfig fs) d := fun d active => by cases active
  constructor
  · exact nofun
  · exact fun d active => absurd active (none d)
  · exact fun d active => absurd active (none d)
  · exact fun d active => absurd active (none d)
  · exact nofun

/-- What `rt_append` gets for a new archive: nothing where the fs has no such directory,
else a refusal or a slot that was free. -/
theorem allocateSection_cases (tables : Tables fs) {fs' : FsLayout} {dirName name : Bytes}
    {result : Option Int} (fits : Roomy name)
    (call : allocateSection fs dirName name = (fs', result)) :
    ((∀ d, DirActive fs d → fold dirName ≠ fold (fs.dir d).name) ∧ fs' = fs ∧
        result = some (-1)) ∨
      ∃ d, DirActive fs d ∧ fold dirName = fold (fs.dir d).name ∧
        ((fs' = fs ∧ result = none) ∨ ∃ n, ¬ FileActive fs n ∧
          (∀ s, InDir fs (fs.dir d).id s → fold (fs.archive s).name ≠ fold name) ∧
          fs' = setFile fs n true (newFile n name (fs.dir d).id 0 none) ∧
          result = some (n : Int)) := by
  rw [allocateSection] at call
  split at call
  · rename_i unknown
    obtain ⟨rfl, rfl⟩ := Prod.mk.inj call
    exact Or.inl ⟨dirByname_none.mp unknown, rfl, rfl⟩
  · rename_i slot known
    rw [fsSearchDirByname] at known
    obtain ⟨d, found, rfl⟩ := Option.map_eq_some_iff.mp known
    have fitting := find_finRange.2 d found
    rw [decide_eq_true_eq, strcasecmp_eq_iff] at fitting
    obtain ⟨named, active⟩ := fitting
    refine Or.inr ⟨d, active, named, ?_⟩
    rw [if_pos active] at call
    obtain ⟨rfl, rfl⟩ := Prod.mk.inj call
    rcases @allocateFile_cases fs tables.filed name (fs.dir d).id 0 none fits
      ⟨d, active, rfl⟩ with ⟨same, negative⟩ | ⟨n, free, isNew, made⟩
    · exact Or.inl ⟨same, if_pos negative⟩
    · refine Or.inr ⟨n, free, ?_, ?_, ?_⟩
      · intro s mine
        have other := isNew s mine.2
        rwa [readName_fits (tables.fileFits s mine.1)] at other
      · rw [made]
      · rw [made]
        exact if_neg (by omega)

theorem tables_allocateSection (tables : Tables fs) {fs' : FsLayout} {dirName name : Bytes}
    {result : Option Int} (fits : Roomy name)
    (call : allocateSection fs dirName name = (fs', result)) : Tables fs' := by
  rcases allocateSection_cases tables fits call with
    ⟨_, rfl, _⟩ | ⟨d, active, _, ⟨rfl, _⟩ | ⟨n, free, isNew, rfl, _⟩⟩
  · exact tables
  · exact tables
  · refine tables_setFile tables rfl rfl ⟨d, active, rfl⟩ fits fun s _ activeS owner same => ?_
    rw [readName_fits (tables.fileFits s activeS)] at same
    exact isNew s ⟨activeS, owner⟩ same

/-- No slot has the number that stands for none. -/
theorem deleteFile_outside {fsSection : Int} (outside : fsSection < 0) :
    fsDeleteFile fs fsSection = fs := by
  have none : fsSearchFileBysect fs fsSection = none :=
    fileBysect_none.mpr fun s same => absurd same (by omega)
  rw [fsDeleteFile, none]

/-- A slot that is taken and given back at once is as it was. -/
theorem undone (tables : Tables fs) {fs' : FsLayout} {dirName name : Bytes} {fsSection : Int}
    (fits : Roomy name) (call : allocateSection fs dirName name = (fs', some fsSection)) :
    fsDeleteFile fs' fsSection = fs := by
  have tables' := tables_allocateSection tables fits call
  rcases allocateSection_cases tables fits call with
    ⟨_, rfl, none⟩ | ⟨d, active, _, ⟨_, none⟩ | ⟨n, free, _, made, here⟩⟩
  · obtain rfl := Option.some.inj none
    exact deleteFile_outside (by omega)
  · cases none
  · obtain rfl := Option.some.inj here
    have taken : FileActive fs' n := by
      have id : (fs'.archive n).id = (fs.dir d).id + n + 1 := by simp [made, setFile, newFile]
      rw [DirActive] at active
      rw [FileActive, id]
      omega
    have unmarked : Function.update fs.mask n false = fs.mask := by
      rw [← Bool.eq_false_iff.mpr (mt (tables.filed.mask n).mp free), Function.update_eq_self]
    have empty : Function.update fs.archive n .zero = fs.archive := by
      rw [← tables.fileEmpty n free, Function.update_eq_self]
    rcases deleteFile_cases tables'.filed (n : Int) with ⟨untaken, _⟩ | ⟨n', same, _, gone⟩
    · exact absurd taken (untaken n rfl)
    · obtain rfl : n' = n := Fin.ext (by omega)
      rw [gone, made]
      simp only [setFile, Function.update_idem, unmarked, empty]

/-- Slots outside of every directory of the listing say nothing about its archives. -/
theorem matches_addArchive_proc (m : Matches l fs) {key key' : Bytes} {info : NodeInfo}
    (unknown : ∀ d, DirActive fs d → key ≠ fold (fs.dir d).name) (own : info.fsSection = -1) :
    Matches (l.addArchive key key' info) fs := by
  have other : ∀ d, DirActive fs d → ∀ k, (l.addArchive key key' info).archive
      (fold (fs.dir d).name) k = l.archive (fold (fs.dir d).name) k := by
    intro d active k
    rw [Listing.addArchive_archive, if_neg]
    exact fun here => unknown d active here.1.symm
  constructor
  · exact m.dirs
  · exact m.slots
  · intro d active k i found
    rw [other d active] at found
    exact m.archives d active k i found
  · intro d active s mine
    rw [other d active]
    exact m.files d active s mine
  · intro k i found
    rw [Listing.addArchive_archive] at found
    split at found
    · obtain rfl := Option.some.inj found
      omega
    · exact m.proc k i found

/-- A new archive in both. -/
theorem matches_addArchive (tables : Tables fs) (m : Matches l fs) {d : Fin fsMaxDir}
    {n : Fin fsMaxArch} {info : NodeInfo} (active : DirActive fs d) (free : ¬ FileActive fs n)
    (noDot : dot ∉ info.scopeName) (own : info.fsSection = n)
    (missing : l.archive (fold (fs.dir d).name) (fold info.scopeName) = none) :
    Matches (l.addArchive (fold (fs.dir d).name) (fold info.scopeName) info)
      (setFile fs n true (newFile n info.scopeName (fs.dir d).id 0 none)) := by
  generalize hnew : setFile fs n true (newFile n info.scopeName (fs.dir d).id 0 none) = fs'
  have dirs : fs'.dir = fs.dir := by rw [← hnew]; rfl
  have here : fs'.archive n = newFile n info.scopeName (fs.dir d).id 0 none := by
    rw [← hnew]
    simp [setFile]
  have other : ∀ s, s ≠ n → fs'.archive s = fs.archive s := by
    intro s apart
    rw [← hnew]
    simp [setFile, apart]
  have text : archiveScopeName (fs'.archive n).name = info.scopeName := by
    rw [here]
    exact if_neg noDot
  have mine : InDir fs' (fs.dir d).id n := by
    refine ⟨?_, by rw [here, newFile]⟩
    rw [DirActive] at active
    rw [FileActive, here, newFile]
    dsimp only
    omega
  have activeDir : ∀ e, DirActive fs' e ↔ DirActive fs e := by
    intro e
    rw [DirActive, dirs, DirActive]
  have kept : ∀ dirid s, InDir fs dirid s → s ≠ n ∧ InDir fs' dirid s := by
    intro dirid s inside
    have apart : s ≠ n := fun same => free (same ▸ inside.1)
    refine ⟨apart, ?_⟩
    rw [InDir, FileActive, other s apart]
    exact inside
  have was : ∀ dirid s, s ≠ n → InDir fs' dirid s → InDir fs dirid s := by
    intro dirid s apart inside
    rw [InDir, FileActive, other s apart] at inside
    exact inside
  have owner : ∀ e, DirActive fs e → InDir fs' (fs.dir e).id n → e = d := by
    intro e activeE inside
    rw [InDir, here] at inside
    exact dir_of_id tables.filed activeE active inside.2.symm
  constructor
  · intro key i found notProc
    rw [dirs]
    simpa only [activeDir] using m.dirs key i found notProc
  · intro e activeE
    rw [dirs]
    exact m.slots e ((activeDir e).mp activeE)
  · intro e activeE key i found
    rw [activeDir] at activeE
    rw [dirs] at found ⊢
    rw [Listing.addArchive_archive] at found
    split at found
    · rename_i place
      obtain rfl := Option.some.inj found
      obtain rfl := tables.filed.dirNames e d activeE active place.1
      exact ⟨n, mine, own, text.symm⟩
    · obtain ⟨s, inside, own', named⟩ := m.archives e activeE key i found
      obtain ⟨apart, inside'⟩ := kept _ s inside
      exact ⟨s, inside', own', by rw [other s apart, named]⟩
  · intro e activeE s inside
    rw [activeDir] at activeE
    rw [dirs] at inside ⊢
    by_cases apart : s = n
    · subst apart
      obtain rfl := owner e activeE inside
      rw [text, Listing.addArchive_archive, if_pos ⟨rfl, rfl⟩]
      exact ⟨info, rfl, own, rfl⟩
    · obtain ⟨i, found, own', named⟩ := m.files e activeE s (was _ s apart inside)
      rw [other s apart, Listing.addArchive_archive, if_neg]
      · exact ⟨i, found, own', named⟩
      · rintro ⟨sameDir, sameName⟩
        rw [sameDir, sameName, missing] at found
        cases found
  · intro key i found
    have notProc := (m.slots d active).1
    rw [Listing.addArchive_archive, if_neg fun place => notProc place.1.symm] at found
    exact m.proc key i found

/-- An archive that is taken out of both; those of `proc` have no slot. -/
theorem matches_dropArchive (tables : Tables fs) (names : Named l) (m : Matches l fs)
    {dir info : NodeInfo} (there : l.dir (fold dir.scopeName) = some dir)
    (found : l.archive (fold dir.scopeName) (fold info.scopeName) = some info) :
    Matches (l.dropArchive (fold dir.scopeName) (fold info.scopeName))
      (fsDeleteFile fs info.fsSection) := by
  by_cases inProc : fold dir.scopeName = fold procName
  · rw [inProc] at found ⊢
    rw [deleteFile_outside (m.proc _ info found)]
    have other : ∀ d, DirActive fs d → ∀ k, (l.dropArchive (fold procName)
        (fold info.scopeName)).archive (fold (fs.dir d).name) k =
          l.archive (fold (fs.dir d).name) k := by
      intro d active k
      rw [Listing.dropArchive_archive, if_neg]
      exact fun place => (m.slots d active).1 place.1
    constructor
    · exact m.dirs
    · exact m.slots
    · intro d active k i there'
      rw [other d active] at there'
      exact m.archives d active k i there'
    · intro d active s mine
      rw [other d active]
      exact m.files d active s mine
    · intro k i there'
      rw [Listing.dropArchive_archive] at there'
      split at there'
      · cases there'
      · exact m.proc k i there'
  · obtain ⟨d, active, named⟩ := m.dirs _ dir there inProc
    rw [← named] at found ⊢
    obtain ⟨n, mine, own, text⟩ := m.archives d active _ info found
    have gone : fsDeleteFile fs info.fsSection = setFile fs n false .zero := by
      rcases deleteFile_cases tables.filed info.fsSection with ⟨untaken, _⟩ | ⟨n', same, _, gone⟩
      · exact absurd mine.1 (untaken n own.symm)
      · obtain rfl : n' = n := Fin.ext (by omega)
        exact gone
    rw [gone]
    have inside : ∀ dirid s, InDir (setFile fs n false .zero) dirid s ↔
        s ≠ n ∧ InDir fs dirid s := by
      intro dirid s
      by_cases here : s = n
      · simp [InDir, FileActive, setFile, here, FsArchive.zero]
      · simp [InDir, FileActive, setFile, here]
    have other : ∀ s, s ≠ n → (setFile fs n false .zero).archive s = fs.archive s := by
      intro s apart
      simp [setFile, apart]
    constructor
    · exact m.dirs
    · exact m.slots
    · intro e activeE k i there'
      have activeE : DirActive fs e := activeE
      change (l.dropArchive _ _).archive (fold (fs.dir e).name) k = _ at there'
      rw [Listing.dropArchive_archive] at there'
      split at there'
      · cases there'
      · rename_i elsewhere
        obtain ⟨s, mine', own', text'⟩ := m.archives e activeE k i there'
        have apart : s ≠ n := by
          rintro rfl
          obtain rfl := dir_of_id tables.filed activeE active (mine'.2.symm.trans mine.2)
          refine elsewhere ⟨rfl, ?_⟩
          rw [names.archives _ _ i there', text', text]
        exact ⟨s, (inside _ s).mpr ⟨apart, mine'⟩, own', by rw [other s apart, text']⟩
    · intro e activeE s mine'
      have activeE : DirActive fs e := activeE
      obtain ⟨apart, mine'⟩ := (inside _ s).mp mine'
      obtain ⟨i, there', own', text'⟩ := m.files e activeE s mine'
      rw [other s apart]
      change ∃ i, (l.dropArchive _ _).archive (fold (fs.dir e).name) _ = some i ∧ _
      rw [Listing.dropArchive_archive, if_neg]
      · exact ⟨i, there', own', text'⟩
      · rintro ⟨sameDir, sameName⟩
        rw [sameDir, sameName, found] at there'
        obtain rfl := Option.some.inj there'
        exact apart (Fin.ext (by omega))
    · intro k i there'
      have notProc := (m.slots d active).1
      rw [Listing.dropArchive_archive, if_neg fun place => notProc place.1.symm] at there'
      exact m.proc k i there'

/-- What an effect makes of a listing and the slots that match. -/
theorem matches_effect {l' : Listing} {fs' : FsLayout} (tables : Tables fs) (names : Named l)
    (m : Matches l fs) (effect : Effect l fs l' fs') : Tables fs' ∧ Matches l' fs' := by
  cases effect with
  | none => exact ⟨tables, m⟩
  | save fsSection text =>
    refine ⟨@tables_step fs _ (.overrideFile fsSection text) tables trivial rfl, ?_⟩
    rcases @overrideFile_cases fs fsSection text with same | ⟨n, size, data, _, made⟩
    · rw [same]
      exact m
    · rw [made]
      refine matches_congr m rfl fun s => ?_
      by_cases here : s = n
      · subst here
        simp [setText]
      · simp [here]
  | mkdir fits call made =>
    rcases allocateDir_cases call with ⟨_, refused⟩ | ⟨d, free, notProc, isNew, _, rfl⟩
    · omega
    · exact ⟨tables_newDir tables free fits isNew, matches_addDir tables m free notProc isNew⟩
  | rmdir there =>
    exact ⟨@tables_step fs _ (.deleteDir _) tables trivial rfl,
      matches_dropDir tables names m there⟩
  | clear => exact ⟨tables_zero, matches_empty⟩
  | create there missing noDot fits call own =>
    refine ⟨tables_allocateSection tables fits call, ?_⟩
    rcases allocateSection_cases tables fits call with
      ⟨unknown, rfl, outside⟩ | ⟨d, active, named, ⟨_, refused⟩ | ⟨n, free, _, rfl, here⟩⟩
    · obtain rfl := Option.some.inj outside
      exact matches_addArchive_proc m unknown own
    · cases refused
    · obtain rfl := Option.some.inj here
      rw [named] at missing ⊢
      exact matches_addArchive tables m active free noDot own missing
  | refuse there fits call =>
    rcases allocateSection_cases tables fits call with
      ⟨_, _, outside⟩ | ⟨d, _, _, ⟨rfl, _⟩ | ⟨n, _, _, _, here⟩⟩
    · cases outside
    · exact ⟨tables, m⟩
    · cases here
  | undo there fits call =>
    rw [undone tables fits call]
    exact ⟨tables, m⟩
  | delete there found =>
    exact ⟨@tables_step fs _ (.deleteFile _) tables trivial rfl,
      matches_dropArchive tables names m there found⟩

end Matching

section Trees
variable {root : Avl Node} {fs : FsLayout}

theorem follow_iff {n m : Node} (ordered : Ordered Node.scopeKey n.nextScope) {key : Bytes} :
    n.follow (.scope key) = some m ↔ m ∈ n.nextScope.toList ∧ m.scopeKey = key := by
  constructor
  · intro found
    have named : m.scopeKey = key := key_of_avlsearch Node.scopeKey found
    refine ⟨(mem_toList_iff Node.scopeKey ordered).mpr ?_, named⟩
    rw [named]
    exact found
  · rintro ⟨mem, rfl⟩
    exact (mem_toList_iff Node.scopeKey ordered).mp mem

/-- The directories of a regular tree are what its listing shows. -/
theorem dirNode_iff (h : Regular 0 (rootNode root)) {n : Node} : DirNode root n ↔
    (rootNode root).follow (.scope (fold n.info.scopeName)) = some n ∧
      fold n.info.scopeName ≠ fold procName := by
  rw [follow_iff h.here.ordered]
  constructor
  · rintro ⟨mem, _, notProc⟩
    exact ⟨⟨mem, rfl⟩, notProc⟩
  · rintro ⟨⟨mem, _⟩, notProc⟩
    exact ⟨mem, (h.scopes n mem).here.stands, notProc⟩

theorem archiveNode_iff {dir n : Node} (h : Regular 1 dir) : ArchiveNode dir n ↔
    dir.follow (.scope (fold n.info.scopeName)) = some n := by
  rw [follow_iff h.here.ordered]
  constructor
  · rintro ⟨mem, _⟩
    exact ⟨mem, rfl⟩
  · rintro ⟨mem, _⟩
    exact ⟨mem, (h.scopes n mem).here.stands⟩

/-- The slots of archives with one name in one directory are one slot. -/
theorem file_of_section {s t : Fin fsMaxArch} {i : NodeInfo} (own : i.fsSection = s)
    (own' : i.fsSection = t) : s = t := Fin.ext (by omega)

theorem corresponds_of_matches (h : Regular 0 (rootNode root)) (filed : Filed fs)
    (m : Matches (listing root) fs) : Corresponds root fs := by
  constructor
  · constructor
    · intro n dirNode
      obtain ⟨found, notProc⟩ := (dirNode_iff h).mp dirNode
      obtain ⟨d, active, named⟩ := m.dirs _ _ (listing_dir found).2 notProc
      refine ⟨d, ⟨active, named.symm⟩, ?_⟩
      rintro e ⟨activeE, same⟩
      refine filed.dirNames e d activeE active ?_
      rw [← same, named]
    · intro d active
      obtain ⟨notProc, i, found, named⟩ := m.slots d active
      obtain ⟨n, place, rfl⟩ := Option.map_eq_some_iff.mp found
      rw [getAt_one, ← named] at place
      rw [← named] at notProc
      refine ⟨n, ⟨(dirNode_iff h).mpr ⟨place, notProc⟩, named⟩, ?_⟩
      rintro n' ⟨dirNode', same⟩
      have place' := ((dirNode_iff h).mp dirNode').1
      rw [show n'.info.scopeName = n.info.scopeName by rw [same, named], place] at place'
      exact (Option.some.inj place').symm
  · intro dir d dirNode active same
    obtain ⟨place, _⟩ := (dirNode_iff h).mp dirNode
    have regular := h.follow place
    have entries : ∀ key, (listing root).archive (fold (fs.dir d).name) key =
        (dir.follow (.scope key)).map Node.info := by
      intro key
      rw [← same]
      exact listing_archive place key
    constructor
    · intro n archiveNode
      have inside := (archiveNode_iff regular).mp archiveNode
      obtain ⟨s, mine, own, named⟩ := m.archives d active (fold n.info.scopeName) n.info
        (by rw [entries, inside]; rfl)
      refine ⟨s, ⟨mine, own, named⟩, ?_⟩
      rintro t ⟨_, own', _⟩
      exact (file_of_section own own').symm
    · intro s mine
      obtain ⟨i, found, own, named⟩ := m.files d active s mine
      rw [entries] at found
      obtain ⟨n, inside, rfl⟩ := Option.map_eq_some_iff.mp found
      rw [← named] at inside
      refine ⟨n, ⟨(archiveNode_iff regular).mpr inside, own, named⟩, ?_⟩
      rintro n' ⟨archiveNode', _, named'⟩
      have inside' := (archiveNode_iff regular).mp archiveNode'
      rw [show n'.info.scopeName = n.info.scopeName by rw [named', named], inside] at inside'
      exact (Option.some.inj inside').symm

theorem matches_of_corresponds (h : Regular 0 (rootNode root)) (c : Corresponds root fs)
    (proc : ∀ dir ∈ root.toList, fold dir.info.scopeName = fold procName →
      ∀ archive ∈ dir.nextScope.toList, archive.info.fsSection < 0) :
    Matches (listing root) fs := by
  have entry : ∀ d, DirActive fs d → ∃ n, DirNode root n ∧ SameDir fs n d ∧
      ∀ key, (listing root).archive (fold (fs.dir d).name) key =
        (n.follow (.scope key)).map Node.info := by
    intro d active
    obtain ⟨n, ⟨dirNode, same⟩, _⟩ := c.dirs.back d active
    refine ⟨n, dirNode, same, fun key => ?_⟩
    rw [← show n.info.scopeName = (fs.dir d).name from same]
    exact listing_archive ((dirNode_iff h).mp dirNode).1 key
  constructor
  · intro key i found notProc
    obtain ⟨n, place, rfl⟩ := Option.map_eq_some_iff.mp found
    rw [getAt_one] at place
    obtain ⟨rfl, _⟩ := listing_dir place
    obtain ⟨d, ⟨active, same⟩, _⟩ := c.dirs.forth n ((dirNode_iff h).mpr ⟨place, notProc⟩)
    exact ⟨d, active, same.symm⟩
  · intro d active
    obtain ⟨n, dirNode, same, _⟩ := entry d active
    obtain ⟨place, notProc⟩ := (dirNode_iff h).mp dirNode
    rw [← show n.info.scopeName = (fs.dir d).name from same]
    exact ⟨notProc, n.info, (listing_dir place).2, rfl⟩
  · intro d active key i found
    obtain ⟨dir, dirNode, same, entries⟩ := entry d active
    have regular := h.follow ((dirNode_iff h).mp dirNode).1
    rw [entries] at found
    obtain ⟨n, inside, rfl⟩ := Option.map_eq_some_iff.mp found
    obtain ⟨mem, rfl⟩ := (follow_iff regular.here.ordered).mp inside
    obtain ⟨s, ⟨mine, own, named⟩, _⟩ := (c.archives dir d dirNode active same).forth n
      ((archiveNode_iff regular).mpr inside)
    exact ⟨s, mine, own, named⟩
  · intro d active s mine
    obtain ⟨dir, dirNode, same, entries⟩ := entry d active
    have regular := h.follow ((dirNode_iff h).mp dirNode).1
    obtain ⟨n, ⟨archiveNode, own, named⟩, _⟩ :=
      (c.archives dir d dirNode active same).back s mine
    refine ⟨n.info, ?_, own, named⟩
    rw [entries, ← named, (archiveNode_iff regular).mp archiveNode]
    rfl
  · intro key i found
    obtain ⟨n, place, rfl⟩ := Option.map_eq_some_iff.mp found
    rw [Node.getAt] at place
    obtain ⟨dir, found', below⟩ := Option.bind_eq_some_iff.mp place
    rw [getAt_one] at below
    obtain ⟨mem, named⟩ := (follow_iff h.here.ordered).mp found'
    have regular := h.follow found'
    exact proc dir mem named n ((follow_iff regular.here.ordered).mp below).1

theorem proc_of_matches (h : Regular 0 (rootNode root)) (m : Matches (listing root) fs) :
    ∀ dir ∈ root.toList, fold dir.info.scopeName = fold procName →
      ∀ archive ∈ dir.nextScope.toList, archive.info.fsSection < 0 := by
  intro dir mem isProc archive inside
  have found := (follow_iff h.here.ordered).mpr ⟨mem, rfl⟩
  have regular := h.follow found
  have below : dir.follow (.scope (fold archive.info.scopeName)) = some archive :=
    (follow_iff regular.here.ordered).mpr ⟨inside, rfl⟩
  refine m.proc (fold archive.info.scopeName) archive.info ?_
  have entry := listing_archive found (fold archive.info.scopeName)
  rw [below, Node.scopeKey, isProc] at entry
  exact entry

end Trees

section Runs
variable {print : Item ν → Bytes} {world world' : World ν}

/-- The effects of a request: what it does, and at the end of a write the saving. -/
theorem effects_step {order : Order} (regular : Regular 0 (rootNode world.root))
    (m : Matches (listing world.root) world.store.fs) (received : Received order.jrp)
    (fits : NamesRoomy order.jrp) (done : step print world order = some world') :
    Regular 0 (rootNode world'.root) ∧ ∃ fs,
      Effect (listing world.root) world.store.fs (listing world'.root) fs ∧
        Effect (listing world'.root) fs (listing world'.root) world'.store.fs := by
  obtain ⟨answered, served, rfl⟩ := Option.map_eq_some_iff.mp done
  cases order with
  | mkdir jrp =>
    change proMkdir world jrp = some answered at served
    rw [proMkdir] at served
    split at served
    · obtain rfl := Option.some.inj served
      exact ⟨regular, _, .none _ _, .none _ _⟩
    · obtain ⟨result, call, rfl⟩ := Option.map_eq_some_iff.mp served
      -- a directory of this name in the tree would have a slot, and the fs refuse it
      have missing : ∀ segm fs id, jrp.segm = [segm] →
          fsAllocateDir world.store.fs segm.name = some (fs, id) → 0 ≤ id →
          (rootNode world.root).follow (.scope (fold segm.name)) = none := by
        intro segm fs id _ taken made
        rcases allocateDir_cases taken with ⟨_, refused⟩ | ⟨_, _, notProc, isNew, _, _⟩
        · omega
        · rw [Option.eq_none_iff_forall_ne_some]
          intro dir found
          obtain ⟨named, there⟩ := listing_dir found
          rw [← named] at there
          obtain ⟨e, active, same⟩ := m.dirs _ _ there notProc
          exact isNew e active (by rw [named, same])
      obtain ⟨regular', effect⟩ := effect_rtCreateDir regular fits missing call
      exact ⟨regular', _, effect, .none _ _⟩
  | rmdir jrp =>
    change proRmdir world jrp = some answered at served
    rw [proRmdir] at served
    split at served
    · obtain rfl := Option.some.inj served
      exact ⟨regular, _, .none _ _, .none _ _⟩
    · obtain ⟨result, call, rfl⟩ := Option.map_eq_some_iff.mp served
      obtain ⟨regular', effect⟩ := effect_rtRemoveDir regular call
      exact ⟨regular', _, effect, .none _ _⟩
  | write jrp => exact effects_proVariableWrite regular received fits served

/-- A request keeps the correspondence, whatever it answers. -/
theorem sound_step {order : Order} (sound : Sound world)
    (c : Corresponds world.root world.store.fs) (received : Received order.jrp)
    (fits : NamesRoomy order.jrp) (done : step print world order = some world') :
    Sound world' ∧ Corresponds world'.root world'.store.fs := by
  obtain ⟨regular, tables, proc⟩ := sound
  have m := matches_of_corresponds regular c proc
  obtain ⟨regular', fs, first, second⟩ := effects_step regular m received fits done
  obtain ⟨tables₁, m₁⟩ := matches_effect tables (named_listing _) m first
  obtain ⟨tables', m'⟩ := matches_effect tables₁ (named_listing _) m₁ second
  exact ⟨⟨regular', tables', proc_of_matches regular' m'⟩,
    corresponds_of_matches regular' tables'.filed m'⟩

/-- The tree and the slots correspond after every run of requests. -/
theorem corresponds_always {orders : List Order} (sound : Sound world)
    (start : Corresponds world.root world.store.fs)
    (received : ∀ order ∈ orders, Received order.jrp)
    (fits : ∀ order ∈ orders, NamesFit order.jrp) :
    Always (step print) (fun w => Corresponds w.root w.store.fs) world orders := by
  have along : Along (step print) (fun _ order => Received order.jrp ∧ NamesFit order.jrp)
      world orders :=
    along_of_forall (fun order mem => ⟨received order mem, fits order mem⟩) world
  have kept : ∀ w order w', Sound w ∧ Corresponds w.root w.store.fs →
      Received order.jrp ∧ NamesFit order.jrp → step print w order = some w' →
      Sound w' ∧ Corresponds w'.root w'.store.fs := by
    rintro w order w' ⟨sound, c⟩ ⟨received, fits⟩ done
    exact sound_step sound c received fits.roomy done
  exact always_mono (fun _ both => both.2) (always_of_along kept ⟨sound, start⟩ along)

end Runs

section Empty

/-- An archive below `proc` has no slot. -/
theorem outside_procArchive {proc : Node} (addr : Addr) (name : Bytes)
    (regular : Regular 1 proc) (outside : ∀ n ∈ proc.nextScope.toList, n.info.fsSection < 0) :
    Regular 1 (procArchive proc addr name) ∧
      ∀ n ∈ (procArchive proc addr name).nextScope.toList, n.info.fsSection < 0 := by
  have level : proc.info.jsl = .dir := regular.here.stands
  rw [procArchive]
  cases made : archiveNode proc name addr addr with
  | none => exact ⟨regular, outside⟩
  | some archive =>
    dsimp only
    have parts : archive.info.jsl = .archive ∧ archive.nextScope = .nil ∧ archive.array = [] ∧
        archive.info.arraysize = 0 ∧ archive.info.fsSection = -1 := by
      simp only [archiveNode] at made
      split at made
      · cases made
      · obtain rfl := Option.some.inj made
        simp [NodeInfo.blank]
    obtain ⟨archiveLevel, tree, array, size, own⟩ := parts
    constructor
    · exact regular_insertScope regular (regular_leaf tree array size archiveLevel)
        (not_isItem archiveLevel (by simp) (by simp)) (by simp [level])
    · intro n mem
      rw [insertScope, Node.nextScope_setNextScope,
        toList_avlinsert Node.scopeKey regular.here.ordered] at mem
      rcases mem_insertOrd Node.scopeKey mem with rfl | old
      · omega
      · exact outside n old

omit [DoubleText ν] in
theorem emptyServer_sound : Sound (emptyServer : World ν) := by
  have bare : Regular 1 (ldrCreateDir 1 procName) := regular_leaf rfl rfl rfl rfl
  obtain ⟨jess, outside⟩ := outside_procArchive 2 (ofChars ['j', 'e', 's', 's']) bare nofun
  obtain ⟨regular, outside'⟩ :=
    outside_procArchive 3 (ofChars ['h', 'i', 's', 't', 'o', 'r', 'y']) jess outside
  constructor
  · refine regular_insertScope (n := rootNode .nil) (c := procDir) regular_nil regular ?_ nofun
    exact not_isItem (regular.here.stands : procDir.info.jsl = .dir) nofun nofun
  · exact tables_zero
  · intro dir mem _
    obtain rfl := List.mem_singleton.mp mem
    exact outside'

omit [DoubleText ν] in
theorem emptyServer_corresponds :
    Corresponds (emptyServer : World ν).root (emptyServer : World ν).store.fs := by
  have noDir : ∀ n, ¬ DirNode (emptyServer : World ν).root n := by
    rintro n ⟨mem, _, notProc⟩
    obtain rfl := List.mem_singleton.mp mem
    exact notProc rfl
  constructor
  · constructor
    · exact fun n here => absurd here (noDir n)
    · intro d active
      cases active
  · exact fun n d here => absurd here (noDir n)

/-- The directory `d` is made, `d.a.x=1` is written and `d.a=deleted`, and `d` is removed. -/
def dirRequest : Jrp := ⟨[⟨ofChars ['d'], -1, .dir⟩], none, ofChars ['d'], []⟩

def writeRequest : Jrp where
  segm := [⟨ofChars ['d'], -1, .dir⟩, ⟨ofChars ['a'], -1, .archive⟩, ⟨ofChars ['x'], -1, .field⟩]
  valuestring := some (ofChars ['1'])
  dupkey := ofChars ['d', '.', 'a', '.', 'x']
  dupvalue := ofChars ['1']

def dropRequest : Jrp where
  segm := [⟨ofChars ['d'], -1, .dir⟩, ⟨ofChars ['a'], -1, .archive⟩]
  valuestring := some keywordDeleted
  dupkey := ofChars ['d', '.', 'a']
  dupvalue := keywordDeleted

def smallRun : List Order :=
  [.mkdir dirRequest, .write writeRequest, .write dropRequest, .rmdir dirRequest]

theorem smallRun_received : ∀ order ∈ smallRun, Received order.jrp := by
  have dir : Received dirRequest := ⟨ofChars ['d'], by decide +kernel⟩
  have write : Received writeRequest :=
    ⟨ofChars ['d', '.', 'a', '.', 'x', '=', '1'], by decide +kernel⟩
  have drop : Received dropRequest :=
    ⟨ofChars ['d', '.', 'a', '='] ++ keywordDeleted, by decide +kernel⟩
  simp only [smallRun, List.forall_mem_cons, Order.jrp]
  exact ⟨dir, write, drop, dir, nofun⟩

theorem smallRun_fits : ∀ order ∈ smallRun, NamesFit order.jrp := by
  simp only [smallRun, List.forall_mem_cons, Order.jrp, NamesFit, Fits]
  decide

/-- The small run on a server without a configuration. -/
theorem corresponds_always_smallRun : Always (step fun _ : Item Nat => [])
    (fun w => Corresponds w.root w.store.fs) emptyServer smallRun :=
  corresponds_always emptyServer_sound emptyServer_corresponds smallRun_received smallRun_fits

end Empty

end Correspondence
