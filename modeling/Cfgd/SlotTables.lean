import Cfgd.FsImage
import Cfgd.Transition

/-!
# The slot tables over runs

What each call of the fs does to the slots, and the invariant of the two tables: the
mask marks the archive slots in use, ids follow from the slot numbers, every archive
belongs to an active directory, and no name is given twice.
-/

namespace SlotTables

open CText FsImage Transition

def DirActive (fs : FsLayout) (d : Fin fsMaxDir) : Prop := 0 < (fs.dir d).id

def FileActive (fs : FsLayout) (s : Fin fsMaxArch) : Prop := 0 < (fs.archive s).id

instance (fs : FsLayout) (d : Fin fsMaxDir) : Decidable (DirActive fs d) :=
  inferInstanceAs (Decidable (0 < (fs.dir d).id))

instance (fs : FsLayout) (s : Fin fsMaxArch) : Decidable (FileActive fs s) :=
  inferInstanceAs (Decidable (0 < (fs.archive s).id))

/-- The archive slots of a directory. -/
def InDir (fs : FsLayout) (dirid : Int) (s : Fin fsMaxArch) : Prop :=
  FileActive fs s ∧ (fs.archive s).dirid = dirid

instance (fs : FsLayout) (dirid : Int) (s : Fin fsMaxArch) : Decidable (InDir fs dirid s) :=
  inferInstanceAs (Decidable (_ ∧ _))

def dirIdOf (d : Fin fsMaxDir) : Int := (1 + d) * 65536

/-- The name fits into the member `name` of its slot. -/
def Fits (name : Bytes) : Prop := name ≠ [] ∧ name.length < 64

/-- The name does not run on into the members behind `unused`. -/
def Roomy (name : Bytes) : Prop := name ≠ [] ∧ name.length < nameRoom

theorem Fits.roomy {name : Bytes} (fits : Fits name) : Roomy name :=
  ⟨fits.1, Nat.lt_trans fits.2 (by decide)⟩

/-- The invariant of the slot tables. -/
structure Filed (fs : FsLayout) : Prop where
  mask : ∀ s, fs.mask s = true ↔ FileActive fs s
  dirs : ∀ d, DirActive fs d → (fs.dir d).id = dirIdOf d
  files : ∀ s, FileActive fs s → (fs.archive s).fsSection = s ∧
    (∃ d, DirActive fs d ∧ (fs.archive s).dirid = (fs.dir d).id) ∧
    (fs.archive s).id = (fs.archive s).dirid + s + 1
  dirNames : ∀ d e, DirActive fs d → DirActive fs e →
    fold (fs.dir d).name = fold (fs.dir e).name → d = e
  fileNames : ∀ s t, FileActive fs s → FileActive fs t →
    (fs.archive s).dirid = (fs.archive t).dirid →
    fold (fs.archive s).readName = fold (fs.archive t).readName → s = t

section Searches
variable {fs : FsLayout}

theorem find_finRange {n : Nat} {p : Fin n → Bool} :
    ((List.finRange n).find? p = none ↔ ∀ i, p i = false) ∧
      ∀ i, (List.finRange n).find? p = some i → p i = true := by
  constructor
  · simp [List.find?_eq_none]
  · exact fun i hi => List.find?_some hi

/-- The directory that is found by name, and that none is found. -/
theorem dirByname_none {name : Bytes} : fsSearchDirByname fs name = none ↔
    ∀ d, DirActive fs d → fold name ≠ fold (fs.dir d).name := by
  rw [fsSearchDirByname, Option.map_eq_none_iff, find_finRange.1]
  simp only [decide_eq_false_iff_not, strcasecmp_eq_iff, not_and, DirActive]
  exact forall_congr' fun d =>
    ⟨fun h active same => h same active, fun h same active => h active same⟩

theorem fileByname_none {name : Bytes} {dirid : Int} : fsSearchFileByname fs name dirid = none ↔
    ∀ s, (fs.archive s).dirid = dirid → fold (fs.archive s).readName ≠ fold name := by
  rw [fsSearchFileByname, find_finRange.1]
  simp only [decide_eq_false_iff_not, strcasecmp_eq_iff, not_and, ne_eq]

/-- A section is the number of a slot. -/
theorem fileBysect_some {sectionNo : Int} {s : Fin fsMaxArch}
    (h : fsSearchFileBysect fs sectionNo = some s) : (s : Int) = sectionNo ∧ FileActive fs s := by
  rw [fsSearchFileBysect] at h
  simpa [FileActive] using find_finRange.2 s h

theorem fileBysect_none {sectionNo : Int} : fsSearchFileBysect fs sectionNo = none ↔
    ∀ s : Fin fsMaxArch, (s : Int) = sectionNo → ¬ FileActive fs s := by
  rw [fsSearchFileBysect, find_finRange.1]
  simp [FileActive]

end Searches

/-- The bytes of an `int` are read back as that `int`. -/
theorem bytesInt_intBytes {n : Int} (low : -2147483648 ≤ n) (high : n < 2147483648) :
    bytesInt (intBytes n) = n := by
  have bound := (BitVec.ofInt 32 n).isLt
  generalize hm : (BitVec.ofInt 32 n).toNat = m at bound
  have bytes : (intBytes n).foldr (fun b n => b.toNat + 256 * n) 0 = m := by
    simp [intBytes, hm, List.range, List.range.loop]
    omega
  rw [bytesInt, bytes, ← hm, BitVec.ofNat_toNat, BitVec.setWidth_eq, BitVec.toInt_ofInt]
  rw [Int.bmod_eq_of_le] <;> omega

theorem overrun_fits {offset : Nat} {name : Bytes} {old : Int} (fits : name.length < offset)
    (low : -2147483648 ≤ old) (high : old < 2147483648) : overrun offset name old = old := by
  have outside : (name ++ [0]).drop offset = [] := by
    rw [List.drop_eq_nil_iff, List.length_append, List.length_singleton]
    omega
  rw [overrun, outside]
  exact bytesInt_intBytes low high

/-- A name that fits changes nothing but the name. -/
theorem setName_fits {archive : FsArchive} {name : Bytes} (fits : Roomy name)
    (dirid : 0 ≤ archive.dirid ∧ archive.dirid < 2147483648)
    (size : 0 ≤ archive.size ∧ archive.size < 2147483648)
    (fsSection : 0 ≤ archive.fsSection ∧ archive.fsSection < 2147483648) :
    archive.setName name = { archive with name := name } := by
  have short := fits.2
  have room : nameRoom = 128 := rfl
  rw [FsArchive.setName, overrun_fits (by omega) (by omega) (by omega),
    overrun_fits (by omega) (by omega) (by omega), overrun_fits (by omega) (by omega) (by omega),
    if_pos (by omega), List.take_of_length_le (by omega)]

theorem readName_fits {archive : FsArchive} (fits : Roomy archive.name) :
    archive.readName = archive.name := by
  rw [FsArchive.readName, if_pos fits.2]

section Calls
variable {fs : FsLayout}

/-- `fs_allocate_dir` refuses, or takes a slot that was free for a new name. -/
theorem allocateDir_cases {name : Bytes} {fs' : FsLayout} {id : Int}
    (h : fsAllocateDir fs name = some (fs', id)) : (fs' = fs ∧ id < 0) ∨
      ∃ d, ¬ DirActive fs d ∧ fold name ≠ fold procName ∧
        (∀ e, DirActive fs e → fold name ≠ fold (fs.dir e).name) ∧ id = dirIdOf d ∧
        fs' = { fs with dir := Function.update fs.dir d ⟨dirIdOf d, name⟩ } := by
  rw [fsAllocateDir] at h
  split at h
  · obtain ⟨rfl, rfl⟩ := Prod.mk.inj (Option.some.inj h)
    exact Or.inl ⟨rfl, by decide⟩
  · rename_i notProc
    split at h
    · obtain ⟨rfl, rfl⟩ := Prod.mk.inj (Option.some.inj h)
      exact Or.inl ⟨rfl, by decide⟩
    · rename_i isNew
      split at h
      · obtain ⟨rfl, rfl⟩ := Prod.mk.inj (Option.some.inj h)
        exact Or.inl ⟨rfl, by decide⟩
      · rename_i d free
        split at h
        · cases h
        · obtain ⟨rfl, rfl⟩ := Prod.mk.inj (Option.some.inj h)
          have inactive := find_finRange.2 d free
          rw [decide_eq_true_eq] at inactive
          refine Or.inr ⟨d, Int.not_lt.mpr inactive, ?_, ?_, rfl, rfl⟩
          · rwa [strcasecmp_eq_iff] at notProc
          · rw [Bool.not_eq_true, Option.isSome_eq_false_iff, Option.isNone_iff_eq_none] at isNew
            exact dirByname_none.mp isNew

/-- The slot that `fs_allocate_file` fills. -/
def newFile (n : Fin fsMaxArch) (name : Bytes) (dirid size : Int) (data : Option Bytes) :
    FsArchive where
  id := dirid + n + 1
  name := name
  dirid := dirid
  size := size
  fsSection := n
  data := match data with
    | none => []
    | some data => data.take size.toNat

/-- The layout with one archive slot changed, and its bit of the mask. -/
def setFile (fs : FsLayout) (n : Fin fsMaxArch) (used : Bool) (archive : FsArchive) : FsLayout where
  mask := Function.update fs.mask n used
  dir := fs.dir
  archive := Function.update fs.archive n archive

theorem bitmask_eq (n : Fin fsMaxArch) (used : Bool) :
    fsSetSectionBitmask fs n used = { fs with mask := Function.update fs.mask n used } := by
  rw [fsSetSectionBitmask]
  congr
  funext i
  simp only [Function.update_apply, Fin.ext_iff, Int.natCast_inj]

/-- `fs_allocate_file` refuses, or takes a slot that was free for a new name. -/
theorem allocateFile_cases (filed : Filed fs) {name : Bytes} {dirid size : Int}
    {data : Option Bytes} (fits : Roomy name)
    (owner : ∃ d, DirActive fs d ∧ dirid = (fs.dir d).id) :
    ((fsAllocateFile fs name dirid size data).1 = fs ∧
        (fsAllocateFile fs name dirid size data).2 < 0) ∨
      ∃ n, ¬ FileActive fs n ∧
        (∀ s, (fs.archive s).dirid = dirid → fold (fs.archive s).readName ≠ fold name) ∧
        fsAllocateFile fs name dirid size data =
          (setFile fs n true (newFile n name dirid size data), (n : Int)) := by
  have negative : (-1 : Int) < 0 ∧ (-17 : Int) < 0 := by decide
  rw [fsAllocateFile]
  split
  · exact Or.inl ⟨rfl, negative.1⟩
  rename_i arguments
  split
  · exact Or.inl ⟨rfl, negative.2⟩
  rename_i isNew
  rw [Bool.not_eq_true, Option.isSome_eq_false_iff, Option.isNone_iff_eq_none] at isNew
  rw [fsSeekFreeFileLocation]
  cases free : fsSearchFreeSection fs with
  | none => exact Or.inl ⟨rfl, negative.1⟩
  | some n =>
    have unused : ¬ FileActive fs n := by
      intro active
      have marked := (filed.mask n).mpr active
      have unset := find_finRange.2 n free
      rw [marked] at unset
      cases unset
    have dirid_lt : 0 ≤ dirid ∧ dirid < 2147483648 := by
      obtain ⟨d, active, rfl⟩ := owner
      have bound : (d : Nat) < 128 := d.isLt
      rw [filed.dirs d active, dirIdOf]
      omega
    have section_lt : (n : Int) < 2147483648 := by
      have bound : (n : Nat) < 256 := n.isLt
      omega
    have named := @setName_fits { FsArchive.zero with
      id := dirid + n + 1, dirid := dirid, fsSection := n } name fits dirid_lt
        ⟨Int.le_refl 0, (by decide : (0 : Int) < 2147483648)⟩ ⟨by simp, section_lt⟩
    refine Or.inr ⟨n, unused, fileByname_none.mp isNew, ?_⟩
    dsimp only
    rw [if_pos (by rw [bitmask_eq]; exact Int.not_lt.mp unused)]
    dsimp only
    rw [named, bitmask_eq]
    cases data <;> simp [setFile, newFile, FsArchive.zero]

/-- `fs_delete_file` clears the slot of the section, if it is in use. -/
theorem deleteFile_cases (filed : Filed fs) (sectionNo : Int) :
    ((∀ s : Fin fsMaxArch, (s : Int) = sectionNo → ¬ FileActive fs s) ∧
        fsDeleteFile fs sectionNo = fs) ∨
      ∃ n : Fin fsMaxArch, (n : Int) = sectionNo ∧ FileActive fs n ∧
        fsDeleteFile fs sectionNo = setFile fs n false .zero := by
  rw [fsDeleteFile]
  cases found : fsSearchFileBysect fs sectionNo with
  | none => exact Or.inl ⟨fileBysect_none.mp found, rfl⟩
  | some n =>
    obtain ⟨same, active⟩ := fileBysect_some found
    refine Or.inr ⟨n, same, active, ?_⟩
    dsimp only
    rw [(filed.files n active).1, bitmask_eq]
    rfl

def setText (archive : FsArchive) (size : Int) (data : Bytes) : FsArchive :=
  { archive with size := size, data := data }

/-- `fs_override_file` changes size and data of one slot. -/
theorem overrideFile_cases (sectionNo : Int) (text : Option Bytes) :
    (fsOverrideFile fs sectionNo text).1 = fs ∨
      ∃ n size data, FileActive fs n ∧ (fsOverrideFile fs sectionNo text).1 =
        { fs with archive := Function.update fs.archive n (setText (fs.archive n) size data) } := by
  cases found : fsSearchFileBysect fs sectionNo with
  | none => simp [fsOverrideFile, found]
  | some n =>
    cases text with
    | none => simp [fsOverrideFile]
    | some text =>
      simp only [fsOverrideFile, found]
      split
      · exact Or.inr ⟨n, _, _, (fileBysect_some found).2, rfl⟩
      · exact Or.inl rfl

/-- The archives of a directory and the directory itself are gone. -/
def withoutDir (fs : FsLayout) (d : Fin fsMaxDir) : FsLayout where
  mask s := if InDir fs (fs.dir d).id s then false else fs.mask s
  dir := Function.update fs.dir d .zero
  archive s := if InDir fs (fs.dir d).id s then .zero else fs.archive s

/-- One turn of the loop in `fs_delete_dir`. -/
def dropFile (dirid : Int) (fs : FsLayout) (i : Fin fsMaxArch) : FsLayout :=
  if (fs.archive i).id > 0 ∧ (fs.archive i).dirid = dirid then
    let fs := fsSetSectionBitmask fs (fs.archive i).fsSection false
    { fs with archive := Function.update fs.archive i .zero }
  else fs

theorem dropFile_fold (dirid : Int) (l : List (Fin fsMaxArch)) (fs : FsLayout) :
    (l.foldl (fun fs i =>
      if (fs.archive i).id > 0 ∧ (fs.archive i).dirid = dirid then
        { fsSetSectionBitmask fs (fs.archive i).fsSection false with
          archive := Function.update
            (fsSetSectionBitmask fs (fs.archive i).fsSection false).archive i .zero }
      else fs) fs) = l.foldl (dropFile dirid) fs := rfl

theorem not_active_zero {s : Fin fsMaxArch} (empty : fs.archive s = .zero) :
    ¬ FileActive fs s := by
  intro active
  rw [FileActive, empty] at active
  cases active

theorem dropFile_spec {dirid : Int} (own : ∀ s, FileActive fs s → (fs.archive s).fsSection = s)
    (i : Fin fsMaxArch) : (dropFile dirid fs i).dir = fs.dir ∧
      (∀ s, (dropFile dirid fs i).mask s =
        if s = i ∧ InDir fs dirid s then false else fs.mask s) ∧
      ∀ s, (dropFile dirid fs i).archive s =
        if s = i ∧ InDir fs dirid s then .zero else fs.archive s := by
  rw [dropFile]
  split
  · rename_i drop
    have here : InDir fs dirid i := drop
    rw [own i drop.1, bitmask_eq]
    refine ⟨rfl, fun s => ?_, fun s => ?_⟩
    · by_cases same : s = i
      · subst same
        simp [here]
      · simp [same]
    · by_cases same : s = i
      · subst same
        simp [here]
      · simp [same]
  · rename_i keep
    have none : ∀ s, ¬ (s = i ∧ InDir fs dirid s) := by
      rintro s ⟨rfl, inside⟩
      exact keep inside
    exact ⟨rfl, fun s => by rw [if_neg (none s)], fun s => by rw [if_neg (none s)]⟩

/-- The turns of the loop clear the slots that they come to. -/
theorem dropFiles_spec {dirid : Int} {l : List (Fin fsMaxArch)}
    (own : ∀ s, FileActive fs s → (fs.archive s).fsSection = s) :
    (l.foldl (dropFile dirid) fs).dir = fs.dir ∧
      (∀ s, (l.foldl (dropFile dirid) fs).mask s =
        if s ∈ l ∧ InDir fs dirid s then false else fs.mask s) ∧
      ∀ s, (l.foldl (dropFile dirid) fs).archive s =
        if s ∈ l ∧ InDir fs dirid s then .zero else fs.archive s := by
  induction l generalizing fs with
  | nil => simp
  | cons i rest ih =>
    obtain ⟨dirs, masks, archives⟩ := @dropFile_spec fs dirid own i
    have active : ∀ s, FileActive (dropFile dirid fs i) s ↔
        FileActive fs s ∧ ¬ (s = i ∧ InDir fs dirid s) := by
      intro s
      have here := archives s
      by_cases drop : s = i ∧ InDir fs dirid s
      · rw [if_pos drop] at here
        exact iff_of_false (not_active_zero here) fun h => h.2 drop
      · rw [if_neg drop] at here
        simp [FileActive, here, drop]
    have own' : ∀ s, FileActive (dropFile dirid fs i) s →
        ((dropFile dirid fs i).archive s).fsSection = s := by
      intro s stays
      obtain ⟨was, keep⟩ := (active s).mp stays
      rw [archives, if_neg keep]
      exact own s was
    have inside : ∀ s, InDir (dropFile dirid fs i) dirid s ↔ InDir fs dirid s ∧ s ≠ i := by
      intro s
      constructor
      · rintro ⟨stays, same⟩
        obtain ⟨was, keep⟩ := (active s).mp stays
        rw [archives, if_neg keep] at same
        exact ⟨⟨was, same⟩, fun here => keep ⟨here, was, same⟩⟩
      · rintro ⟨hit, apart⟩
        have keep : ¬ (s = i ∧ InDir fs dirid s) := fun h => apart h.1
        refine ⟨(active s).mpr ⟨hit.1, keep⟩, ?_⟩
        rw [archives, if_neg keep]
        exact hit.2
    obtain ⟨dirs', masks', archives'⟩ := ih own'
    rw [List.foldl_cons]
    refine ⟨dirs'.trans dirs, fun s => ?_, fun s => ?_⟩
    · rw [masks', masks]
      by_cases same : s = i <;> by_cases hit : InDir fs dirid s <;> simp [inside, same, hit]
    · rw [archives', archives]
      by_cases same : s = i <;> by_cases hit : InDir fs dirid s <;> simp [inside, same, hit]

theorem fileActive_withoutDir {d : Fin fsMaxDir} {s : Fin fsMaxArch} :
    FileActive (withoutDir fs d) s ↔ FileActive fs s ∧ (fs.archive s).dirid ≠ (fs.dir d).id := by
  by_cases inside : InDir fs (fs.dir d).id s
  · have cleared : (withoutDir fs d).archive s = .zero := if_pos inside
    exact iff_of_false (not_active_zero cleared) fun h => h.2 inside.2
  · have same : (withoutDir fs d).archive s = fs.archive s := if_neg inside
    rw [FileActive, same]
    exact ⟨fun active => ⟨active, fun dirid => inside ⟨active, dirid⟩⟩, fun h => h.1⟩

theorem dirActive_withoutDir {d e : Fin fsMaxDir} :
    DirActive (withoutDir fs d) e ↔ DirActive fs e ∧ e ≠ d := by
  by_cases here : e = d
  · subst here
    have cleared : (withoutDir fs e).dir e = .zero := by simp [withoutDir]
    refine iff_of_false ?_ fun h => h.2 rfl
    rw [DirActive, cleared]
    exact nofun
  · have same : (withoutDir fs d).dir e = fs.dir e := by simp [withoutDir, here]
    rw [DirActive, same]
    exact ⟨fun active => ⟨active, here⟩, fun h => h.1⟩

/-- `fs_delete_dir` takes a directory and the archives in it away. -/
theorem deleteDir_cases (filed : Filed fs) (name : Bytes) :
    ((∀ d, DirActive fs d → fold name ≠ fold (fs.dir d).name) ∧ fsDeleteDir fs name = fs) ∨
      ∃ d, DirActive fs d ∧ fold name = fold (fs.dir d).name ∧
        fsDeleteDir fs name = withoutDir fs d := by
  rw [fsDeleteDir]
  cases found : (List.finRange fsMaxDir).find? fun i =>
      strcasecmp name (fs.dir i).name = .eq ∧ (fs.dir i).id > 0 with
  | none =>
    refine Or.inl ⟨dirByname_none.mp ?_, rfl⟩
    rw [fsSearchDirByname, found]
    rfl
  | some d =>
    have right := find_finRange.2 d found
    rw [decide_eq_true_eq, strcasecmp_eq_iff] at right
    refine Or.inr ⟨d, right.2, right.1, ?_⟩
    have own : ∀ s, FileActive { fs with dir := Function.update fs.dir d .zero } s →
        (fs.archive s).fsSection = s := fun s active => (filed.files s active).1
    obtain ⟨dirs, masks, archives⟩ := @dropFiles_spec
      { fs with dir := Function.update fs.dir d .zero } (fs.dir d).id (List.finRange fsMaxArch) own
    have parts : ∀ r : FsLayout, r = ⟨r.mask, r.dir, r.archive⟩ := fun _ => rfl
    dsimp only
    rw [dropFile_fold, parts (List.foldl ..), dirs, funext masks, funext archives]
    simp only [List.mem_finRange, true_and]
    rfl

end Calls

/-- What the runs keep besides: the names fit, and a slot that is not in use is zero. -/
structure Tables (fs : FsLayout) : Prop where
  filed : Filed fs
  dirFits : ∀ d, DirActive fs d → Roomy (fs.dir d).name
  fileFits : ∀ s, FileActive fs s → Roomy (fs.archive s).name
  dirEmpty : ∀ d, ¬ DirActive fs d → fs.dir d = .zero
  fileEmpty : ∀ s, ¬ FileActive fs s → fs.archive s = .zero

section Preserved
variable {fs : FsLayout}

theorem tables_zero : Tables .zero := by
  have noDir : ∀ d, ¬ DirActive .zero d := fun d active => by cases active
  have noFile : ∀ s, ¬ FileActive .zero s := fun s => not_active_zero rfl
  refine ⟨⟨?_, ?_, ?_, ?_, ?_⟩, ?_, ?_, fun _ _ => rfl, fun _ _ => rfl⟩
  · exact fun s => iff_of_false nofun (noFile s)
  · exact fun d active => absurd active (noDir d)
  · exact fun s active => absurd active (noFile s)
  · exact fun d e active => absurd active (noDir d)
  · exact fun s t active => absurd active (noFile s)
  · exact fun d active => absurd active (noDir d)
  · exact fun s active => absurd active (noFile s)

theorem dirIdOf_pos (d : Fin fsMaxDir) : 0 < dirIdOf d := by
  rw [dirIdOf]
  omega

/-- A new directory. -/
theorem tables_newDir (tables : Tables fs) {d : Fin fsMaxDir} (free : ¬ DirActive fs d)
    {name : Bytes} (fits : Roomy name)
    (isNew : ∀ e, DirActive fs e → fold name ≠ fold (fs.dir e).name) :
    Tables { fs with dir := Function.update fs.dir d ⟨dirIdOf d, name⟩ } := by
  obtain ⟨filed, dirFits, fileFits, dirEmpty, fileEmpty⟩ := tables
  generalize hnew : { fs with dir := Function.update fs.dir d ⟨dirIdOf d, name⟩ } = fs'
  have here : fs'.dir d = ⟨dirIdOf d, name⟩ := by rw [← hnew]; simp
  have other : ∀ e, e ≠ d → fs'.dir e = fs.dir e := by
    intro e apart
    rw [← hnew]
    simp [apart]
  have old : ∀ e, DirActive fs e → e ≠ d := fun e active same => free (same ▸ active)
  have files : fs'.mask = fs.mask ∧ fs'.archive = fs.archive := by rw [← hnew]; exact ⟨rfl, rfl⟩
  have was : ∀ e, e ≠ d → (DirActive fs' e ↔ DirActive fs e) := by
    intro e apart
    rw [DirActive, other e apart, DirActive]
  have fileWas : ∀ s, FileActive fs' s ↔ FileActive fs s := by
    intro s
    rw [FileActive, files.2, FileActive]
  refine ⟨⟨?_, ?_, ?_, ?_, ?_⟩, ?_, ?_, ?_, ?_⟩
  · intro s
    rw [files.1, fileWas]
    exact filed.mask s
  · intro e active
    by_cases same : e = d
    · rw [same, here]
    · rw [other e same]
      exact filed.dirs e ((was e same).mp active)
  · intro s active
    rw [files.2]
    obtain ⟨own, ⟨e, activeE, owner⟩, id⟩ := filed.files s ((fileWas s).mp active)
    have apart := old e activeE
    refine ⟨own, ⟨e, (was e apart).mpr activeE, ?_⟩, id⟩
    rw [other e apart]
    exact owner
  · intro e e' active active' same
    by_cases left : e = d
    · by_cases right : e' = d
      · rw [left, right]
      · rw [left, here, other e' right] at same
        exact absurd same (isNew e' ((was e' right).mp active'))
    · by_cases right : e' = d
      · rw [right, here, other e left] at same
        exact absurd same.symm (isNew e ((was e left).mp active))
      · rw [other e left, other e' right] at same
        exact filed.dirNames e e' ((was e left).mp active) ((was e' right).mp active') same
  · intro s t active active'
    rw [files.2]
    exact filed.fileNames s t ((fileWas s).mp active) ((fileWas t).mp active')
  · intro e active
    by_cases same : e = d
    · rw [same, here]
      exact fits
    · rw [other e same]
      exact dirFits e ((was e same).mp active)
  · intro s active
    rw [files.2]
    exact fileFits s ((fileWas s).mp active)
  · intro e inactive
    by_cases same : e = d
    · subst same
      rw [DirActive, here] at inactive
      exact absurd (dirIdOf_pos e) inactive
    · rw [other e same]
      exact dirEmpty e fun active => inactive ((was e same).mpr active)
  · intro s inactive
    rw [files.2]
    exact fileEmpty s fun active => inactive ((fileWas s).mpr active)

/-- An archive in a slot, be it a new one or one that was there. -/
theorem tables_setFile (tables : Tables fs) {n : Fin fsMaxArch} {archive : FsArchive}
    (own : archive.fsSection = n) (id : archive.id = archive.dirid + n + 1)
    (owner : ∃ d, DirActive fs d ∧ archive.dirid = (fs.dir d).id) (fits : Roomy archive.name)
    (isNew : ∀ s, s ≠ n → FileActive fs s → (fs.archive s).dirid = archive.dirid →
      fold (fs.archive s).readName ≠ fold archive.name) :
    Tables (setFile fs n true archive) := by
  obtain ⟨filed, dirFits, fileFits, dirEmpty, fileEmpty⟩ := tables
  generalize hnew : setFile fs n true archive = fs'
  have here : fs'.archive n = archive ∧ fs'.mask n = true := by
    rw [← hnew]
    simp [setFile]
  have other : ∀ s, s ≠ n → fs'.archive s = fs.archive s ∧ fs'.mask s = fs.mask s := by
    intro s apart
    rw [← hnew]
    simp [setFile, apart]
  have dirs : fs'.dir = fs.dir := by rw [← hnew]; rfl
  have dirWas : ∀ d, DirActive fs' d ↔ DirActive fs d := by
    intro d
    rw [DirActive, dirs, DirActive]
  have was : ∀ s, s ≠ n → (FileActive fs' s ↔ FileActive fs s) := by
    intro s apart
    rw [FileActive, (other s apart).1, FileActive]
  have active : FileActive fs' n := by
    obtain ⟨d, activeD, same⟩ := owner
    rw [FileActive, here.1, id, same]
    have positive : 0 < (fs.dir d).id := activeD
    omega
  have readNew : archive.readName = archive.name := readName_fits fits
  refine ⟨⟨?_, ?_, ?_, ?_, ?_⟩, ?_, ?_, ?_, ?_⟩
  · intro s
    by_cases same : s = n
    · rw [same]
      exact iff_of_true here.2 active
    · rw [(other s same).2, was s same]
      exact filed.mask s
  · intro d activeD
    rw [dirs]
    exact filed.dirs d ((dirWas d).mp activeD)
  · intro s activeS
    simp only [dirWas, dirs]
    by_cases same : s = n
    · rw [same, here.1]
      exact ⟨own, owner, id⟩
    · rw [(other s same).1]
      exact filed.files s ((was s same).mp activeS)
  · intro d e activeD activeE
    rw [dirs]
    exact filed.dirNames d e ((dirWas d).mp activeD) ((dirWas e).mp activeE)
  · intro s t activeS activeT dirid same
    by_cases left : s = n
    · by_cases right : t = n
      · rw [left, right]
      · rw [left, here.1, (other t right).1] at dirid same
        rw [readNew] at same
        exact absurd same.symm (isNew t right ((was t right).mp activeT) dirid.symm)
    · by_cases right : t = n
      · rw [right, here.1, (other s left).1] at dirid same
        rw [readNew] at same
        exact absurd same (isNew s left ((was s left).mp activeS) dirid)
      · rw [(other s left).1, (other t right).1] at dirid same
        exact filed.fileNames s t ((was s left).mp activeS) ((was t right).mp activeT) dirid same
  · intro d activeD
    rw [dirs]
    exact dirFits d ((dirWas d).mp activeD)
  · intro s activeS
    by_cases same : s = n
    · rw [same, here.1]
      exact fits
    · rw [(other s same).1]
      exact fileFits s ((was s same).mp activeS)
  · intro d inactive
    rw [dirs]
    exact dirEmpty d fun activeD => inactive ((dirWas d).mpr activeD)
  · intro s inactive
    have apart : s ≠ n := by
      rintro rfl
      exact inactive active
    rw [(other s apart).1]
    exact fileEmpty s fun activeS => inactive ((was s apart).mpr activeS)

/-- Slots that are cleared, when no archive is left without its directory. -/
theorem tables_dropped (tables : Tables fs) {fs' : FsLayout}
    (dirs : ∀ d, fs'.dir d = fs.dir d ∨ fs'.dir d = .zero)
    (files : ∀ s, (fs'.archive s = fs.archive s ∧ fs'.mask s = fs.mask s) ∨
      (fs'.archive s = .zero ∧ fs'.mask s = false))
    (owners : ∀ s d, FileActive fs' s → DirActive fs d → (fs.archive s).dirid = (fs.dir d).id →
      DirActive fs' d) : Tables fs' := by
  obtain ⟨filed, dirFits, fileFits, dirEmpty, fileEmpty⟩ := tables
  have dirKept : ∀ d, DirActive fs' d → fs'.dir d = fs.dir d ∧ DirActive fs d := by
    intro d active
    rcases dirs d with same | zero
    · exact ⟨same, by rwa [DirActive, same] at active⟩
    · rw [DirActive, zero] at active
      cases active
  have kept : ∀ s, FileActive fs' s →
      fs'.archive s = fs.archive s ∧ fs'.mask s = fs.mask s ∧ FileActive fs s := by
    intro s active
    rcases files s with ⟨same, mask⟩ | ⟨zero, _⟩
    · exact ⟨same, mask, by rwa [FileActive, same] at active⟩
    · exact absurd active (not_active_zero zero)
  refine ⟨⟨?_, ?_, ?_, ?_, ?_⟩, ?_, ?_, ?_, ?_⟩
  · intro s
    rcases files s with ⟨same, mask⟩ | ⟨zero, mask⟩
    · rw [mask, FileActive, same]
      exact filed.mask s
    · rw [mask]
      exact iff_of_false nofun (not_active_zero zero)
  · intro d active
    rw [(dirKept d active).1]
    exact filed.dirs d (dirKept d active).2
  · intro s active
    obtain ⟨same, _, was⟩ := kept s active
    obtain ⟨own, ⟨d, activeD, owner⟩, id⟩ := filed.files s was
    have stays := owners s d active activeD owner
    rw [same]
    refine ⟨own, ⟨d, stays, ?_⟩, id⟩
    rw [(dirKept d stays).1]
    exact owner
  · intro d e activeD activeE
    rw [(dirKept d activeD).1, (dirKept e activeE).1]
    exact filed.dirNames d e (dirKept d activeD).2 (dirKept e activeE).2
  · intro s t activeS activeT
    obtain ⟨sameS, _, wasS⟩ := kept s activeS
    obtain ⟨sameT, _, wasT⟩ := kept t activeT
    rw [sameS, sameT]
    exact filed.fileNames s t wasS wasT
  · intro d active
    rw [(dirKept d active).1]
    exact dirFits d (dirKept d active).2
  · intro s active
    obtain ⟨same, _, was⟩ := kept s active
    rw [same]
    exact fileFits s was
  · intro d inactive
    rcases dirs d with same | zero
    · rw [DirActive, same] at inactive
      rw [same]
      exact dirEmpty d inactive
    · exact zero
  · intro s inactive
    rcases files s with ⟨same, _⟩ | ⟨zero, _⟩
    · rw [FileActive, same] at inactive
      rw [same]
      exact fileEmpty s inactive
    · exact zero

end Preserved

/-- The calls of the fs. -/
inductive FsCall where
  | allocateDir (name : Bytes)
  | allocateFile (name : Bytes) (dirid size : Int) (data : Option Bytes)
  | deleteFile (sectionNo : Int)
  | deleteDir (name : Bytes)
  | clearConfig
  | overrideFile (sectionNo : Int) (jsonfiledata : Option Bytes)
  deriving DecidableEq, Repr

def step (fs : FsLayout) : FsCall → Option FsLayout
  | .allocateDir name => (fsAllocateDir fs name).map Prod.fst
  | .allocateFile name dirid size data => some (fsAllocateFile fs name dirid size data).1
  | .deleteFile sectionNo => some (fsDeleteFile fs sectionNo)
  | .deleteDir name => some (fsDeleteDir fs name)
  | .clearConfig => some (fsClearConfig fs)
  | .overrideFile sectionNo jsonfiledata => some (fsOverrideFile fs sectionNo jsonfiledata).1

/-- The names that are given fit, and archives are made in active directories. -/
def Proper (fs : FsLayout) : FsCall → Prop
  | .allocateDir name => Fits name
  | .allocateFile name dirid _ _ => Fits name ∧ ∃ d, DirActive fs d ∧ dirid = (fs.dir d).id
  | _ => True

/-- Every proper call keeps the tables in order. -/
theorem tables_step {fs fs' : FsLayout} {call : FsCall} (tables : Tables fs)
    (proper : Proper fs call) (h : step fs call = some fs') : Tables fs' := by
  have filed := tables.filed
  cases call with
  | allocateDir name =>
    obtain ⟨⟨_, id⟩, made, rfl⟩ := Option.map_eq_some_iff.mp h
    rcases allocateDir_cases made with ⟨rfl, _⟩ | ⟨d, free, _, isNew, _, rfl⟩
    · exact tables
    · exact tables_newDir tables free proper.roomy isNew
  | allocateFile name dirid size data =>
    obtain rfl := Option.some.inj h
    rcases @allocateFile_cases fs filed name dirid size data proper.1.roomy proper.2 with
      ⟨same, _⟩ | ⟨n, free, isNew, made⟩
    · rw [same]
      exact tables
    · rw [made]
      exact tables_setFile tables rfl rfl proper.2 proper.1.roomy fun s _ _ => isNew s
  | deleteFile sectionNo =>
    obtain rfl := Option.some.inj h
    rcases deleteFile_cases filed sectionNo with ⟨_, same⟩ | ⟨n, _, _, gone⟩
    · rw [same]
      exact tables
    · rw [gone]
      refine tables_dropped tables (fun d => Or.inl rfl) (fun s => ?_) fun s d _ active _ => active
      by_cases here : s = n
      · exact Or.inr (by simp [setFile, here])
      · exact Or.inl (by simp [setFile, here])
  | deleteDir name =>
    obtain rfl := Option.some.inj h
    rcases deleteDir_cases filed name with ⟨_, same⟩ | ⟨d, active, _, gone⟩
    · rw [same]
      exact tables
    · rw [gone]
      refine tables_dropped tables (fun e => ?_) (fun s => ?_) ?_
      · by_cases here : e = d
        · exact Or.inr (by simp [withoutDir, here])
        · exact Or.inl (by simp [withoutDir, here])
      · by_cases inside : InDir fs (fs.dir d).id s
        · exact Or.inr (by simp [withoutDir, inside])
        · exact Or.inl (by simp [withoutDir, inside])
      · intro s e activeS activeE owner
        obtain ⟨_, elsewhere⟩ := fileActive_withoutDir.mp activeS
        refine dirActive_withoutDir.mpr ⟨activeE, ?_⟩
        rintro rfl
        exact elsewhere owner
  | clearConfig =>
    obtain rfl := Option.some.inj h
    exact tables_zero
  | overrideFile sectionNo text =>
    obtain rfl := Option.some.inj h
    rcases @overrideFile_cases fs sectionNo text with same | ⟨n, size, data, active, made⟩
    · rw [same]
      exact tables
    · obtain ⟨own, owner, id⟩ := filed.files n active
      have fits := tables.fileFits n active
      have marked : Function.update fs.mask n true = fs.mask := by
        rw [← (filed.mask n).mpr active, Function.update_eq_self]
      have whole : (fsOverrideFile fs sectionNo text).1 =
          setFile fs n true (setText (fs.archive n) size data) := by
        rw [made, setFile, marked]
      rw [whole]
      refine tables_setFile tables own id owner fits fun s apart activeS dirid same => ?_
      have named : (fs.archive n).readName = (setText (fs.archive n) size data).name :=
        readName_fits fits
      rw [← named] at same
      exact apart (filed.fileNames s n activeS active dirid same)

/-- In every run of proper calls from the empty layout the tables are in order. -/
theorem filed_always {calls : List FsCall} (proper : Along step Proper .zero calls) :
    Always step Filed .zero calls :=
  always_mono (fun _ tables => tables.filed)
    (always_of_along (fun _ _ _ => tables_step) tables_zero proper)

def firstDir : Fin fsMaxDir := ⟨0, by decide⟩

/-- A directory with one archive, and its deletion. -/
def dirRun : List FsCall :=
  [.allocateDir (ofChars ['d']), .allocateFile (ofChars ['a']) 65536 0 none,
    .deleteDir (ofChars ['d'])]

theorem dirRun_proper : Along step Proper .zero dirRun := by
  have fits : ∀ c : Char, Fits (ofChars [c]) := fun c => ⟨nofun, by simp [ofChars]⟩
  refine ⟨fits 'd', fun t ht =>
    ⟨⟨fits 'a', firstDir, ?_⟩, fun _ _ => ⟨trivial, fun _ _ => trivial⟩⟩⟩
  have made : step .zero (.allocateDir (ofChars ['d'])) = some { FsLayout.zero with
      dir := Function.update FsLayout.zero.dir firstDir ⟨65536, ofChars ['d']⟩ } := rfl
  obtain rfl := Option.some.inj (made.symm.trans ht)
  exact ⟨by decide, rfl⟩

theorem filed_always_dirRun : Always step Filed .zero dirRun := filed_always dirRun_proper

end SlotTables
