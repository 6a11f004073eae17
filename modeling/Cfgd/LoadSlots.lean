import Cfgd.SlotTables

/-!
# Which slots are loaded at startup

The two loops that walk over the directory slots and, for each directory, over the
archive slots. What the seek functions return is the next cursor and the end of the
loop at once: the last slot of a table is found together with the end.
-/

namespace LoadSlots

open CText FsImage SlotTables

section Seek
variable (fs : FsLayout)

/-- `fs_seek_next_dir`: what it returns, and what it leaves in `*dirptr`. -/
def fsSeekNextDir (index : Int) : Int × Option (Fin fsMaxDir) :=
  if index < 0 ∨ fsMaxDir ≤ index then (-1, none)
  else
    let cursor := (List.finRange fsMaxDir).find? fun i : Fin fsMaxDir =>
      index ≤ i ∧ (fs.dir i).id > 0
    -- the test is on the argument and not on what was found
    let n : Int := match cursor with
      | some i => i + 1
      | none => fsMaxDir + 1
    (if fsMaxDir ≤ n then -1 else n, cursor)

/-- `fs_seek_next_file`. -/
def fsSeekNextFile (dirid index : Int) : Int × Option (Fin fsMaxArch) :=
  if index < 0 ∨ fsMaxArch ≤ index then (-1, none)
  else match (List.finRange fsMaxArch).find? fun i : Fin fsMaxArch =>
      index ≤ i ∧ (fs.archive i).id > 0 ∧ (fs.archive i).dirid = dirid with
    | some i => (if fsMaxArch ≤ (i : Int) + 1 then -1 else i + 1, some i)
    | none => (-1, none)

end Seek

/-- The slots for which the body of a loop over a table runs to its end. There is no
result when the loop does not stop within `fuel` turns. -/
def slotLoop {n : Nat} (seek : Int → Int × Option (Fin n)) (goesOn : Int → Bool)
    (unnamed : Fin n → Bool) : Nat → Int → Option (List (Fin n))
  | 0, _ => none
  | fuel + 1, next =>
    match seek next with
    | (next, cursor) =>
      if goesOn next then
        match cursor with
        | none => some []
        | some i =>
          if unnamed i then slotLoop seek goesOn unnamed fuel next
          else (slotLoop seek goesOn unnamed fuel next).map (i :: ·)
      else some []

/-- `ldr_filesystem_load_archive`: the archive slots that are loaded. -/
def ldrFilesystemLoadArchive (fs : FsLayout) (dirid : Int) : Option (List (Fin fsMaxArch)) :=
  slotLoop (fsSeekNextFile fs dirid) (fun next => 0 ≤ next)
    (fun s => (fs.archive s).name = []) (fsMaxArch + 1) 0

/-- `ldr_filesystem_load_dir`: the directory slots that are loaded, each with the archive
slots that are loaded below it. -/
def ldrFilesystemLoadDir (fs : FsLayout) :
    Option (List (Fin fsMaxDir × List (Fin fsMaxArch))) :=
  (slotLoop (fsSeekNextDir fs) (fun next => 0 < next)
    (fun d => (fs.dir d).name = []) (fsMaxDir + 1) 0).bind fun dirs =>
    dirs.mapM fun d => (ldrFilesystemLoadArchive fs (fs.dir d).id).map fun files => (d, files)

section Loop
variable {n : Nat} {seek : Int → Int × Option (Fin n)} {goesOn : Int → Bool}
variable {unnamed active : Fin n → Bool}

def firstFrom (active : Fin n → Bool) (k : Nat) : Option (Fin n) :=
  (List.finRange n).find? fun i : Fin n => k ≤ (i : Nat) ∧ active i

/-- A seek goes to the first active slot from the cursor on, and ends at the last slot. -/
structure Seeks (seek : Int → Int × Option (Fin n)) (active : Fin n → Bool) : Prop where
  found : ∀ k : Nat, k < n → ∀ i : Fin n, firstFrom active k = some i → (i : Nat) + 1 < n →
    seek k = ((i : Int) + 1, some i)
  stops : ∀ k : Nat, (∀ i : Fin n, firstFrom active k = some i → n ≤ (i : Nat) + 1) →
    (seek k).1 = -1

/-- `find?` finds the first one. -/
theorem find_first {p : Fin n → Bool} {i : Fin n} (h : (List.finRange n).find? p = some i) :
    ∀ j < i, p j = false := by
  intro j less
  obtain ⟨_, k, inside, at', before⟩ := List.find?_eq_some_iff_getElem.mp h
  rw [List.getElem_finRange] at at'
  have low : (j : Nat) < k := by
    rw [← at'] at less
    exact less
  have none := before j low
  simpa using none

/-- The loop visits the active slots in order, all but the last slot of the table. -/
theorem slotLoop_spec (seeks : Seeks seek active) (on : ∀ k : Nat, 0 < k → goesOn k = true)
    (off : goesOn (-1) = false) {fuel k : Nat} (enough : n < fuel + k) (inside : k ≤ n) :
    ∃ l, slotLoop seek goesOn unnamed fuel k = some l ∧ l.Pairwise (· < ·) ∧
      ∀ j, j ∈ l ↔ k ≤ (j : Nat) ∧ (j : Nat) + 1 < n ∧ active j = true ∧ unnamed j = false := by
  induction fuel generalizing k with
  | zero => omega
  | succ fuel ih =>
    -- no active slot is left before the end
    have ends : (seek k).1 = -1 →
        (∀ j : Fin n, k ≤ (j : Nat) → (j : Nat) + 1 < n → active j = false) →
        ∃ l, slotLoop seek goesOn unnamed (fuel + 1) k = some l ∧ l.Pairwise (· < ·) ∧
          ∀ j, j ∈ l ↔
            k ≤ (j : Nat) ∧ (j : Nat) + 1 < n ∧ active j = true ∧ unnamed j = false := by
      intro last none
      refine ⟨[], ?_, .nil, fun j => iff_of_false (List.not_mem_nil) ?_⟩
      · obtain ⟨cursor, same⟩ : ∃ cursor, seek k = (-1, cursor) := ⟨_, Prod.ext last rfl⟩
        rw [slotLoop, same]
        simp only [off, Bool.false_eq_true, if_false]
      · rintro ⟨above, before, isActive, _⟩
        rw [none j above before] at isActive
        cases isActive
    cases first : firstFrom active k with
    | none =>
      have none := find_finRange.1.mp first
      refine ends (seeks.stops k fun i hi => ?_) fun j above _ => ?_
      · rw [first] at hi
        cases hi
      · simpa [above] using none j
    | some i =>
      have here := find_finRange.2 i first
      rw [decide_eq_true_eq] at here
      have before := find_first first
      by_cases more : (i : Nat) + 1 < n
      · have next := seeks.found k (by omega) i first more
        obtain ⟨l, rest, sorted, mem⟩ := @ih ((i : Nat) + 1) (by omega) (by omega)
        rw [Int.natCast_succ] at rest
        have goes : goesOn ((i : Int) + 1) = true := on ((i : Nat) + 1) (Nat.succ_pos _)
        rw [slotLoop, next]
        simp only [goes, if_true, rest, Option.map_some]
        have visited : ∀ j : Fin n, k ≤ (j : Nat) ∧ (j : Nat) + 1 < n ∧ active j = true ∧
            unnamed j = false ↔ (j = i ∧ unnamed i = false) ∨ j ∈ l := by
          intro j
          rw [mem]
          constructor
          · rintro ⟨above, inside, isActive, named⟩
            rcases Nat.lt_trichotomy j i with less | same | more
            · have none := before j less
              simp [above, isActive] at none
            · obtain rfl := Fin.ext same
              exact Or.inl ⟨rfl, named⟩
            · exact Or.inr ⟨more, inside, isActive, named⟩
          · rintro (⟨rfl, named⟩ | ⟨above, rest⟩)
            · exact ⟨here.1, more, here.2, named⟩
            · exact ⟨by omega, rest⟩
        split
        · rename_i skipped
          exact ⟨l, rfl, sorted, fun j => by rw [visited]; simp [skipped]⟩
        · rename_i named
          refine ⟨i :: l, rfl, List.pairwise_cons.mpr ⟨fun j hj => ?_, sorted⟩, fun j => ?_⟩
          · have above := ((mem j).mp hj).1
            exact Fin.lt_def.mpr (by omega)
          · rw [visited, List.mem_cons]
            simp [named]
      · refine ends (seeks.stops k fun j hj => ?_) fun j above inside => ?_
        · obtain rfl := Option.some.inj (first.symm.trans hj)
          omega
        · have none := before j (Fin.lt_def.mpr (by omega))
          simpa [above] using none

end Loop

section Tables
variable {fs : FsLayout}

theorem seeks_dir : Seeks (fsSeekNextDir fs) fun d => DirActive fs d := by
  have search : ∀ k : Nat, ((List.finRange fsMaxDir).find? fun i : Fin fsMaxDir =>
      (k : Int) ≤ i ∧ (fs.dir i).id > 0) = firstFrom (fun d => DirActive fs d) k := by
    intro k
    rw [firstFrom]
    congr
    funext i
    apply decide_eq_decide.mpr
    rw [decide_eq_true_iff, Int.ofNat_le]
    rfl
  constructor
  · intro k inside i first more
    have index : ¬ ((k : Int) < 0 ∨ (fsMaxDir : Int) ≤ k) := by omega
    have below : ¬ (fsMaxDir : Int) ≤ (i : Int) + 1 := by omega
    simp only [fsSeekNextDir, if_neg index, search, first, if_neg below]
  · intro k last
    rw [fsSeekNextDir]
    split
    · rfl
    · simp only [search]
      cases first : firstFrom (fun d => DirActive fs d) k with
      | none => rfl
      | some i =>
        have past : (fsMaxDir : Int) ≤ (i : Int) + 1 := by
          have bound := last i first
          omega
        simp only [if_pos past]

theorem seeks_file (dirid : Int) : Seeks (fsSeekNextFile fs dirid) fun s => InDir fs dirid s := by
  have search : ∀ k : Nat, ((List.finRange fsMaxArch).find? fun i : Fin fsMaxArch =>
      (k : Int) ≤ i ∧ (fs.archive i).id > 0 ∧ (fs.archive i).dirid = dirid) =
        firstFrom (fun s => InDir fs dirid s) k := by
    intro k
    rw [firstFrom]
    congr
    funext i
    apply decide_eq_decide.mpr
    rw [decide_eq_true_iff, Int.ofNat_le]
    rfl
  constructor
  · intro k inside i first more
    have index : ¬ ((k : Int) < 0 ∨ (fsMaxArch : Int) ≤ k) := by omega
    have below : ¬ (fsMaxArch : Int) ≤ (i : Int) + 1 := by omega
    simp only [fsSeekNextFile, if_neg index, search, first, if_neg below]
  · intro k last
    rw [fsSeekNextFile]
    split
    · rfl
    · simp only [search]
      cases first : firstFrom (fun s => InDir fs dirid s) k with
      | none => rfl
      | some i =>
        have past : (fsMaxArch : Int) ≤ (i : Int) + 1 := by
          have bound := last i first
          omega
        simp only [if_pos past]

/-- The archives of a directory are loaded in order, all but one in the last slot. -/
theorem loadArchive_spec (fileNamed : ∀ s, FileActive fs s → (fs.archive s).name ≠ [])
    (dirid : Int) : ∃ files, ldrFilesystemLoadArchive fs dirid = some files ∧ files.Nodup ∧
      ∀ s, s ∈ files ↔ (s : Nat) + 1 < fsMaxArch ∧ InDir fs dirid s := by
  obtain ⟨files, loop, sorted, mem⟩ := @slotLoop_spec fsMaxArch (fsSeekNextFile fs dirid)
    (fun next => 0 ≤ next) (fun s => (fs.archive s).name = []) _ (seeks_file dirid)
    (fun k _ => by simp) rfl (fsMaxArch + 1) 0 (by omega) (Nat.zero_le _)
  refine ⟨files, loop, sorted.imp fun less => Fin.ne_of_lt less, fun s => ?_⟩
  rw [mem]
  constructor
  · rintro ⟨_, inside, active, _⟩
    exact ⟨inside, of_decide_eq_true active⟩
  · rintro ⟨inside, active⟩
    exact ⟨Nat.zero_le _, inside, decide_eq_true active, decide_eq_false (fileNamed s active.1)⟩

/-- The directories are loaded in order, all but one in the last slot, and each with
its archives. -/
theorem loadDir_spec (dirNamed : ∀ d, DirActive fs d → (fs.dir d).name ≠ [])
    (fileNamed : ∀ s, FileActive fs s → (fs.archive s).name ≠ []) :
    ∃ loaded, ldrFilesystemLoadDir fs = some loaded ∧ (loaded.map Prod.fst).Nodup ∧
      (∀ d, d ∈ loaded.map Prod.fst ↔ (d : Nat) + 1 < fsMaxDir ∧ DirActive fs d) ∧
      ∀ d files, (d, files) ∈ loaded → files.Nodup ∧
        ∀ s, s ∈ files ↔ (s : Nat) + 1 < fsMaxArch ∧ InDir fs (fs.dir d).id s := by
  obtain ⟨dirs, loop, sorted, mem⟩ := @slotLoop_spec fsMaxDir (fsSeekNextDir fs)
    (fun next => 0 < next) (fun d => (fs.dir d).name = []) _ seeks_dir
    (fun k positive => by simpa using positive) rfl (fsMaxDir + 1) 0 (by omega) (Nat.zero_le _)
  choose files loads nodup inside using fun d : Fin fsMaxDir =>
    loadArchive_spec fileNamed (fs.dir d).id
  have each : ∀ l : List (Fin fsMaxDir), (l.mapM fun d =>
      (ldrFilesystemLoadArchive fs (fs.dir d).id).map fun files => (d, files)) =
        some (l.map fun d => (d, files d)) := by
    intro l
    induction l with
    | nil => rfl
    | cons d rest ih =>
      rw [List.mapM_cons, ih, loads]
      rfl
  have firsts : (dirs.map fun d => (d, files d)).map Prod.fst = dirs := by
    rw [List.map_map]
    exact List.map_id dirs
  refine ⟨_, (congrArg (Option.bind · _) loop).trans (each dirs), ?_, ?_, ?_⟩
  · rw [firsts]
    exact sorted.imp fun less => Fin.ne_of_lt less
  · intro d
    rw [firsts, mem]
    constructor
    · rintro ⟨_, below, active, _⟩
      exact ⟨below, of_decide_eq_true active⟩
    · rintro ⟨below, active⟩
      exact ⟨Nat.zero_le _, below, decide_eq_true active, decide_eq_false (dirNamed d active)⟩
  · intro d found h
    obtain ⟨d', _, same⟩ := List.mem_map.mp h
    obtain ⟨rfl, rfl⟩ := Prod.mk.inj same
    exact ⟨nodup d', inside d'⟩

end Tables

def lastDir : Fin fsMaxDir := ⟨127, by decide⟩

def lastFile : Fin fsMaxArch := ⟨255, by decide⟩

/-- Every active directory is loaded once, and with it every archive in it once. A slot is
loaded when the body of the loop over its table runs for it. -/
structure LoadsAll (fs : FsLayout) (loaded : List (Fin fsMaxDir × List (Fin fsMaxArch))) :
    Prop where
  once : (loaded.map Prod.fst).Nodup
  dirs : ∀ d, d ∈ loaded.map Prod.fst ↔ DirActive fs d
  filesOnce : ∀ d files, (d, files) ∈ loaded → files.Nodup
  files : ∀ d files, (d, files) ∈ loaded → ∀ s, s ∈ files ↔ InDir fs (fs.dir d).id s

/-- The loops of the startup stop on all tables that are in order, and they load
everything if and only if the last slots of both tables are free. -/
theorem load_all_iff {fs : FsLayout} (filed : Filed fs)
    (dirNamed : ∀ d, DirActive fs d → (fs.dir d).name ≠ [])
    (fileNamed : ∀ s, FileActive fs s → (fs.archive s).name ≠ []) :
    ∃ loaded, ldrFilesystemLoadDir fs = some loaded ∧
      (LoadsAll fs loaded ↔ ¬ DirActive fs lastDir ∧ ¬ FileActive fs lastFile) := by
  obtain ⟨loaded, done, once, dirs, files⟩ := loadDir_spec dirNamed fileNamed
  refine ⟨loaded, done, ?_, ?_⟩
  · intro all
    have noDir : ¬ DirActive fs lastDir := by
      intro active
      have below := ((dirs lastDir).mp ((all.dirs lastDir).mpr active)).1
      exact absurd below (by decide)
    refine ⟨noDir, fun active => ?_⟩
    obtain ⟨_, ⟨d, activeD, owner⟩, _⟩ := filed.files lastFile active
    obtain ⟨⟨d', found⟩, mem, rfl⟩ := List.mem_map.mp ((all.dirs d).mpr activeD)
    have inside := (all.files d' found mem lastFile).mpr ⟨active, owner⟩
    have below := (((files d' found mem).2 lastFile).mp inside).1
    exact absurd below (by decide)
  · rintro ⟨noDir, noFile⟩
    refine ⟨once, fun d => ?_, fun d found mem => (files d found mem).1, fun d found mem s => ?_⟩
    · rw [dirs]
      refine ⟨fun h => h.2, fun active => ⟨?_, active⟩⟩
      have bound : (d : Nat) < 128 := d.isLt
      by_contra last
      have same : d = lastDir := Fin.ext (by simp only [fsMaxDir] at last; simp [lastDir]; omega)
      exact noDir (same ▸ active)
    · rw [(files d found mem).2]
      refine ⟨fun h => h.2, fun inside => ⟨?_, inside⟩⟩
      have bound : (s : Nat) < 256 := s.isLt
      by_contra last
      have same : s = lastFile := Fin.ext (by simp only [fsMaxArch] at last; simp [lastFile]; omega)
      exact noFile (same ▸ inside.1)

/-- A layout with one directory, `d`. -/
def oneDir (d : Fin fsMaxDir) : FsLayout :=
  { FsLayout.zero with
    dir := Function.update FsLayout.zero.dir d ⟨dirIdOf d, ofChars ['d']⟩ }

theorem oneDir_tables (d : Fin fsMaxDir) : Tables (oneDir d) := by
  have free : ∀ e, ¬ DirActive .zero e := fun e active => by cases active
  exact tables_newDir tables_zero (free d) ⟨nofun, by decide⟩
    fun e active => absurd active (free e)

theorem not_always_load_all : ¬ ∀ fs : FsLayout, Filed fs →
    (∀ d, DirActive fs d → (fs.dir d).name ≠ []) →
    (∀ s, FileActive fs s → (fs.archive s).name ≠ []) →
    ∃ loaded, ldrFilesystemLoadDir fs = some loaded ∧ LoadsAll fs loaded := by
  intro claim
  have tables := oneDir_tables lastDir
  have dirNamed := fun d active => (tables.dirFits d active).1
  have fileNamed := fun s active => (tables.fileFits s active).1
  obtain ⟨loaded, done, all⟩ := claim _ tables.filed dirNamed fileNamed
  obtain ⟨loaded', done', _, dirs, _⟩ := loadDir_spec dirNamed fileNamed
  obtain rfl := Option.some.inj (done.symm.trans done')
  have active : DirActive (oneDir lastDir) lastDir := by
    simp [DirActive, oneDir, dirIdOf_pos]
  have below := ((dirs lastDir).mp ((all.dirs lastDir).mpr active)).1
  exact absurd below (by decide)

def inDir (d : Fin fsMaxDir) (s : Fin fsMaxArch) (name : Bytes) (fs : FsLayout) : FsLayout :=
  setFile fs s true (newFile s name (dirIdOf d) 0 none)

/-- The directories `d` and `e`, with two archives in the first and one in the second. -/
def twoDirs : FsLayout :=
  let second : Fin fsMaxDir := ⟨1, by decide⟩
  let dirs := { FsLayout.zero with
    dir := Function.update (oneDir firstDir).dir second ⟨dirIdOf second, ofChars ['e']⟩ }
  inDir firstDir ⟨2, by decide⟩ (ofChars ['b'])
    (inDir second ⟨1, by decide⟩ (ofChars ['a'])
      (inDir firstDir ⟨0, by decide⟩ (ofChars ['a']) dirs))

theorem twoDirs_tables : Tables twoDirs := by
  have fits : ∀ c : Char, Roomy (ofChars [c]) := fun c => ⟨nofun, by simp [ofChars, nameRoom]⟩
  have dirs := tables_newDir (oneDir_tables firstDir) (d := ⟨1, by decide⟩) (by decide) (fits 'e')
    (by decide +kernel)
  refine tables_setFile (tables_setFile (tables_setFile dirs rfl rfl ⟨firstDir, ?_⟩ (fits 'a') ?_)
    rfl rfl ⟨⟨1, by decide⟩, ?_⟩ (fits 'a') ?_) rfl rfl ⟨firstDir, ?_⟩ (fits 'b') ?_
  all_goals decide +kernel

theorem load_all_iff_twoDirs : ∃ loaded, ldrFilesystemLoadDir twoDirs = some loaded ∧
    LoadsAll twoDirs loaded := by
  obtain ⟨loaded, done, all⟩ := load_all_iff twoDirs_tables.filed
    (fun d active => (twoDirs_tables.dirFits d active).1)
    fun s active => (twoDirs_tables.fileFits s active).1
  exact ⟨loaded, done, all.mpr (by decide +kernel)⟩

end LoadSlots
