import Cfgd.AvlTree
import Cfgd.SlotTables
import Mathlib.Data.List.Find

/-!
# Numbering the directories anew

`fs_update_seq` gives every active directory the id of its slot and takes the
archives along. The old ids are kept in a search tree while the new ones are written,
so that an old id that is equal to another's new one does no harm.
-/

namespace UpdateSeq

open AvlTree CText FsImage SlotTables

/-- `struct jessfs_avl_node`. Ids in use are positive, so that the difference in
`fs_inner_compare` has the sign of the comparison. -/
structure SeqNode where
  dirid : Int
  fsSection : Fin fsMaxDir
  deriving DecidableEq, Repr

structure SeqLoop where
  layout : FsLayout
  flagReflush : Bool
  root : Avl SeqNode

def setDirId (layout : FsLayout) (d : Fin fsMaxDir) (id : Int) : FsLayout :=
  { layout with dir := Function.update layout.dir d ⟨id, (layout.dir d).name⟩ }

/-- One turn of the loop over the directory slots. -/
def indexDir (loop : SeqLoop) (index : Fin fsMaxDir) : SeqLoop :=
  if (loop.layout.dir index).id > 0 then
    let node : SeqNode := ⟨(loop.layout.dir index).id, index⟩
    let root := avlinsert SeqNode.dirid loop.root node
    if (loop.layout.dir index).id ≠ (1 + index) * 65536 then
      ⟨setDirId loop.layout index ((1 + index) * 65536), true, root⟩
    else ⟨loop.layout, loop.flagReflush, root⟩
  else loop

/-- One turn of the loop over the archive slots. -/
def reindexFile (loop : SeqLoop) (offset : Fin fsMaxArch) : FsArchive :=
  let archive := loop.layout.archive offset
  if archive.id ≤ 0 then archive
  else match avlsearch SeqNode.dirid loop.root archive.dirid with
    | none => archive
    | some node =>
      let dirid := (loop.layout.dir node.fsSection).id
      { archive with dirid := dirid, id := dirid + offset + 1 }

/-- The loop that frees the root until there is none: the nodes that were freed. -/
def freeIndex : Nat → Avl SeqNode → Option (List SeqNode)
  | 0, _ => none
  | _ + 1, .nil => some []
  | fuel + 1, .node l node r height =>
    (freeIndex fuel (avlremove SeqNode.dirid (.node l node r height) node.dirid)).map (node :: ·)

/-- The loop over the directories, from its start to its end. -/
def indexed (layout : FsLayout) : SeqLoop :=
  (List.finRange fsMaxDir).foldl indexDir ⟨layout, false, .nil⟩

/-- `fs_update_seq`, when every `malloc` succeeds. -/
def fsUpdateSeq (layout : FsLayout) : Option FsLayout :=
  let loop := indexed layout
  let layout := match loop.flagReflush, loop.root with
    | true, .node _ _ _ _ => { loop.layout with archive := reindexFile loop }
    | _, _ => loop.layout
  (freeIndex (loop.root.toList.length + 1) loop.root).map fun _ => layout

/-- Every node is freed, and once. -/
theorem freeIndex_total {tree : Avl SeqNode} (ord : Ordered SeqNode.dirid tree) {fuel : Nat}
    (enough : tree.toList.length < fuel) :
    ∃ freed, freeIndex fuel tree = some freed ∧ freed.Perm tree.toList := by
  induction fuel generalizing tree with
  | zero => omega
  | succ fuel ih =>
    cases tree with
    | nil => exact ⟨[], rfl, List.Perm.refl _⟩
    | node l node r height =>
      have here : node ∈ (Avl.node l node r height).toList := by simp [Avl.toList]
      have split := perm_avlremove SeqNode.dirid ord here
      have less := split.length_eq
      rw [List.length_cons] at less
      obtain ⟨freed, rest, perm⟩ := ih (ordered_avlremove SeqNode.dirid ord node.dirid) (by omega)
      refine ⟨node :: freed, ?_, (perm.cons node).trans split.symm⟩
      rw [freeIndex, rest]
      rfl

section Loop
variable {start : SeqLoop} {l : List (Fin fsMaxDir)}

def FitsSlot (fs : FsLayout) (d : Fin fsMaxDir) : Prop := (fs.dir d).id = dirIdOf d

instance (fs : FsLayout) (d : Fin fsMaxDir) : Decidable (FitsSlot fs d) :=
  inferInstanceAs (Decidable (_ = _))

theorem setDirId_self {fs : FsLayout} {d : Fin fsMaxDir} (fits : FitsSlot fs d) :
    setDirId fs d (dirIdOf d) = fs := by
  rw [setDirId, ← fits]
  exact congrArg (FsLayout.mk fs.mask · fs.archive) (Function.update_eq_self d fs.dir)

/-- What one turn does. -/
theorem indexDir_spec (ord : Ordered SeqNode.dirid start.root) (index : Fin fsMaxDir) :
    Ordered SeqNode.dirid (indexDir start index).root ∧
      (indexDir start index).layout = (if DirActive start.layout index then
        setDirId start.layout index (dirIdOf index) else start.layout) ∧
      ((indexDir start index).flagReflush = true ↔ start.flagReflush = true ∨
        (DirActive start.layout index ∧ ¬ FitsSlot start.layout index)) ∧
      ∀ k, avlsearch SeqNode.dirid (indexDir start index).root k =
        (avlsearch SeqNode.dirid start.root k).or
          (if DirActive start.layout index ∧ (start.layout.dir index).id = k then
            some ⟨k, index⟩ else none) := by
  by_cases active : DirActive start.layout index
  · have step : indexDir start index =
        ⟨setDirId start.layout index (dirIdOf index),
          start.flagReflush || !decide (FitsSlot start.layout index),
          avlinsert SeqNode.dirid start.root ⟨(start.layout.dir index).id, index⟩⟩ := by
      have positive : (start.layout.dir index).id > 0 := active
      rw [indexDir, if_pos positive]
      dsimp only
      split
      · rename_i moved
        have other : ¬ FitsSlot start.layout index := moved
        simp only [other, decide_false, Bool.not_false, Bool.or_true]
        rfl
      · rename_i same
        have fits : FitsSlot start.layout index := Decidable.not_not.mp same
        rw [setDirId_self fits, decide_eq_true fits]
        simp
    rw [step]
    refine ⟨ordered_avlinsert _ ord _, (if_pos active).symm, ?_, fun k => ?_⟩
    · simp [active]
    · rw [avlsearch_avlinsert _ ord]
      by_cases same : (start.layout.dir index).id = k
      · subst same
        rw [if_pos rfl, if_pos ⟨active, rfl⟩]
        cases avlsearch SeqNode.dirid start.root (start.layout.dir index).id <;> rfl
      · rw [if_neg same, if_neg fun h => same h.2, Option.or_none]
  · have inactive : ¬ (start.layout.dir index).id > 0 := active
    rw [indexDir, if_neg inactive]
    exact ⟨ord, (if_neg active).symm, by simp [active], fun k => by simp [active]⟩

/-- What the loop over the directories does. -/
theorem indexDirs_spec (nodup : l.Nodup) (ord : Ordered SeqNode.dirid start.root) :
    Ordered SeqNode.dirid (l.foldl indexDir start).root ∧
      (l.foldl indexDir start).layout = ⟨start.layout.mask, fun d =>
        if d ∈ l ∧ DirActive start.layout d then ⟨dirIdOf d, (start.layout.dir d).name⟩
        else start.layout.dir d, start.layout.archive⟩ ∧
      ((l.foldl indexDir start).flagReflush = true ↔ start.flagReflush = true ∨
        ∃ d ∈ l, DirActive start.layout d ∧ ¬ FitsSlot start.layout d) ∧
      ∀ k, avlsearch SeqNode.dirid (l.foldl indexDir start).root k =
        (avlsearch SeqNode.dirid start.root k).or
          ((l.find? fun d => DirActive start.layout d ∧ (start.layout.dir d).id = k).map
            fun d => ⟨k, d⟩) := by
  induction l generalizing start with
  | nil => exact ⟨ord, by simp, by simp, by simp⟩
  | cons index rest ih =>
    obtain ⟨fresh, nodup⟩ := List.nodup_cons.mp nodup
    obtain ⟨ord', layout, flag, search⟩ := indexDir_spec ord index
    obtain ⟨ordered, layouts, flags, searches⟩ := ih nodup ord'
    -- the turn leaves the other directories alone
    have others : (indexDir start index).layout.mask = start.layout.mask ∧
        (indexDir start index).layout.archive = start.layout.archive ∧
        ∀ d, d ≠ index → (indexDir start index).layout.dir d = start.layout.dir d := by
      rw [layout]
      split
      · exact ⟨rfl, rfl, fun d apart => by simp [setDirId, apart]⟩
      · exact ⟨rfl, rfl, fun _ _ => rfl⟩
    obtain ⟨mask, archive, other⟩ := others
    have later : ∀ d ∈ rest, (indexDir start index).layout.dir d = start.layout.dir d :=
      fun d mem => other d fun same => fresh (same ▸ mem)
    have active : ∀ d ∈ rest, (DirActive (indexDir start index).layout d ↔
        DirActive start.layout d) := by
      intro d mem
      rw [DirActive, later d mem, DirActive]
    rw [List.foldl_cons]
    refine ⟨ordered, ?_, ?_, fun k => ?_⟩
    · rw [layouts, mask, archive]
      congr
      funext d
      by_cases here : d = index
      · subst here
        simp only [fresh, false_and, if_false, List.mem_cons_self, true_and]
        rw [layout]
        split
        · simp [setDirId]
        · rfl
      · rw [other d here]
        refine if_congr ?_ rfl rfl
        rw [DirActive, other d here]
        simp [here, DirActive]
    · rw [flags, flag, or_assoc]
      apply or_congr_right
      rw [List.exists_mem_cons_iff]
      apply or_congr_right
      refine exists_congr fun d => and_congr_right fun mem => ?_
      rw [active d mem, FitsSlot, later d mem, FitsSlot]
    · rw [searches, search, Option.or_assoc]
      congr 1
      have same : (rest.find? fun d => DirActive (indexDir start index).layout d ∧
          ((indexDir start index).layout.dir d).id = k) =
            rest.find? fun d => DirActive start.layout d ∧ (start.layout.dir d).id = k := by
        apply List.find?_congr
        intro d mem
        simp only [active d mem, later d mem]
      rw [same, List.find?_cons]
      by_cases hit : DirActive start.layout index ∧ (start.layout.dir index).id = k
      · rw [if_pos hit, decide_eq_true hit]
        rfl
      · rw [if_neg hit, decide_eq_false hit, Option.none_or]

end Loop

section Whole
variable {fs : FsLayout}

/-- The directory slots with the ids that belong to them. -/
def renumbered (fs : FsLayout) (d : Fin fsMaxDir) : FsDirectory :=
  if DirActive fs d then ⟨dirIdOf d, (fs.dir d).name⟩ else fs.dir d

theorem indexed_spec (fs : FsLayout) : Ordered SeqNode.dirid (indexed fs).root ∧
    (indexed fs).layout = ⟨fs.mask, renumbered fs, fs.archive⟩ ∧
    ((indexed fs).flagReflush = true ↔ ∃ d, DirActive fs d ∧ ¬ FitsSlot fs d) ∧
    ∀ k, avlsearch SeqNode.dirid (indexed fs).root k =
      ((List.finRange fsMaxDir).find? fun d => DirActive fs d ∧ (fs.dir d).id = k).map
        fun d => ⟨k, d⟩ := by
  obtain ⟨ord, layout, flag, search⟩ :=
    @indexDirs_spec ⟨fs, false, .nil⟩ _ (List.nodup_finRange fsMaxDir) (ordered_nil _)
  refine ⟨ord, ?_, ?_, fun k => ?_⟩
  · rw [indexed, layout]
    simp only [List.mem_finRange, true_and]
    rfl
  · rw [indexed, flag]
    simp
  · rw [indexed, search]
    rfl

/-- An id in use leads to its directory. -/
theorem indexed_search (distinct : ∀ d e, DirActive fs d → DirActive fs e →
      (fs.dir d).id = (fs.dir e).id → d = e) {d : Fin fsMaxDir} (active : DirActive fs d) :
    avlsearch SeqNode.dirid (indexed fs).root (fs.dir d).id = some ⟨(fs.dir d).id, d⟩ := by
  rw [(indexed_spec fs).2.2.2]
  cases found : (List.finRange fsMaxDir).find? fun e =>
      DirActive fs e ∧ (fs.dir e).id = (fs.dir d).id with
  | none =>
    have none := find_finRange.1.mp found d
    simp [active] at none
  | some e =>
    have right := find_finRange.2 e found
    rw [decide_eq_true_eq] at right
    rw [distinct e d right.1 active right.2]
    rfl

theorem fsUpdateSeq_eq (fs : FsLayout) : fsUpdateSeq fs =
    some (match (indexed fs).flagReflush, (indexed fs).root with
      | true, .node _ _ _ _ => ⟨fs.mask, renumbered fs, reindexFile (indexed fs)⟩
      | _, _ => ⟨fs.mask, renumbered fs, fs.archive⟩) := by
  obtain ⟨ord, layout, _, _⟩ := indexed_spec fs
  obtain ⟨freed, ends, _⟩ := freeIndex_total ord (Nat.lt_succ_self _)
  rw [fsUpdateSeq]
  generalize indexed fs = loop at layout ends
  dsimp only
  rw [ends, layout]
  cases loop.flagReflush <;> cases loop.root <;> rfl

/-- Nothing happens where every directory has the id of its slot. -/
theorem fsUpdateSeq_same (fits : ∀ d, DirActive fs d → FitsSlot fs d) :
    fsUpdateSeq fs = some fs := by
  have kept : renumbered fs = fs.dir := by
    funext d
    rw [renumbered]
    split
    · rename_i active
      rw [← fits d active]
    · rfl
  have noFlag : (indexed fs).flagReflush = false := by
    rw [Bool.eq_false_iff, ne_eq, (indexed_spec fs).2.2.1]
    rintro ⟨d, active, moved⟩
    exact moved (fits d active)
  rw [fsUpdateSeq_eq, noFlag, kept]

theorem fsUpdateSeq_moved {d : Fin fsMaxDir} (active : DirActive fs d) (moved : ¬ FitsSlot fs d) :
    fsUpdateSeq fs = some ⟨fs.mask, renumbered fs, reindexFile (indexed fs)⟩ := by
  have flag : (indexed fs).flagReflush = true := (indexed_spec fs).2.2.1.mpr ⟨d, active, moved⟩
  rw [fsUpdateSeq_eq, flag]
  cases root : (indexed fs).root with
  | nil =>
    have empty := (indexed_spec fs).2.2.2 (fs.dir d).id
    rw [root, avlsearch, eq_comm, Option.map_eq_none_iff] at empty
    have none := find_finRange.1.mp empty d
    simp [active] at none
  | node l x r h => rfl

end Whole

/-- What `fs_update_seq` is called on: the ids in use are different, and every archive
knows its directory. -/
structure Numbered (fs : FsLayout) : Prop where
  distinct : ∀ d e, DirActive fs d → DirActive fs e → (fs.dir d).id = (fs.dir e).id → d = e
  files : ∀ s, FileActive fs s → ∃ d, DirActive fs d ∧ (fs.archive s).dirid = (fs.dir d).id ∧
    (fs.archive s).id = (fs.archive s).dirid + s + 1

/-- What it leaves: every directory has the id of its slot, and the archives have gone
with their directories; nothing else has changed. -/
structure Renumbered (fs fs' : FsLayout) : Prop where
  mask : fs'.mask = fs.mask
  dirNames : ∀ d, (fs'.dir d).name = (fs.dir d).name
  dirActive : ∀ d, DirActive fs' d ↔ DirActive fs d
  dirIds : ∀ d, DirActive fs d → (fs'.dir d).id = dirIdOf d
  contents : ∀ s, (fs'.archive s).name = (fs.archive s).name ∧
    (fs'.archive s).size = (fs.archive s).size ∧ (fs'.archive s).data = (fs.archive s).data ∧
    (fs'.archive s).fsSection = (fs.archive s).fsSection
  fileActive : ∀ s, FileActive fs' s ↔ FileActive fs s
  files : ∀ s d, FileActive fs s → DirActive fs d → (fs.archive s).dirid = (fs.dir d).id →
    (fs'.archive s).dirid = (fs'.dir d).id ∧ (fs'.archive s).id = (fs'.dir d).id + s + 1

theorem dirActive_renumbered {fs fs' : FsLayout} (dirs : fs'.dir = renumbered fs)
    (d : Fin fsMaxDir) : DirActive fs' d ↔ DirActive fs d := by
  rw [DirActive, dirs, renumbered]
  split
  · rename_i active
    exact iff_of_true (dirIdOf_pos d) active
  · exact Iff.rfl

/-- `fs_update_seq` ends, leaves the numbers as they should be, and a second call
changes nothing. -/
theorem fsUpdateSeq_renumbers {fs : FsLayout} (numbered : Numbered fs) :
    ∃ fs', fsUpdateSeq fs = some fs' ∧ Renumbered fs fs' ∧ fsUpdateSeq fs' = some fs' := by
  have dirNames : ∀ d, (renumbered fs d).name = (fs.dir d).name := by
    intro d
    rw [renumbered]
    split <;> rfl
  have dirIds : ∀ d, DirActive fs d → (renumbered fs d).id = dirIdOf d := by
    intro d active
    rw [renumbered, if_pos active]
  have again : ∀ fs' : FsLayout, fs'.dir = renumbered fs → fsUpdateSeq fs' = some fs' := by
    intro fs' dirs
    apply fsUpdateSeq_same
    intro d active
    rw [FitsSlot, dirs]
    exact dirIds d ((dirActive_renumbered dirs d).mp active)
  by_cases fits : ∀ d, DirActive fs d → FitsSlot fs d
  · refine ⟨fs, fsUpdateSeq_same fits, ⟨rfl, fun _ => rfl, fun _ => Iff.rfl, fits,
      fun _ => ⟨rfl, rfl, rfl, rfl⟩, fun _ => Iff.rfl, ?_⟩, fsUpdateSeq_same fits⟩
    intro s d active _ owner
    obtain ⟨_, _, _, id⟩ := numbered.files s active
    exact ⟨owner, by rw [id, owner]⟩
  · obtain ⟨d, moved⟩ := not_forall.mp fits
    obtain ⟨active, moved⟩ := Classical.not_imp.mp moved
    refine ⟨_, fsUpdateSeq_moved active moved, ?_, again _ rfl⟩
    obtain ⟨_, layout, _, _⟩ := indexed_spec fs
    have file : ∀ s d, FileActive fs s → DirActive fs d → (fs.archive s).dirid = (fs.dir d).id →
        reindexFile (indexed fs) s = { fs.archive s with
          dirid := dirIdOf d, id := dirIdOf d + s + 1 } := by
      intro s d activeS activeD owner
      have positive : ¬ (fs.archive s).id ≤ 0 := Int.not_le.mpr activeS
      rw [reindexFile]
      simp only [layout, if_neg positive, owner, indexed_search numbered.distinct activeD,
        dirIds d activeD]
    have idle : ∀ s, ¬ FileActive fs s → reindexFile (indexed fs) s = fs.archive s := by
      intro s inactive
      have negative : (fs.archive s).id ≤ 0 := Int.not_lt.mp inactive
      rw [reindexFile]
      simp only [layout, if_pos negative]
    refine ⟨rfl, dirNames, dirActive_renumbered rfl, dirIds, fun s => ?_, fun s => ?_, ?_⟩
    · by_cases activeS : FileActive fs s
      · obtain ⟨d, activeD, owner, _⟩ := numbered.files s activeS
        dsimp only
        rw [file s d activeS activeD owner]
        exact ⟨rfl, rfl, rfl, rfl⟩
      · dsimp only
        rw [idle s activeS]
        exact ⟨rfl, rfl, rfl, rfl⟩
    · by_cases activeS : FileActive fs s
      · obtain ⟨d, activeD, owner, _⟩ := numbered.files s activeS
        refine iff_of_true ?_ activeS
        have positive := dirIdOf_pos d
        rw [FileActive]
        dsimp only
        rw [file s d activeS activeD owner]
        dsimp only
        omega
      · rw [FileActive]
        dsimp only
        rw [idle s activeS, FileActive]
    · intro s d activeS activeD owner
      dsimp only
      rw [file s d activeS activeD owner, dirIds d activeD]
      exact ⟨rfl, rfl⟩

/-- A directory in the first slot with the id of the second one, and its archive. -/
def movedDir : FsLayout where
  mask s := (s : Nat) = 0
  dir d := if (d : Nat) = 0 then ⟨131072, ofChars ['d']⟩ else .zero
  archive s := if (s : Nat) = 0 then ⟨131073, ofChars ['a'], 131072, 0, 0, []⟩ else .zero

theorem movedDir_numbered : Numbered movedDir := by
  have first : ∀ d, DirActive movedDir d → (d : Nat) = 0 := by
    intro d active
    by_contra other
    simp [DirActive, movedDir, other, FsDirectory.zero] at active
  refine ⟨fun d e activeD activeE _ => Fin.ext ((first d activeD).trans (first e activeE).symm), ?_⟩
  intro s active
  have zero : (s : Nat) = 0 := by
    by_contra other
    simp [FileActive, movedDir, other, FsArchive.zero] at active
  refine ⟨firstDir, by simp [DirActive, movedDir, firstDir], ?_⟩
  simp [movedDir, firstDir, zero]

theorem fsUpdateSeq_renumbers_movedDir : ∃ fs', fsUpdateSeq movedDir = some fs' ∧
    Renumbered movedDir fs' ∧ fsUpdateSeq fs' = some fs' :=
  fsUpdateSeq_renumbers movedDir_numbered

end UpdateSeq
