import Cfgd.Correspondence
import Cfgd.DeleteDoc

/-!
# Updates that fail

`rt_config_update` makes the missing nodes of a key one after the other, and a later
segment may refuse. What is refused at the first missing segment leaves everything as
it was; what is refused behind it leaves the nodes that were made before.
-/

namespace AllOrNothing

open AvlTree CText CJson Request ConfigNode Loader FsImage Runtime DeleteRange DeleteTargets
open KeyShape Reach Levels AppendSteps UpdateCases RegularTree SlotTables Catalog Orders
open Correspondence DeleteDoc Transition

variable {ν : Type} [DoubleText ν]

/-- The tree, the documents and the slot tables are what they were. -/
structure SameConfig (world world' : World ν) : Prop where
  root : world'.root = world.root
  heap : world'.store.heap = world.store.heap
  fs : world'.store.fs = world.store.fs

/-- A negative answer leaves the configuration as it was. -/
def FailsCleanly (world : World ν) (jrp : Jrp) : Prop :=
  ∀ u, rtConfigUpdate world jrp = some u → u.retval < 0 → SameConfig world u.world

section Condition

/-- A new array takes the index 0 and the index for a new item. -/
def FitsNew (segm : Segment) : Prop :=
  segm.jsl = .array → segm.index = 0 ∨ segm.index = jaSymAdd

/-- What `rt_append` finds for a new archive: no directory of the fs, no free place in
it, or the section to try. -/
inductive Slot where
  | outside
  | refused
  | tried (n : Fin fsMaxArch)

def slotFor (fs : FsLayout) (dirName name : Bytes) : Slot :=
  match fsSearchDirByname fs dirName with
  | none => .outside
  | some dir =>
    if (fsSearchFileByname fs name dir.id).isSome then .refused
    else match fsSearchFreeSection fs with
      | none => .refused
      | some n => .tried n

/-- The section that the slot holds after the name was copied into it. -/
def storedSection (name : Bytes) (n : Fin fsMaxArch) : Int := overrun (nameRoom + 8) name n

def PathTooLong (dir : Node) (name : Bytes) : Prop :=
  maxValueSize ≤ (dir.info.scopeValue ++ archiveScopeName name ++ jsonExtension).length

/-- A new archive is not made, and its slot is given back, or all behind it is taken. -/
def ArchiveWhole (fs : FsLayout) (dir : Node) (name : Bytes) (rest : List Segment) : Prop :=
  match slotFor fs dir.info.scopeName name with
  | .refused => True
  | .outside => PathTooLong dir name ∨ ∀ segm ∈ rest, FitsNew segm
  | .tried n => (fs.archive n).id ≤ 0 ∧ 0 ≤ storedSection name n ∧
      (PathTooLong dir name → storedSection name n = n) ∧
      (PathTooLong dir name ∨ ∀ segm ∈ rest, FitsNew segm)

/-- The first missing segment is refused, or all behind it is taken. -/
def AppendWhole (fs : FsLayout) (node : Node) : List Segment → Prop
  | [] => True
  | segm :: rest => match segm.jsl with
    | .archive => ArchiveWhole fs node segm.name rest
    | .array => appendable node segm → ∀ s ∈ rest, FitsNew s
    | _ => ∀ s ∈ rest, FitsNew s

/-- The request comes to `rt_append` at the node, for these segments. -/
structure AppendsAt (world : World ν) (jrp : Jrp) (node : Node) (segms : List Segment) : Prop where
  value : jrp.dupvalue ≠ [] ∧ ∃ v, jrp.valuestring = some v ∧ v ≠ keywordDeleted
  place : ∃ reached previous, rtReachLastMatchScope world.root jrp.segm = some reached ∧
    reached.last = none ∧ reached.previous = some previous ∧
    (rootNode world.root).getAt previous = some node ∧ segms = reached.segm.drop reached.offset
  level : node.info.jsl ≠ .field ∧ node.info.jsl ≠ .arrayItemAsField
  file : node.info.jsl = .dir → 2 < jrp.segm.length

/-- Nothing is made below a missing segment that could be refused there. -/
def Whole (world : World ν) (jrp : Jrp) : Prop :=
  ∀ node segms, AppendsAt world jrp node segms → AppendWhole world.store.fs node segms

end Condition

section Below
variable {v : Bytes}

theorem forall_not_fits {segms : List Segment} :
    (∀ s ∈ segms, FitsNew s) ↔ ¬ ∃ s ∈ segms, ¬ FitsNew s := by
  simp only [not_exists, not_and, not_not]

theorem fitsNew_of_level {segm : Segment} (other : segm.jsl ≠ .array) : FitsNew segm :=
  fun isArray => absurd isArray other

theorem exists_cons {segm : Segment} {rest : List Segment} (fits : FitsNew segm) :
    (∃ s ∈ segm :: rest, ¬ FitsNew s) ↔ ∃ s ∈ rest, ¬ FitsNew s := by
  simp [fits]

/-- A node without items takes an array segment with an index that fits a new array. -/
theorem appendable_new {node : Node} {name : Bytes} {index : Int}
    (empty : node.info.arraysize = 0) :
    appendable node ⟨name, index, .array⟩ = true ↔ FitsNew ⟨name, index, .array⟩ := by
  have room : (0 : Int) < maxArySize := by decide
  rw [appendable_iff, FitsNew, empty]
  exact ⟨fun h _ => h.2.1, fun h => ⟨Int.le_refl 0, h rfl, room⟩⟩

/-- The segments behind an item are refused, or not, whatever array it is made in. -/
def RefusedBelow (ν : Type) [DoubleText ν] (v : Bytes) (segms : List Segment) : Prop :=
  ∀ (store : Store ν) (node : Node), node.info.arraysize = 0 → node.info.jsl ≠ .array →
    ((rtAppend v store node segms).retval < 0 ↔ ∃ s ∈ segms, ¬ FitsNew s)

theorem addTo_retval {rest : List Segment} (below : rest ≠ [] → RefusedBelow ν v rest)
    (store : Store ν) (array : Node) :
    (addTo v store array rest).retval < 0 ↔ ∃ s ∈ rest, ¬ FitsNew s := by
  rw [addTo]
  split
  · rename_i last
    simp [last]
  · rename_i more
    exact below more _ _ rfl (by rintro ⟨⟩)

theorem makeArray_retval {rest : List Segment} (below : rest ≠ [] → RefusedBelow ν v rest)
    (store : Store ν) (node : Node) {name : Bytes} {index : Int}
    (fits : FitsNew ⟨name, index, .array⟩) :
    (makeArray v store node name index rest).retval < 0 ↔ ∃ s ∈ rest, ¬ FitsNew s := by
  have takes : appendable (rtAllocateArray store node name).2 ⟨name, index, .array⟩ = true :=
    (appendable_new rfl).mpr fits
  rw [makeArray, if_pos takes]
  exact addTo_retval below _ _

/-- Below a new node the first segment that does not fit is refused. -/
theorem rtAppend_refused {segms : List Segment} (below : Below segms) :
    RefusedBelow ν v segms := by
  have taken : ∀ (rest : List Segment) {name : Bytes} {index : Int} (store : Store ν)
      (node : Node), (rest ≠ [] → RefusedBelow ν v rest) → node.info.arraysize = 0 →
      node.info.jsl ≠ .array →
      ((rtAppend v store node (⟨name, index, .array⟩ :: rest)).retval < 0 ↔
        ∃ s ∈ (⟨name, index, .array⟩ :: rest : List Segment), ¬ FitsNew s) := by
    intro rest name index store node below empty notArray
    rw [rtAppend_array]
    by_cases fits : FitsNew ⟨name, index, .array⟩
    · rw [if_pos ((appendable_new empty).mpr fits), if_neg notArray, exists_cons fits]
      exact makeArray_retval below store node fits
    · rw [if_neg (fun takes => fits ((appendable_new empty).mp takes))]
      have negative : (-1 : Int) < 0 := by decide
      exact iff_of_true negative ⟨_, List.mem_cons_self, fits⟩
  induction below with
  | field fits =>
    intro store node _ _
    rw [rtAppend_field]
    have fieldFits : ∀ name, FitsNew ⟨name, -1, .field⟩ := fun _ => fitsNew_of_level nofun
    simp [fieldFits]
  | @scope name rest fits below ih =>
    intro store node _ _
    have scopeFits : FitsNew ⟨name, -1, .logicScope⟩ := fitsNew_of_level nofun
    rw [rtAppend_scope, exists_cons scopeFits]
    exact ih _ _ rfl nofun
  | array fits range =>
    intro store node empty notArray
    exact taken [] store node (fun more => absurd rfl more) empty notArray
  | item fits range single below ih =>
    intro store node empty notArray
    exact taken _ store node (fun _ => ih) empty notArray

end Below

section Head
variable {v : Bytes} {store : Store ν} {node : Node} {segm : Segment} {rest : List Segment}

theorem insertScope_ne {child : Node} (ordered : Ordered Node.scopeKey node.nextScope)
    (missing : node.follow (.scope child.scopeKey) = none) : insertScope node child ≠ node := by
  intro same
  have found := @follow_insertScope node child ordered (.scope child.scopeKey)
  rw [same, missing, if_pos rfl] at found
  cases found

theorem addItem_ne {item : Node} : addItem node item ≠ node := by
  intro same
  have longer := congrArg (fun n : Node => n.array.length) same
  simp [addItem] at longer

/-- Where `rt_append` starts below an archive: the name is free, or the array is there. -/
inductive Room (node : Node) (segm : Segment) : Prop where
  | missing (notArray : node.info.jsl ≠ .array) (empty : node.info.arraysize = 0)
      (free : node.follow (.scope (fold segm.name)) = none) : Room node segm
  | extend (array : node.info.jsl = .array) (level : segm.jsl = .array) : Room node segm

/-- The node of the first segment is made, and all depends on the segments behind it. -/
theorem rtAppend_made (ordered : Ordered Node.scopeKey node.nextScope) (room : Room node segm)
    (below : Below (segm :: rest)) (takes : segm.jsl = .array → appendable node segm = true) :
    (rtAppend v store node (segm :: rest)).node ≠ node ∧
      ((rtAppend v store node (segm :: rest)).retval < 0 ↔ ∃ s ∈ rest, ¬ FitsNew s) := by
  have array : ∀ {name : Bytes} {index : Int}, segm = ⟨name, index, .array⟩ →
      (rest ≠ [] → RefusedBelow ν v rest) →
      (rtAppend v store node (segm :: rest)).node ≠ node ∧
        ((rtAppend v store node (segm :: rest)).retval < 0 ↔ ∃ s ∈ rest, ¬ FitsNew s) := by
    rintro name index rfl further
    rw [rtAppend_array, if_pos (takes rfl)]
    cases room with
    | extend isArray _ =>
      rw [if_pos isArray]
      refine ⟨?_, addTo_retval further store node⟩
      rw [addTo]
      split
      · exact addItem_ne
      · exact addItem_ne
    | missing notArray empty free =>
      rw [if_neg notArray]
      have fits := (appendable_new empty).mp (takes rfl)
      refine ⟨?_, makeArray_retval further store node fits⟩
      rw [makeArray, if_pos ((appendable_new rfl).mpr fits)]
      refine insertScope_ne ordered ?_
      rw [scopeKey_addTo]
      exact free
  have free : segm.jsl ≠ .array → node.follow (.scope (fold segm.name)) = none := by
    intro other
    cases room with
    | missing _ _ free => exact free
    | extend _ level => exact absurd level other
  cases below with
  | array fits range => exact array rfl (fun more => absurd rfl more)
  | item fits range single below => exact array rfl (fun _ => rtAppend_refused below)
  | field fits =>
    rw [rtAppend_field]
    refine ⟨insertScope_ne ordered (free (by simp)), ?_⟩
    simp
  | scope fits below =>
    rw [rtAppend_scope]
    refine ⟨insertScope_ne ordered ?_, rtAppend_refused below _ _ rfl (by rintro ⟨⟩)⟩
    rw [scopeKey_rtAppend]
    exact free (by simp)

end Head

section Slots
variable {fs : FsLayout} {dirName name : Bytes}

/-- A slot that is not in use is zero. -/
def Vacant (fs : FsLayout) : Prop := ∀ n, ¬ FileActive fs n → fs.archive n = .zero

theorem dirByname_active {dir : FsDirectory} (h : fsSearchDirByname fs dirName = some dir) :
    0 < dir.id := by
  rw [fsSearchDirByname] at h
  obtain ⟨d, found, rfl⟩ := Option.map_eq_some_iff.mp h
  have active := find_finRange.2 d found
  rw [decide_eq_true_eq] at active
  exact active.2

theorem fsAllocateFile_eq {dirid : Int} (positive : 0 < dirid) :
    fsAllocateFile fs name dirid 0 none =
      if (fsSearchFileByname fs name dirid).isSome then (fs, -17)
      else match fsSeekFreeFileLocation fs with
        | (fs, none) => (fs, -1)
        | (fs, some n) =>
          let slot := { ({ FsArchive.zero with
            id := dirid + n + 1, dirid := dirid, fsSection := n } : FsArchive).setName name with
            size := 0 }
          ({ fs with archive := Function.update fs.archive n slot }, storedSection name n) := by
  have arguments : ¬ ((0 : Int) < 0 ∨ dirid ≤ 0 ∨ (fsMaxFileSize : Int) ≤ 0) := by
    rw [fsMaxFileSize]
    omega
  rw [fsAllocateFile, if_neg arguments]
  rfl

/-- What an attempt to take a slot does. -/
theorem allocateSection_cases : match slotFor fs dirName name with
    | .outside => allocateSection fs dirName name = (fs, some (-1))
    | .refused => allocateSection fs dirName name = (fs, none)
    | .tried n => fs.mask n = false ∧
        (0 < (fs.archive n).id ∧ allocateSection fs dirName name =
            ({ fs with mask := Function.update fs.mask n true }, none) ∨
          (fs.archive n).id ≤ 0 ∧ ∃ slot : FsArchive, 0 < slot.id ∧
            slot.fsSection = storedSection name n ∧
            allocateSection fs dirName name = (setFile fs n true slot,
              if storedSection name n < 0 then none else some (storedSection name n))) := by
  rw [slotFor]
  cases found : fsSearchDirByname fs dirName with
  | none => simp only [allocateSection, found]
  | some dir =>
    have positive := dirByname_active found
    by_cases taken : (fsSearchFileByname fs name dir.id).isSome
    · simp [allocateSection, found, positive, fsAllocateFile_eq positive, taken]
    · cases free : fsSearchFreeSection fs with
      | none =>
        simp [allocateSection, found, positive, fsAllocateFile_eq positive, taken,
          fsSeekFreeFileLocation, free]
      | some n =>
        have unmarked : fs.mask n = false := by
          simpa using find_finRange.2 n free
        have seek : fsSeekFreeFileLocation fs = if (fs.archive n).id ≤ 0 then
            ({ fs with mask := Function.update fs.mask n true }, some n)
            else ({ fs with mask := Function.update fs.mask n true }, none) := by
          rw [fsSeekFreeFileLocation, free]
          dsimp only
          rw [bitmask_eq]
        have whole : allocateSection fs dirName name =
            ((fsAllocateFile fs name dir.id 0 none).1,
              if (fsAllocateFile fs name dir.id 0 none).2 < 0 then none
              else some (fsAllocateFile fs name dir.id 0 none).2) := by
          simp only [allocateSection, found, if_pos positive]
        rw [fsAllocateFile_eq positive, if_neg taken, seek] at whole
        simp only [if_neg taken]
        refine ⟨unmarked, ?_⟩
        by_cases free : (fs.archive n).id ≤ 0
        · rw [if_pos free] at whole
          refine Or.inr ⟨free, _, ?_, rfl, whole⟩
          have bound : 0 ≤ (n : Int) := Int.natCast_nonneg _
          simp only [FsArchive.setName]
          omega
        · rw [if_neg free] at whole
          exact Or.inl ⟨Int.not_le.mp free, whole⟩

/-- Deleting by the number that the slot holds gives it back only when that is its own. -/
theorem deleteFile_restores {n : Fin fsMaxArch} {slot : FsArchive} (vacant : Vacant fs)
    (free : (fs.archive n).id ≤ 0) (unmarked : fs.mask n = false) (used : 0 < slot.id) :
    fsDeleteFile (setFile fs n true slot) slot.fsSection = fs ↔ slot.fsSection = n := by
  have here : (setFile fs n true slot).archive n = slot := by simp [setFile]
  have marked : (setFile fs n true slot).mask n = true := by simp [setFile]
  constructor
  · intro same
    rw [fsDeleteFile] at same
    cases found : fsSearchFileBysect (setFile fs n true slot) slot.fsSection with
    | none =>
      rw [found] at same
      dsimp only at same
      rw [same, unmarked] at marked
      cases marked
    | some s =>
      obtain ⟨number, _⟩ := fileBysect_some found
      by_contra other
      have apart : n ≠ s := by
        rintro rfl
        exact other number.symm
      rw [found] at same
      have kept := congrArg (fun fs : FsLayout => (fs.archive n).id) same
      simp only [fsSetSectionBitmask, Function.update_of_ne apart, here] at kept
      omega
  · intro own
    have active : FileActive (setFile fs n true slot) n := by
      rw [FileActive, here]
      exact used
    have zero : fs.archive n = .zero := vacant n (Int.not_lt.mpr free)
    rw [fsDeleteFile]
    cases found : fsSearchFileBysect (setFile fs n true slot) slot.fsSection with
    | none => exact absurd active (fileBysect_none.mp found n own.symm)
    | some s =>
      obtain ⟨number, _⟩ := fileBysect_some found
      obtain rfl : s = n := Fin.ext (by omega)
      dsimp only
      rw [here, own, bitmask_eq]
      simp only [setFile, Function.update_idem]
      rw [← unmarked, ← zero, Function.update_eq_self, Function.update_eq_self]

end Slots

section Appending
variable {v : Bytes} {store : Store ν} {node : Node} {segm : Segment} {rest : List Segment}

/-- `rt_append` has left everything as it was. -/
def Unmoved (store : Store ν) (node : Node) (r : Appended ν) : Prop :=
  r.node = node ∧ r.store.heap = store.heap ∧ r.store.fs = store.fs

theorem archiveNode_none {name : Bytes} {ident : Nat} {ptr : Addr} (level : node.info.jsl = .dir) :
    archiveNode node name ident ptr = none ↔ PathTooLong node name := by
  simp [archiveNode, PathTooLong, level]

/-- A new archive differs from none, and all depends on the segments in it. -/
theorem makeArchive_made {name : Bytes} {fs : FsLayout} {fsSection : Int} {archive : Node}
    {ident : Nat} {ptr : Addr} (ordered : Ordered Node.scopeKey node.nextScope)
    (missing : node.follow (.scope (fold name)) = none) (noDot : dot ∉ name)
    (made : archiveNode node name ident ptr = some archive) (below : rest ≠ [] → Below rest) :
    (makeArchive v store node rest fs fsSection archive).node ≠ node ∧
      ((makeArchive v store node rest fs fsSection archive).retval < 0 ↔
        ∃ s ∈ rest, ¬ FitsNew s) := by
  obtain ⟨named, level, _, _, empty, _⟩ := archiveNode_spec noDot made
  constructor
  · refine insertScope_ne ordered ?_
    rw [scopeKey_rtAppend, Node.scopeKey, Node.info_setInfo, named]
    exact missing
  · by_cases last : rest = []
    · subst last
      simp [makeArchive, rtAppend]
    · refine rtAppend_refused (below last) _ _ ?_ ?_
      · rw [Node.info_setInfo]
        exact empty
      · rw [Node.info_setInfo, level]
        simp

/-- The condition for a new archive says when a refusal leaves everything as it was. -/
theorem archiveWhole_iff {name : Bytes} {index : Int} (vacant : Vacant store.fs)
    (ordered : Ordered Node.scopeKey node.nextScope) (level : node.info.jsl = .dir)
    (missing : node.follow (.scope (fold name)) = none) (noDot : dot ∉ name)
    (below : rest ≠ [] → Below rest) :
    ArchiveWhole store.fs node name rest ↔
      ((rtAppend v store node (⟨name, index, .archive⟩ :: rest)).retval < 0 →
        Unmoved store node (rtAppend v store node (⟨name, index, .archive⟩ :: rest))) := by
  have negative : (-1 : Int) < 0 := by decide
  have made : ∀ {fs : FsLayout} {fsSection : Int} {archive : Node},
      archiveNode node name store.heap.nextAddr store.heap.nextAddr = some archive →
      ((∀ s ∈ rest, FitsNew s) ↔
        ((makeArchive v store node rest fs fsSection archive).retval < 0 →
          Unmoved store node (makeArchive v store node rest fs fsSection archive))) := by
    intro fs fsSection archive made
    obtain ⟨differs, refused⟩ :=
      @makeArchive_made ν _ v store node rest name fs fsSection archive _ _ ordered missing noDot
        made below
    rw [forall_not_fits, ← refused]
    exact ⟨fun ok bad => absurd bad ok, fun kept bad => differs (kept bad).1⟩
  rw [ArchiveWhole, rtAppend_archive]
  have cases := @allocateSection_cases store.fs node.info.scopeName name
  cases slot : slotFor store.fs node.info.scopeName name with
  | refused =>
    rw [slot] at cases
    simp only [cases]
    exact ⟨fun _ _ => ⟨rfl, rfl, rfl⟩, fun _ => trivial⟩
  | outside =>
    rw [slot] at cases
    simp only [cases]
    have nowhere : fsDeleteFile store.fs (-1) = store.fs := by
      have none : fsSearchFileBysect store.fs (-1) = none := by
        rw [fileBysect_none]
        intro s same
        omega
      rw [fsDeleteFile, none]
    cases node' : archiveNode node name store.heap.nextAddr store.heap.nextAddr with
    | none =>
      have long := (archiveNode_none level).mp node'
      exact iff_of_true (Or.inl long) fun _ => ⟨rfl, rfl, nowhere⟩
    | some archive =>
      have short : ¬ PathTooLong node name := by
        intro long
        rw [(archiveNode_none level).mpr long] at node'
        cases node'
      rw [or_iff_right short]
      exact made node'
  | tried n =>
    rw [slot] at cases
    obtain ⟨unmarked, ⟨busy, call⟩ | ⟨free, new, used, own, call⟩⟩ := cases
    · simp only [call]
      refine iff_of_false (fun h => absurd h.1 (Int.not_le.mpr busy)) fun kept => ?_
      have same := congrArg (fun fs : FsLayout => fs.mask n) (kept negative).2.2
      simp [unmarked] at same
    · simp only [call]
      have moved : setFile store.fs n true new ≠ store.fs := by
        intro same
        have marked := congrArg (fun fs : FsLayout => fs.mask n) same
        simp [setFile, unmarked] at marked
      by_cases number : storedSection name n < 0
      · simp only [if_pos number]
        exact iff_of_false (fun h => absurd number (Int.not_lt.mpr h.2.1))
          fun kept => moved (kept negative).2.2
      · have number' := Int.not_lt.mp number
        simp only [if_neg number]
        cases node' : archiveNode node name store.heap.nextAddr store.heap.nextAddr with
        | none =>
          have long := (archiveNode_none level).mp node'
          have restores := @deleteFile_restores store.fs n new vacant free unmarked used
          rw [own] at restores
          constructor
          · exact fun h _ => ⟨rfl, rfl, restores.mpr (h.2.2.1 long)⟩
          · exact fun kept => ⟨free, number', fun _ => restores.mp (kept negative).2.2,
              Or.inl long⟩
        | some archive =>
          have short : ¬ PathTooLong node name := by
            intro long
            rw [(archiveNode_none level).mpr long] at node'
            cases node'
          refine Iff.trans ?_ (made node')
          exact ⟨fun h => h.2.2.2.resolve_left short,
            fun all => ⟨free, number', fun long => absurd long short, Or.inr all⟩⟩

/-- So does the condition for any other new node. -/
theorem appendWhole_below (fs : FsLayout) (ordered : Ordered Node.scopeKey node.nextScope)
    (room : Room node segm) (below : Below (segm :: rest)) :
    AppendWhole fs node (segm :: rest) ↔
      ((rtAppend v store node (segm :: rest)).retval < 0 →
        Unmoved store node (rtAppend v store node (segm :: rest))) := by
  have made : (segm.jsl = .array → appendable node segm = true) →
      ((∀ s ∈ rest, FitsNew s) ↔ ((rtAppend v store node (segm :: rest)).retval < 0 →
        Unmoved store node (rtAppend v store node (segm :: rest)))) := by
    intro takes
    obtain ⟨differs, refused⟩ := @rtAppend_made ν _ v store node segm rest ordered room below takes
    rw [forall_not_fits, ← refused]
    exact ⟨fun ok bad => absurd bad ok, fun kept bad => differs (kept bad).1⟩
  have array : ∀ {name : Bytes} {index : Int}, segm = ⟨name, index, .array⟩ →
      (AppendWhole fs node (segm :: rest) ↔ ((rtAppend v store node (segm :: rest)).retval < 0 →
        Unmoved store node (rtAppend v store node (segm :: rest)))) := by
    rintro name index rfl
    by_cases takes : appendable node ⟨name, index, .array⟩ = true
    · refine Iff.trans ?_ (made fun _ => takes)
      exact ⟨fun whole => whole takes, fun all _ => all⟩
    · rw [rtAppend_array, if_neg takes]
      exact iff_of_true (fun taken => absurd taken takes) fun _ => ⟨rfl, rfl, rfl⟩
  cases below with
  | array fits range => exact array rfl
  | item fits range single below => exact array rfl
  | field fits => exact made nofun
  | scope fits below => exact made nofun

/-- What is left of an accepted key begins with an archive, or lies below one. -/
theorem left_of_walks {n m : Node} {segms passed : List Segment} {path : Path}
    (accepted : AcceptedKey segms) (walk : Walks n segms path passed m (segm :: rest))
    (started : path ≠ []) :
    (path.length = 1 ∧ ∃ name, segm = ⟨name, -1, .archive⟩ ∧ (rest ≠ [] → Below rest)) ∨
      Below (segm :: rest) := by
  have suffix : ∀ {segms : List Segment}, Below segms → segm :: rest <:+ segms →
      Below (segm :: rest) := by
    intro segms below suffix
    induction below with
    | field fits =>
      rcases List.suffix_cons_iff.mp suffix with same | none
      · exact same ▸ .field fits
      · cases List.suffix_nil.mp none
    | array fits range =>
      rcases List.suffix_cons_iff.mp suffix with same | none
      · exact same ▸ .array fits range
      · cases List.suffix_nil.mp none
    | scope fits below ih =>
      rcases List.suffix_cons_iff.mp suffix with same | later
      · exact same ▸ .scope fits below
      · exact ih later
    | item fits range single below ih =>
      rcases List.suffix_cons_iff.mp suffix with same | later
      · exact same ▸ .item fits range single below
      · exact ih later
  cases accepted with
  | dir fits =>
    cases walk with
    | stop => exact absurd rfl started
    | scope found level level' further => cases further
    | item found level level' => cases level'
  | archive fits fits' =>
    cases walk with
    | stop => exact absurd rfl started
    | item found level level' => cases level'
    | scope found level level' further =>
      cases further with
      | stop => exact Or.inl ⟨rfl, _, rfl, fun more => absurd rfl more⟩
      | item found level level' => cases level'
      | scope found level level' further => cases further
  | below fits fits' below =>
    cases walk with
    | stop => exact absurd rfl started
    | item found level level' => cases level'
    | scope found level level' further =>
      cases further with
      | stop => exact Or.inl ⟨rfl, _, rfl, fun _ => below⟩
      | item found level level' => cases level'
      | scope found level level' further =>
        exact Or.inr (suffix below (suffix_of_walks further))

theorem started_of_array {n m : Node} {segms passed : List Segment} {path : Path}
    (accepted : AcceptedKey segms) (walk : Walks n segms path passed m (segm :: rest))
    (level : segm.jsl = .array) : path ≠ [] := by
  rintro rfl
  cases walk
  cases accepted <;> cases level

end Appending

section Updating
variable {world : World ν} {jrp : Jrp} {node : Node} {segms : List Segment}

/-- At the node where a request comes to `rt_append`, the condition is exact. -/
theorem appendWhole_iff (regular : Regular 0 (rootNode world.root))
    (vacant : Vacant world.store.fs) (received : Received jrp) {v : Bytes}
    (appends : AppendsAt world jrp node segms) :
    AppendWhole world.store.fs node segms ↔
      ((rtAppend v world.store node segms).retval < 0 →
        Unmoved world.store node (rtAppend v world.store node segms)) := by
  obtain ⟨reached, previous, reach, last, found, there, rfl⟩ := appends.place
  have noDot := received.noDot
  have accepted := received.accepted
  have way := reachedBy_root regular.built reach
  cases way with
  | @whole path passed m archive walk =>
    simp only [List.nil_append, nodeOf, previousOf] at last found
    split at last
    · rename_i none
      rw [if_pos none] at found
      cases found
    · cases last
  | @missing path passed rest segm m archive walk free =>
    simp only [List.nil_append, previousOf] at found
    split at found
    · cases found
    · rename_i started
      obtain rfl := Option.some.inj found
      obtain rfl := Option.some.inj ((getAt_of_walks walk).symm.trans there)
      simp only [List.nil_append, List.drop_left]
      have here := (regular_at regular there).here
      have notArray := notArray_of_walks walk regular (by rintro ⟨⟩)
      have left := (suffix_of_walks walk).subset (List.mem_cons_self ..)
      rcases left_of_walks accepted walk started with ⟨one, name, rfl, below⟩ | below
      · have level : m.info.jsl = .dir := by
          have stands := here.stands
          rwa [one] at stands
        have whole := @archiveWhole_iff ν _ v world.store m rest name (-1) vacant here.ordered level
          free (noDot _ left) below
        exact whole
      · have empty : m.info.arraysize = 0 := by
          rw [here.size, here.noItems notArray]
          rfl
        exact appendWhole_below _ here.ordered (.missing notArray empty free) below
  | @extend path passed rest segm m c archive walk member level level' next =>
    simp only [List.nil_append, Option.some.injEq] at found
    subst found
    have child := getAt_member walk member
    obtain rfl := Option.some.inj (child.symm.trans there)
    simp only [List.nil_append, List.drop_left]
    rcases left_of_walks accepted walk (started_of_array accepted walk level') with
      ⟨_, name, rfl, _⟩ | below
    · cases level'
    · exact appendWhole_below _ (regular_at regular there).here.ordered (.extend level level') below
  | entire archive walk => cases last

omit [DoubleText ν] in
theorem sameConfig_refl (world : World ν) : SameConfig world world := ⟨rfl, rfl, rfl⟩

omit [DoubleText ν] in
/-- Writing back what was read changes nothing. -/
theorem sameConfig_self {path : Path} (there : (rootNode world.root).getAt path = some node)
    {store : Store ν} (heap : store.heap = world.store.heap) (fs : store.fs = world.store.fs) :
    SameConfig world (world.modifyAt (fun _ => node) path store) := by
  refine ⟨?_, heap, fs⟩
  rw [World.modifyAt, modifyAt_self there]
  rfl

omit [DoubleText ν] in
/-- An append leaves the world as it was when it leaves its node and the store. -/
theorem sameConfig_iff {path : Path} (started : path ≠ []) (v : Bytes)
    (there : (rootNode world.root).getAt path = some node) :
    SameConfig world (world.modifyAt (fun _ => (rtAppend v world.store node segms).node) path
      (rtAppend v world.store node segms).store) ↔
        Unmoved world.store node (rtAppend v world.store node segms) := by
  have after := rootNode_modifyAt world (fun _ => (rtAppend v world.store node segms).node) started
    (rtAppend v world.store node segms).store
  constructor
  · rintro ⟨root, heap, fs⟩
    refine ⟨?_, heap, fs⟩
    have written := @getAt_modifyAt _ _ (fun _ => (rtAppend v world.store node segms).node) _ there
      (scopeKey_rtAppend ..)
    rw [← after, root, there] at written
    exact (Option.some.inj written).symm
  · rintro ⟨same, heap, fs⟩
    refine ⟨?_, heap, fs⟩
    rw [same, modifyAt_self there] at after
    rw [same]
    exact congrArg Node.nextScope after

theorem rtFieldUpdate_negative {store : Store ν} {v : Bytes}
    (negative : (rtFieldUpdate store node v).2.2 < 0) :
    rtFieldUpdate store node v = (store, node, -1) := by
  have positive : ¬ (1 : Int) < 0 := by decide
  generalize result : rtFieldUpdate store node v = r at negative ⊢
  rw [rtFieldUpdate] at result
  split at result
  · split at result
    · exact result.symm
    · split at result
      · subst result
        exact absurd negative positive
      · split at result
        · exact result.symm
        · subst result
          exact absurd negative (Int.lt_irrefl 0)
  · exact result.symm

theorem rtArrayFieldUpdate_negative {store : Store ν} {which : Int} {v : Bytes}
    (negative : (rtArrayFieldUpdate store node which v).2.2 < 0) :
    rtArrayFieldUpdate store node which v = (store, node, -1) := by
  have positive : ¬ (1 : Int) < 0 := by decide
  generalize result : rtArrayFieldUpdate store node which v = r at negative ⊢
  rw [rtArrayFieldUpdate] at result
  split at result
  · exact result.symm
  · split at result
    · exact result.symm
    · dsimp only at result
      split at result
      · exact result.symm
      · split at result
        · subst result
          exact absurd negative positive
        · split at result
          · exact result.symm
          · subst result
            exact absurd negative (Int.lt_irrefl 0)

/-- Where the whole key leads to a node, a refusal changes nothing. -/
theorem updateFound_negative {reached : Reached} {v : Bytes} {here : Path} {u : Updated ν}
    (done : updateFound world jrp reached v here = some u) (negative : u.retval < 0) :
    SameConfig world u.world := by
  rw [updateFound] at done
  split at done
  · rename_i node parentnode segm there above _
    split at done
    · obtain ⟨deleted, call, rfl⟩ := Option.map_eq_some_iff.mp done
      obtain ⟨store, parent⟩ := rtDelete_negative call negative
      have kept : ¬ 0 ≤ deleted.retval := Int.not_le.mpr negative
      have skipped : ¬ (0 ≤ deleted.retval ∧ node.info.fsSection ≤ 0 ∧
          checkpointKey.isPrefixOf jrp.dupkey ∧ deleted.oldvaluestring ≠ []) :=
        fun all => kept all.1
      dsimp only
      rw [if_neg skipped, store, parent]
      exact sameConfig_self above rfl rfl
    · split at done
      · obtain rfl := Option.some.inj done
        have refused := @rtFieldUpdate_negative ν _ node world.store v negative
        change SameConfig world (world.modifyAt (fun _ => (rtFieldUpdate world.store node v).2.1)
          here (rtFieldUpdate world.store node v).1)
        rw [refused]
        exact sameConfig_self there rfl rfl
      · split at done
        · obtain rfl := Option.some.inj done
          have refused := @rtArrayFieldUpdate_negative ν _ node world.store segm.index v negative
          change SameConfig world (world.modifyAt
            (fun _ => (rtArrayFieldUpdate world.store node segm.index v).2.1) here
            (rtArrayFieldUpdate world.store node segm.index v).1)
          rw [refused]
          exact sameConfig_self there rfl rfl
        · obtain rfl := Option.some.inj done
          exact sameConfig_refl world
  · obtain rfl := Option.some.inj done
    exact sameConfig_refl world

omit [DoubleText ν] in
/-- What `rt_append` is called for depends on the world and the request. -/
theorem appendsAt_unique {node' : Node} {segms' : List Segment}
    (h : AppendsAt world jrp node segms) (h' : AppendsAt world jrp node' segms') :
    node' = node ∧ segms' = segms := by
  obtain ⟨reached, previous, reach, _, found, there, rfl⟩ := h.place
  obtain ⟨reached', previous', reach', _, found', there', rfl⟩ := h'.place
  obtain rfl := Option.some.inj (reach'.symm.trans reach)
  obtain rfl := Option.some.inj (found'.symm.trans found)
  exact ⟨Option.some.inj (there'.symm.trans there), rfl⟩

theorem previous_ne_nil {reached : Reached} {path : Path} {n : Node} {segms : List Segment}
    (way : ReachedBy n [] [] segms reached) (found : reached.previous = some path) : path ≠ [] := by
  have started : ∀ {p : Path}, previousOf p = some path → path ≠ [] := by
    intro p h
    rw [previousOf] at h
    split at h
    · cases h
    · rename_i ne
      exact Option.some.inj h ▸ ne
  cases way with
  | whole archive walk => exact started found
  | missing archive walk free => exact started found
  | extend archive walk member level level' next =>
    obtain rfl := Option.some.inj found
    simp
  | entire archive walk member level level' filled index =>
    obtain rfl := Option.some.inj found
    simp

/-- An update comes to `rt_append`, or its refusal changes nothing. -/
theorem update_appends (regular : Regular 0 (rootNode world.root)) {u : Updated ν}
    (done : rtConfigUpdate world jrp = some u) :
    ((u.retval < 0 → SameConfig world u.world) ∧ ∀ node segms, ¬ AppendsAt world jrp node segms) ∨
      ∃ node segms path v, AppendsAt world jrp node segms ∧ path ≠ [] ∧
        (rootNode world.root).getAt path = some node ∧
        u.retval = (rtAppend v world.store node segms).retval ∧
        u.world = world.modifyAt (fun _ => (rtAppend v world.store node segms).node) path
          (rtAppend v world.store node segms).store := by
  have same : ∀ archive, some (⟨world, -1, archive⟩ : Updated ν) = some u →
      u.retval < 0 → SameConfig world u.world := by
    rintro archive h _
    obtain rfl := Option.some.inj h
    exact sameConfig_refl world
  rw [rtConfigUpdate] at done
  split at done
  · rename_i none
    refine Or.inl ⟨same _ done, fun node segms h => ?_⟩
    obtain ⟨_, v, value, _⟩ := h.value
    rw [none] at value
    cases value
  rename_i v value
  split at done
  · rename_i empty
    exact Or.inl ⟨same _ done, fun node segms h => h.value.1 empty⟩
  rename_i nonempty
  split at done
  · rename_i none
    refine Or.inl ⟨same _ done, fun node segms h => ?_⟩
    obtain ⟨reached, _, reach, _⟩ := h.place
    rw [none] at reach
    cases reach
  rename_i reached reach
  have nowhere : (reached.last ≠ none ∨ reached.previous = none) →
      ∀ node segms, ¬ AppendsAt world jrp node segms := by
    rintro other node segms h
    obtain ⟨reached', previous, reach', last, found, _⟩ := h.place
    obtain rfl := Option.some.inj (reach'.symm.trans reach)
    rcases other with ne | none
    · exact ne last
    · rw [none] at found
      cases found
  split at done
  · rename_i here _ last
    exact Or.inl ⟨updateFound_negative done, nowhere (Or.inl (by rw [last]; exact nofun))⟩
  · rename_i previous last found
    have updated := Option.some.inj done
    rw [updateMissing] at updated
    have refused : (∀ node, (rootNode world.root).getAt previous = some node →
        ∀ segms, ¬ AppendsAt world jrp node segms) → ∀ node segms,
        ¬ AppendsAt world jrp node segms := by
      intro never node segms h
      obtain ⟨reached', previous', reach', _, found', there, _⟩ := h.place
      obtain rfl := Option.some.inj (reach'.symm.trans reach)
      obtain rfl := Option.some.inj (found'.symm.trans found)
      exact never node there segms h
    split at updated
    · rename_i none
      refine Or.inl ⟨same _ (congrArg some updated), refused fun node there => ?_⟩
      rw [none] at there
      cases there
    · rename_i m there
      have here : ∀ node, (rootNode world.root).getAt previous = some node → node = m :=
        fun node h => Option.some.inj (h.symm.trans there)
      split at updated
      · rename_i leaf
        refine Or.inl ⟨same _ (congrArg some updated), refused fun node h segms appends => ?_⟩
        obtain rfl := here node h
        exact leaf.elim appends.level.1 appends.level.2
      · rename_i inner
        split at updated
        · rename_i file
          refine Or.inl ⟨same _ (congrArg some updated), refused fun node h segms appends => ?_⟩
          obtain rfl := here node h
          have long := appends.file file.1
          omega
        · rename_i file
          split at updated
          · rename_i keyword
            refine Or.inl ⟨same _ (congrArg some updated), refused fun node h segms appends => ?_⟩
            obtain ⟨_, v', value', keep⟩ := appends.value
            obtain rfl := Option.some.inj (value'.symm.trans value)
            exact keep keyword
          · rename_i keep
            refine Or.inr ⟨m, _, previous, v, ⟨⟨nonempty, v, value, keep⟩,
              ⟨reached, previous, reach, last, found, there, rfl⟩, not_or.mp inner, ?_⟩,
              previous_ne_nil (reachedBy_root regular.built reach) found, there, ?_, ?_⟩
            · intro dir
              by_contra short
              exact file ⟨dir, by omega⟩
            · rw [← updated]
            · rw [← updated]
  · rename_i last found
    exact Or.inl ⟨same _ done, nowhere (Or.inr found)⟩

/-- A refusal leaves everything as it was exactly when nothing was made before it. -/
theorem failsCleanly_iff (regular : Regular 0 (rootNode world.root))
    (vacant : Vacant world.store.fs) (received : Received jrp) :
    FailsCleanly world jrp ↔ Whole world jrp := by
  have exact_append : ∀ {u : Updated ν}, rtConfigUpdate world jrp = some u →
      ((u.retval < 0 → SameConfig world u.world) ↔ Whole world jrp) := by
    intro u done
    rcases update_appends regular done with ⟨kept, never⟩ | ⟨node, segms, path, v, appends,
      started, there, retval, after⟩
    · exact iff_of_true kept fun node segms h => absurd h (never node segms)
    · have whole : Whole world jrp ↔ AppendWhole world.store.fs node segms := by
        constructor
        · exact fun h => h node segms appends
        · intro h node' segms' appends'
          obtain ⟨rfl, rfl⟩ := appendsAt_unique appends appends'
          exact h
      rw [whole, @appendWhole_iff ν _ world jrp node segms regular vacant received v appends,
        retval, after, sameConfig_iff started v there]
  constructor
  · intro clean node segms appends
    obtain ⟨_, v, value, keep⟩ := appends.value
    obtain ⟨u, done⟩ := rtConfigUpdate_total world value keep
    exact (exact_append done).mp (clean u done) node segms appends
  · exact fun whole u done => (exact_append done).mpr whole

end Updating

section Runs
variable {fs fs' : FsLayout} {world : World ν}

theorem vacant_of_slots (vacant : Vacant fs) (slots : ∀ n, fs'.archive n = fs.archive n ∨
    fs'.archive n = .zero ∨ FileActive fs' n) : Vacant fs' := by
  intro n inactive
  rcases slots n with same | zero | active
  · rw [FileActive, same] at inactive
    rw [same]
    exact vacant n inactive
  · exact zero
  · exact absurd active inactive

theorem vacant_deleteFile (vacant : Vacant fs) (sectionNo : Int) :
    Vacant (fsDeleteFile fs sectionNo) := by
  rw [fsDeleteFile]
  split
  · exact vacant
  · rename_i n _
    refine vacant_of_slots vacant fun s => ?_
    dsimp only [fsSetSectionBitmask]
    by_cases here : s = n
    · subst here
      exact Or.inr (Or.inl (Function.update_self ..))
    · exact Or.inl (Function.update_of_ne here ..)

theorem vacant_dropFile (vacant : Vacant fs) (dirid : Int) (i : Fin fsMaxArch) :
    Vacant (dropFile dirid fs i) := by
  rw [dropFile]
  split
  · refine vacant_of_slots vacant fun s => ?_
    dsimp only [fsSetSectionBitmask]
    by_cases here : s = i
    · subst here
      exact Or.inr (Or.inl (Function.update_self ..))
    · exact Or.inl (Function.update_of_ne here ..)
  · exact vacant

theorem vacant_deleteDir (vacant : Vacant fs) (name : Bytes) : Vacant (fsDeleteDir fs name) := by
  have dropped : ∀ (dirid : Int) (slots : List (Fin fsMaxArch)) (fs : FsLayout), Vacant fs →
      Vacant (slots.foldl (dropFile dirid) fs) := by
    intro dirid slots
    induction slots with
    | nil => exact fun fs vacant => vacant
    | cons i rest ih => exact fun fs vacant => ih _ (vacant_dropFile vacant dirid i)
  rw [fsDeleteDir]
  split
  · exact vacant
  · exact dropped _ _ _ vacant

theorem vacant_overrideFile (vacant : Vacant fs) (sectionNo : Int) (text : Option Bytes) :
    Vacant (fsOverrideFile fs sectionNo text).1 := by
  rcases @overrideFile_cases fs sectionNo text with same | ⟨n, size, data, active, made⟩
  · rw [same]
    exact vacant
  · rw [made]
    refine vacant_of_slots vacant fun s => ?_
    by_cases here : s = n
    · subst here
      refine Or.inr (Or.inr ?_)
      rw [FileActive] at active ⊢
      dsimp only
      rwa [Function.update_self]
    · exact Or.inl (Function.update_of_ne here ..)

theorem vacant_allocateSection (vacant : Vacant fs) (dirName name : Bytes) :
    Vacant (allocateSection fs dirName name).1 := by
  have cases := @allocateSection_cases fs dirName name
  cases slot : slotFor fs dirName name with
  | outside =>
    rw [slot] at cases
    rwa [cases]
  | refused =>
    rw [slot] at cases
    rwa [cases]
  | tried n =>
    rw [slot] at cases
    obtain ⟨_, ⟨_, call⟩ | ⟨_, new, used, _, call⟩⟩ := cases
    · rw [call]
      exact vacant
    · rw [call]
      refine vacant_of_slots vacant fun s => ?_
      by_cases here : s = n
      · subst here
        refine Or.inr (Or.inr ?_)
        rw [FileActive]
        dsimp only [setFile]
        rwa [Function.update_self]
      · exact Or.inl (Function.update_of_ne here ..)

omit [DoubleText ν] in
theorem vacant_rtAppend (v : Bytes) {store : Store ν} (node : Node) (segms : List Segment)
    (vacant : Vacant store.fs) : Vacant (rtAppend v store node segms).store.fs := by
  have appending : Appending fun (store : Store ν) r => Vacant store.fs → Vacant r.store.fs :=
    { stops := fun _ _ _ _ _ vacant => vacant
      allocates := fun _ keeps vacant => keeps vacant }
  have taken : ∀ {fs fs' : FsLayout} {scope name : Bytes} {slot : Option Int},
      allocateSection fs scope name = (fs', slot) → Vacant fs → Vacant fs' := by
    intro fs fs' scope name slot call vacant
    have taken := vacant_allocateSection vacant scope name
    rwa [call] at taken
  have archiving : Archiving fun (store : Store ν) r => Vacant store.fs → Vacant r.store.fs :=
    { refused := fun _ call vacant => taken call vacant
      unmade := fun _ call vacant => vacant_deleteFile (taken call vacant) _
      made := fun _ _ call keeps vacant => keeps (taken call vacant) }
  exact rtAppend_keeps appending v (fun _ => archiving) store node vacant

/-- What every state of a run keeps to: a regular tree, and zero in the slots not in use. -/
structure Started (world : World ν) : Prop where
  regular : Regular 0 (rootNode world.root)
  vacant : Vacant world.store.fs

theorem vacant_update {jrp : Jrp} {u : Updated ν} (started : Started world)
    (accepted : AcceptedKey jrp.segm) (done : rtConfigUpdate world jrp = some u) :
    Vacant u.world.store.fs := by
  have vacant := started.vacant
  cases value : jrp.valuestring with
  | none =>
    rw [rtConfigUpdate, value] at done
    obtain rfl := Option.some.inj done
    exact vacant
  | some v =>
    cases update_cases started.regular.built accepted value done with
    | refused archive => exact vacant
    | delete walk found target keyword call checkpoints archive =>
      have after := rtDelete_fs call
      change Vacant _
      dsimp only [World.modifyAt]
      rw [after]
      split
      · exact vacant_deleteFile vacant _
      · exact vacant
    | field walk found level level' notDeleted archive =>
      dsimp only [World.modifyAt]
      rw [rtFieldUpdate_fs]
      exact vacant
    | item walk found level level' place notDeleted archive =>
      dsimp only [World.modifyAt]
      rw [rtArrayFieldUpdate_fs]
      exact vacant
    | missing walk started missing level noFile notDeleted archive =>
      exact vacant_rtAppend v _ _ vacant
    | extend walk found level level' next notDeleted archive =>
      exact vacant_rtAppend v _ _ vacant

theorem vacant_effect {l l' : Listing} (effect : Effect l fs l' fs') (vacant : Vacant fs) :
    Vacant fs' := by
  have attempt : ∀ {dirName name : Bytes} {made : FsLayout} {fsSection : Option Int},
      allocateSection fs dirName name = (made, fsSection) → Vacant made := by
    intro dirName name made fsSection call
    have taken := vacant_allocateSection vacant dirName name
    rwa [call] at taken
  cases effect with
  | none => exact vacant
  | save => exact vacant_overrideFile vacant _ _
  | mkdir fits call made =>
    rcases allocateDir_cases call with ⟨rfl, _⟩ | ⟨d, _, _, _, _, rfl⟩
    · exact vacant
    · exact vacant
  | rmdir there => exact vacant_deleteDir vacant _
  | clear => exact fun _ _ => rfl
  | create there missing noDot fits call own => exact attempt call
  | refuse there fits call => exact attempt call
  | undo there fits call => exact vacant_deleteFile (attempt call) _
  | delete there found => exact vacant_deleteFile vacant _

omit [DoubleText ν] in
theorem started_rtCreateDir {jrp : Jrp} {result : World ν × Int} (started : Started world)
    (done : rtCreateDir world jrp = some result) : Started result.1 := by
  rw [rtCreateDir] at done
  split at done
  · rename_i segm _ _
    obtain ⟨⟨fs, id⟩, call, rfl⟩ := Option.map_eq_some_iff.mp done
    have vacant : Vacant fs := by
      rcases allocateDir_cases call with ⟨rfl, _⟩ | ⟨d, _, _, _, _, rfl⟩
      · exact started.vacant
      · exact started.vacant
    dsimp only
    split
    · exact ⟨started.regular, vacant⟩
    · have dir : Regular 1 (ldrCreateDir world.store.heap.nextAddr segm.name) :=
        regular_leaf rfl rfl rfl rfl
      refine ⟨?_, vacant⟩
      have level : (ldrCreateDir world.store.heap.nextAddr segm.name).info.jsl = .dir := rfl
      exact regular_insertScope started.regular dir (not_isItem level (by simp) (by simp))
        (by rintro ⟨⟩)
  · obtain rfl := Option.some.inj done
    exact started

/-- Every request keeps what the states of a run keep to. -/
theorem started_step {print : Item ν → Bytes} {order : Order} {world' : World ν}
    (started : Started world) (received : Received order.jrp)
    (done : Orders.step print world order = some world') : Started world' := by
  rw [Orders.step] at done
  obtain ⟨answered, served, rfl⟩ := Option.map_eq_some_iff.mp done
  cases order with
  | mkdir jrp =>
    change proMkdir world jrp = some answered at served
    rw [proMkdir] at served
    split at served
    · obtain rfl := Option.some.inj served
      exact started
    · obtain ⟨result, call, rfl⟩ := Option.map_eq_some_iff.mp served
      exact started_rtCreateDir started call
  | rmdir jrp =>
    change proRmdir world jrp = some answered at served
    rw [proRmdir] at served
    split at served
    · obtain rfl := Option.some.inj served
      exact started
    · obtain ⟨result, call, rfl⟩ := Option.map_eq_some_iff.mp served
      obtain ⟨regular, effect⟩ := effect_rtRemoveDir started.regular call
      exact ⟨regular, vacant_effect effect started.vacant⟩
  | write jrp =>
    change proVariableWrite print world jrp = some answered at served
    rw [proVariableWrite] at served
    split at served
    · obtain rfl := Option.some.inj served
      exact started
    · obtain ⟨u, update, rfl⟩ := Option.map_eq_some_iff.mp served
      have regular := regular_update started.regular received.accepted update
      have vacant := vacant_update started received.accepted update
      split
      · exact ⟨regular, vacant⟩
      · split
        · rw [saveArchive]
          split
          · exact ⟨regular, vacant⟩
          · exact ⟨regular, vacant_overrideFile vacant _ _⟩
        · exact ⟨regular, vacant⟩

/-- In every state of a run, and for every request that is received there: a refusal leaves
everything as it was exactly when no node was made before it. -/
theorem failsCleanly_iff_whole {print : Item ν → Bytes} {orders : List Order}
    (started : Started world) (received : ∀ order ∈ orders, Received order.jrp) :
    Always (step print) (fun w => ∀ jrp, Received jrp → (FailsCleanly w jrp ↔ Whole w jrp))
      world orders := by
  have along : Along (step print) (fun _ order => Received order.jrp) world orders :=
    along_of_forall received world
  have states := always_of_along (fun _ _ _ started received => started_step started received)
    started along
  exact always_mono (fun w started jrp received =>
    failsCleanly_iff started.regular started.vacant received) states

end Runs

section Empty

theorem emptyServer_started : Started (emptyServer : World Nat) :=
  ⟨emptyServer_sound.regular, emptyServer_sound.tables.fileEmpty⟩

theorem failsCleanly_iff_whole_smallRun : Always (step fun _ : Item Nat => [])
    (fun w => ∀ jrp, Received jrp → (FailsCleanly w jrp ↔ Whole w jrp)) emptyServer smallRun :=
  failsCleanly_iff_whole emptyServer_started smallRun_received

/-- `d.a.s.l[1]=3`, where neither `s` nor `l` is there. -/
def deepRequest : Jrp where
  segm := [⟨ofChars ['d'], -1, .dir⟩, ⟨ofChars ['a'], -1, .archive⟩,
    ⟨ofChars ['s'], -1, .logicScope⟩, ⟨ofChars ['l'], 1, .array⟩]
  valuestring := some (ofChars ['3'])
  dupkey := ofChars ['d', '.', 'a', '.', 's', '.', 'l', '[', '1', ']']
  dupvalue := ofChars ['3']

/-- The directory `d` is made, and `d.a.x=1` is written. -/
def filledRun : List Order := [.mkdir dirRequest, .write writeRequest]

/-- The answer to a request after a run, and how many nodes there are before and after it. -/
def counted (orders : List Order) (jrp : Jrp) : Option (Int × Nat × Nat) :=
  (run (step fun _ : Item Nat => []) emptyServer orders).bind fun w =>
    (rtConfigUpdate w jrp).map fun u =>
      (u.retval, (rootNode w.root).idents.length, (rootNode u.world.root).idents.length)

theorem filledRun_counted : counted filledRun deepRequest = some (-1, 7, 8) := by decide +kernel

/-- After the run the request is refused, and leaves the empty scope `s` behind. -/
theorem failsCleanly_not_always : ¬ ∀ (orders : List Order) (world : World Nat) (jrp : Jrp),
    (∀ order ∈ orders, Received order.jrp) →
    run (step fun _ : Item Nat => []) emptyServer orders = some world → Received jrp →
    FailsCleanly world jrp := by
  intro always
  have received : ∀ order ∈ filledRun, Received order.jrp := by
    intro order mem
    refine smallRun_received order ?_
    simp only [filledRun, smallRun, List.mem_cons, List.not_mem_nil, or_false] at mem ⊢
    exact mem.elim Or.inl fun second => Or.inr (Or.inl second)
  have deep : Received deepRequest :=
    ⟨ofChars ['d', '.', 'a', '.', 's', '.', 'l', '[', '1', ']', '=', '3'], by decide +kernel⟩
  have outcome := filledRun_counted
  rw [counted] at outcome
  obtain ⟨w, ran, answered⟩ := Option.bind_eq_some_iff.mp outcome
  obtain ⟨u, done, numbers⟩ := Option.map_eq_some_iff.mp answered
  simp only [Prod.mk.injEq] at numbers
  obtain ⟨retval, before, after⟩ := numbers
  have same := (always filledRun w deepRequest received ran deep u done (by omega)).root
  rw [same, before] at after
  cases after

end Empty

end AllOrNothing
