import Cfgd.PermitOverride

/-!
# What the checkpoint files and the database hold

A checkpoint file holds the image that was copied into it, until it is deleted. From the
renaming of a recovery until its `recover2` has run, the database file holds that image,
unless another step puts something else there.
-/

namespace CheckpointImages

open PermitOverride SyncProtocol

universe u
variable {Image : Type u}

section Definitions

/-- A name that `pro_create_checkpoint` makes, of a date and a time. -/
def CheckpointFile (file : String) : Prop :=
  ∃ stamp : String, file = "jess_checkpoint_" ++ stamp ∧ ∀ c ∈ stamp.toList, c.isDigit ∨ c = '_'

/-- The answer to a checkpoint request is ok. -/
def answersOk (calls : Calls Image) (s : State Image) (file : String) : Bool :=
  calls.fileOpen && (s.disk file).isNone && calls.fileWrite

def renames (calls : Calls Image) : Bool := (List.range 3).any calls.rename

/-- A recovery has put this file in the place of the database, and its `recover2`
has not run. -/
def Placed (w : Watched Image) (file : String) : Prop :=
  some file ∈ w.chained ∨ w.state.dpcRun = .recover file .renamed

/-- A recovery has copied this file, and its `recover2` has not run. -/
def InUse (w : Watched Image) (file : String) : Prop :=
  w.state.dpcRun = .recover file .written ∨ Placed w file

/-- The images that checkpoints answered ok have copied. -/
def savedAfter (saved : String → Option Image) (w : Watched Image) :
    Act Image → String → Option Image
  | .dpc calls => match w.state.dpcRun with
    | .checkpoint file (some image) =>
      if answersOk calls w.state file then Function.update saved file (some image) else saved
    | _ => saved
  | _ => saved

/-- What is in the swap file is what the database file has to hold until the
`recover2` of a checkpoint has run. -/
def SwapKeeps (saved : String → Option Image) (w : Watched Image) : Prop :=
  ∀ file image, Placed w file → saved file = some image → w.state.disk configSwap = some image

/-- The condition on a step. A recovery gets its checkpoint into the database file, and
nobody puts anything else there before its `recover2` has run. -/
def FilesKept (saved : String → Option Image) (w : Watched Image) : Act Image → Prop
  | .dpc calls => match w.state.dpcRun with
    | .checkpoint file (some _) => answersOk calls w.state file = true → ¬ Placed w file
    | .recover file .written => (renames calls = true → SwapKeeps saved w) ∧
        (saved file ≠ none → renames calls = true ∨
          w.state.disk configDb = w.state.disk configSwap)
    | .fsync .written => renames calls = true → SwapKeeps saved w
    | _ => True
  | .pro _ => w.state.pro.head? = some .removeRoot → ∀ file, Placed w file → saved file = none
  | .requestPro _ | .requestDpc _ | .flushTick => True

/-- What the files hold that checkpoints and recoveries have to do with. -/
structure Held (saved : String → Option Image) (w : Watched Image) : Prop where
  aligned : Aligned w
  queued : ∀ file, DpcTask.checkpoint file ∈ w.state.dpc → CheckpointFile file
  running : ∀ file buffer, w.state.dpcRun = .checkpoint file buffer → CheckpointFile file
  named : ∀ file, saved file ≠ none → CheckpointFile file
  kept : ∀ file image, saved file = some image → ∀ found, w.state.disk file = some found →
    found = image
  swapped : ∀ file image, w.state.dpcRun = .recover file .written → saved file = some image →
    w.state.disk configSwap = some image
  placed : ∀ file image, Placed w file → saved file = some image →
    w.state.disk configDb = some image

end Definitions

theorem name_of_checkpoint {file : String} (named : CheckpointFile file) :
    file ≠ configDb ∧ file ≠ configSwap := by
  obtain ⟨stamp, rfl, -⟩ := named
  constructor
  · intro same
    have first := congrArg (fun name => name.toList.head?) same
    simp [configDb] at first
  · intro same
    have first := congrArg (fun name => name.toList.head?) same
    simp [configSwap] at first

theorem configDb_ne_swap : configDb ≠ configSwap := by decide

/-! ## The files -/

section Files
variable {saved : String → Option Image} {w : Watched Image}

theorem fsSwapDatabase_eq (calls : Calls Image) (disk : Disk Image) :
    fsSwapDatabase calls disk = if renames calls = true then
      Function.update (Function.update disk configDb (disk configSwap)) configSwap none
    else disk := rfl

theorem fsSwapDatabase_other (calls : Calls Image) (disk : Disk Image) {file : String}
    (named : CheckpointFile file) : fsSwapDatabase calls disk file = disk file := by
  obtain ⟨notDb, notSwap⟩ := name_of_checkpoint named
  rw [fsSwapDatabase_eq]
  split
  · rw [Function.update_of_ne notSwap, Function.update_of_ne notDb]
  · rfl

variable [LayoutImage Image]

theorem fsLoadConfigDatabase_disk (calls : Calls Image) (fs : FsServer Image)
    (disk : Disk Image) : (fsLoadConfigDatabase calls fs disk).2 = disk ∨
      disk configDb = none ∧
        (fsLoadConfigDatabase calls fs disk).2 =
          Function.update disk configDb (some calls.heap) := by
  rw [fsLoadConfigDatabase]
  split
  · by_cases made : ((disk configDb).isNone && calls.fileWrite) = true
    · right
      rw [if_pos made]
      rw [Bool.and_eq_true, Option.isNone_iff_eq_none] at made
      refine ⟨made.1, ?_⟩
      dsimp only
      split
      · rfl
      · split <;> rfl
    · left
      rw [if_neg made]
      dsimp only
      split
      · rfl
      · split <;> rfl
  · exact Or.inl rfl

/-- What is loaded is the image in the database file. -/
theorem fsLoadConfigDatabase_some {calls : Calls Image} {fs loaded : FsServer Image}
    {disk : Disk Image} {image : Image} (found : disk configDb = some image)
    (ok : (fsLoadConfigDatabase calls fs disk).1 = some loaded) :
    loaded.config = LayoutImage.updateSeq image := by
  cases opened : calls.fileOpen with
  | false => simp [fsLoadConfigDatabase, opened] at ok
  | true =>
    cases read : calls.fileRead with
    | false => simp [fsLoadConfigDatabase, opened, found, read] at ok
    | true =>
      simp [fsLoadConfigDatabase, opened, found, read] at ok
      rw [← ok]

/-- A task of the PRO thread touches no file but the database, and only `rmdir /`
takes away a database that is there. -/
theorem proExecuteTask_disk (calls : Calls Image) (s : State Image) (task : ProTask) :
    (∀ file, file ≠ configDb → (proExecuteTask calls s task).disk file = s.disk file) ∧
      (task ≠ .removeRoot → (s.disk configDb).isSome = true →
        (proExecuteTask calls s task).disk configDb = s.disk configDb) := by
  cases task with
  | write =>
    simp only [proExecuteTask]
    split <;> exact ⟨fun _ _ => rfl, fun _ _ => rfl⟩
  | removeRoot =>
    refine ⟨fun file other => ?_, fun same => absurd rfl same⟩
    simp [proExecuteTask, proRemoveRoot, other]
  | sync =>
    simp only [proExecuteTask]
    split
    · rw [proAppendFsync]
      split <;> exact ⟨fun _ _ => rfl, fun _ _ => rfl⟩
    · exact ⟨fun _ _ => rfl, fun _ _ => rfl⟩
  | recover2 =>
    have disk : (proExecuteTask calls s .recover2).disk =
      (fsLoadConfigDatabase calls s.fs s.disk).2 := rfl
    rw [disk]
    rcases fsLoadConfigDatabase_disk calls s.fs s.disk with same | ⟨missing, made⟩
    · rw [same]
      exact ⟨fun _ _ => rfl, fun _ _ => rfl⟩
    · rw [made]
      constructor
      · intro file other
        rw [Function.update_of_ne other]
      · intro _ present
        rw [missing] at present
        cases present
  | other => exact ⟨fun _ _ => rfl, fun _ _ => rfl⟩

/-- No task of the PRO thread queues a checkpoint. -/
theorem proExecuteTask_dpc (calls : Calls Image) (s : State Image) (task : ProTask)
    (file : String) (queued : DpcTask.checkpoint file ∈ (proExecuteTask calls s task).dpc) :
    DpcTask.checkpoint file ∈ s.dpc := by
  cases task with
  | write =>
    simp only [proExecuteTask] at queued
    split at queued <;> exact queued
  | sync =>
    simp only [proExecuteTask] at queued
    split at queued
    · rw [proAppendFsync] at queued
      split at queued
      · simp only [enqueue] at queued
        split at queued
        · simpa using queued
        · exact queued
      · exact queued
    · exact queued
  | removeRoot => exact queued
  | recover2 => exact queued
  | other => exact queued

omit [LayoutImage Image] in
/-- `fs_fsync` writes the swap file, and renames it in one step. -/
theorem fsFsync_files (calls : Calls Image) (s : State Image) (pc : FsyncPc Image) :
    (fsFsync calls s pc).pro = s.pro ∧ (fsFsync calls s pc).dpc = s.dpc ∧
      ((fsFsync calls s pc).dpcRun = .idle ∨ ∃ pc', (fsFsync calls s pc).dpcRun = .fsync pc') ∧
      ((∀ file, file ≠ configSwap → (fsFsync calls s pc).disk file = s.disk file) ∨
        pc = .written ∧ (fsFsync calls s pc).disk = fsSwapDatabase calls s.disk) := by
  cases pc with
  | start =>
    rw [fsFsync]
    split
    · exact ⟨rfl, rfl, Or.inl rfl, Or.inl fun _ _ => rfl⟩
    · exact ⟨rfl, rfl, Or.inr ⟨_, rfl⟩, Or.inl fun _ _ => rfl⟩
  | allowed =>
    rw [fsFsync]
    split
    · exact ⟨rfl, rfl, Or.inr ⟨_, rfl⟩, Or.inl fun _ _ => rfl⟩
    · exact ⟨rfl, rfl, Or.inl rfl, Or.inl fun _ _ => rfl⟩
  | copied buffer =>
    rw [fsFsync]
    split
    · exact ⟨rfl, rfl, Or.inr ⟨_, rfl⟩, Or.inl fun file other => Function.update_of_ne other _ _⟩
    · exact ⟨rfl, rfl, Or.inl rfl, Or.inl fun file other => Function.update_of_ne other _ _⟩
  | written => exact ⟨rfl, rfl, Or.inr ⟨_, rfl⟩, Or.inr ⟨rfl, rfl⟩⟩
  | renamed => exact ⟨rfl, rfl, Or.inl rfl, Or.inl fun _ _ => rfl⟩

end Files

/-! ## One step -/

section Steps
variable {saved : String → Option Image} {w w' : Watched Image} [LayoutImage Image]

omit [LayoutImage Image] in
theorem booted_held (booted : Booted w.state) (noneWaiting : w.chained = []) :
    Held (fun _ => none) w where
  aligned := by
    rw [Aligned, noneWaiting, booted.noPro]
    exact .nil
  queued := by simp [booted.noDpc]
  running := by simp [booted.idle]
  named := by simp
  kept := by simp
  swapped := by simp
  placed := by simp

omit [LayoutImage Image] in
/-- A step that writes no checkpoint file. -/
theorem held_frame (h : Held saved w) (aligned : Aligned w')
    (queued : ∀ file, DpcTask.checkpoint file ∈ w'.state.dpc → CheckpointFile file)
    (running : ∀ file buffer, w'.state.dpcRun = .checkpoint file buffer → CheckpointFile file)
    (files : ∀ file, CheckpointFile file → ∀ found, w'.state.disk file = some found →
      w.state.disk file = some found)
    (swapped : ∀ file image, w'.state.dpcRun = .recover file .written → saved file = some image →
      w'.state.disk configSwap = some image)
    (placed : ∀ file image, Placed w' file → saved file = some image →
      w'.state.disk configDb = some image) : Held saved w' where
  aligned := aligned
  queued := queued
  running := running
  named := h.named
  kept := by
    intro file image was found there
    have named := h.named file (by simp [was])
    exact h.kept file image was found (files file named found there)
  swapped := swapped
  placed := placed

theorem some_mem_append_none {chained : List (Option String)} {n : Nat} {file : String}
    (mem : some file ∈ chained ++ List.replicate n none) : some file ∈ chained := by
  simpa [List.mem_replicate] using mem

/-- A request waits in its queue; the files and the DPC thread are as they were. -/
theorem request_frame {act : Act Image} {t : State Image}
    (outer : (∀ calls, act ≠ .pro calls) ∧ ∀ calls, act ≠ .dpc calls)
    (next : step w.state act = some t) :
    t.dpcRun = w.state.dpcRun ∧ t.disk = w.state.disk ∧
      (∀ file, DpcTask.checkpoint file ∈ t.dpc → DpcTask.checkpoint file ∈ w.state.dpc ∨
        act = .requestDpc (.checkpoint file)) ∧
      chainedAfter w t act = w.chained ++
        List.replicate (t.pro.length - w.state.pro.length) none := by
  cases act with
  | requestPro task =>
    cases next
    exact ⟨rfl, rfl, fun file mem => Or.inl mem, rfl⟩
  | requestDpc task =>
    cases next
    refine ⟨?_, ?_, ?_, rfl⟩
    · cases task <;> rfl
    · cases task <;> rfl
    · intro file mem
      cases task with
      | fsync => exact Or.inl mem
      | checkpoint other =>
        simp only [requestDpc, enqueue] at mem
        split at mem
        · simpa [eq_comm] using mem
        · exact Or.inl mem
      | recover other =>
        simp only [requestDpc, enqueue] at mem
        split at mem
        · simpa using mem
        · exact Or.inl mem
      | other =>
        simp only [requestDpc, enqueue] at mem
        split at mem
        · simpa using mem
        · exact Or.inl mem
  | flushTick =>
    cases next
    refine ⟨?_, ?_, ?_, rfl⟩
    · exact (fsFlushCheck_queue _).2.1
    · simp only [fsFlushCheck]
      split
      · rfl
      · split <;> rfl
    · intro file mem
      left
      simp only [fsFlushCheck] at mem
      split at mem
      · exact mem
      · split at mem <;> exact mem
  | pro calls => exact absurd rfl (outer.1 calls)
  | dpc calls => exact absurd rfl (outer.2 calls)

/-- A request, or a turn of the flush thread. -/
theorem held_request {act : Act Image} (h : Held saved w)
    (named : ∀ file, act = .requestDpc (.checkpoint file) → CheckpointFile file)
    (outer : (∀ calls, act ≠ .pro calls) ∧ ∀ calls, act ≠ .dpc calls)
    (next : watchedStep w act = some w') : Held saved w' := by
  have aligned := aligned_step h.aligned next
  simp only [watchedStep, Option.map_eq_some_iff] at next
  obtain ⟨t, next, rfl⟩ := next
  obtain ⟨running, disk, queue, chained⟩ := request_frame outer next
  refine held_frame h aligned ?_ ?_ ?_ ?_ ?_
  · intro file mem
    rcases queue file mem with mem | asked
    · exact h.queued file mem
    · exact named file asked
  · intro file buffer run
    exact h.running file buffer (running ▸ run)
  · intro file _ found there
    exact disk ▸ there
  · intro file image run was
    have before := h.swapped file image (running ▸ run) was
    rw [disk]
    exact before
  · intro file image waits was
    have before := h.placed file image (by
      rcases waits with mem | run
      · rw [chained] at mem
        exact Or.inl (some_mem_append_none mem)
      · exact Or.inr (running ▸ run)) was
    rw [disk]
    exact before

/-- A task of the PRO thread. -/
theorem held_pro {calls : Calls Image} (h : Held saved w) (keeps : FilesKept saved w (.pro calls))
    (next : watchedStep w (.pro calls) = some w') : Held saved w' ∧
      (w'.state.dpcRun = w.state.dpcRun ∧ ∀ file, Placed w' file → Placed w file) := by
  have aligned := aligned_step h.aligned next
  simp only [watchedStep, Option.map_eq_some_iff] at next
  obtain ⟨t, next, rfl⟩ := next
  cases hq : w.state.pro with
  | nil => simp [step, hq] at next
  | cons task rest =>
    simp only [step, hq, Option.some.injEq] at next
    obtain ⟨files, database⟩ := proExecuteTask_disk calls { w.state with pro := rest } task
    have running : t.dpcRun = w.state.dpcRun := by
      rw [← next]
      exact (proExecuteTask_queue calls _ task).2.1
    rw [next] at files database
    have placed : ∀ file, Placed ⟨t, chainedAfter w t (.pro calls)⟩ file → Placed w file := by
      rintro file (mem | run)
      · exact Or.inl (List.mem_of_mem_tail mem)
      · exact Or.inr (running ▸ run)
    refine ⟨held_frame h aligned ?_ ?_ ?_ ?_ ?_, running, placed⟩
    · intro file mem
      rw [← next] at mem
      exact h.queued file (proExecuteTask_dpc calls { w.state with pro := rest } task file mem)
    · intro file buffer run
      exact h.running file buffer (running ▸ run)
    · intro file isNamed found there
      exact (files file (name_of_checkpoint isNamed).1).symm.trans there
    · intro file image run was
      have before := h.swapped file image (running ▸ run) was
      exact (files configSwap (by decide)).trans before
    · intro file image waits was
      have same := h.placed file image (placed file waits) was
      have notRoot : task ≠ .removeRoot := by
        rintro rfl
        have none := keeps (by rw [hq]; rfl) file (placed file waits)
        rw [none] at was
        cases was
      exact (database notRoot (by rw [same]; rfl)).trans same

/-- A step of the DPC thread that queues nothing for the PRO thread and takes no
checkpoint. -/
theorem held_dpcFrame {calls : Calls Image} {t : State Image} (h : Held saved w)
    (next : dpcStep calls w.state = some t) (queue : t.pro = w.state.pro)
    (queued : ∀ file, DpcTask.checkpoint file ∈ t.dpc → DpcTask.checkpoint file ∈ w.state.dpc)
    (running : ∀ file buffer, t.dpcRun = .checkpoint file buffer → CheckpointFile file)
    (files : ∀ file, CheckpointFile file → t.disk file = w.state.disk file)
    (swapped : ∀ file image, t.dpcRun = .recover file .written → saved file = some image →
      t.disk configSwap = some image)
    (waiting : ∀ file image, some file ∈ w.chained → saved file = some image →
      t.disk configDb = some image)
    (renamed : ∀ file image, t.dpcRun = .recover file .renamed → saved file = some image →
      t.disk configDb = some image) : Held saved ⟨t, chainedAfter w t (.dpc calls)⟩ := by
  have whole : watchedStep w (.dpc calls) = some ⟨t, chainedAfter w t (.dpc calls)⟩ := by
    rw [watchedStep, show step w.state (.dpc calls) = some t from next]
    rfl
  refine held_frame h (aligned_step h.aligned whole) ?_ running ?_ swapped ?_
  · intro file mem
    exact h.queued file (queued file mem)
  · intro file named found there
    exact files file named ▸ there
  · intro file image waits was
    rcases waits with mem | run
    · have before : some file ∈ w.chained := by
        simpa [chainedAfter, queue] using mem
      exact waiting file image before was
    · exact renamed file image run was

omit [LayoutImage Image] in
/-- Renaming keeps the database for the recoveries that wait. -/
theorem database_kept {calls : Calls Image} {file : String} {image : Image} (h : Held saved w)
    (keeps : renames calls = true → SwapKeeps saved w) (waits : some file ∈ w.chained)
    (was : saved file = some image) :
    fsSwapDatabase calls w.state.disk configDb = some image := by
  rw [fsSwapDatabase_eq]
  split
  · rename_i done
    rw [Function.update_of_ne configDb_ne_swap, Function.update_self]
    exact keeps done file image (Or.inl waits) was
  · exact h.placed file image (Or.inl waits) was

theorem held_fsync {calls : Calls Image} {pc : FsyncPc Image} (h : Held saved w)
    (keeps : FilesKept saved w (.dpc calls)) (run : w.state.dpcRun = .fsync pc) :
    Held saved
      ⟨fsFsync calls w.state pc, chainedAfter w (fsFsync calls w.state pc) (.dpc calls)⟩ := by
  obtain ⟨queue, tasks, after, disk⟩ := fsFsync_files calls w.state pc
  have next : dpcStep calls w.state = some (fsFsync calls w.state pc) := by
    rw [dpcStep, run]
  have noRecover (file : String) (pc' : RecoverPc) :
      (fsFsync calls w.state pc).dpcRun ≠ .recover file pc' := by
    rcases after with idle | ⟨pc'', still⟩
    · simp [idle]
    · simp [still]
  refine held_dpcFrame h next queue ?_ ?_ ?_ ?_ ?_ ?_
  · intro file mem
    exact tasks ▸ mem
  · intro file buffer checkpoint
    rcases after with idle | ⟨pc'', still⟩
    · simp [idle] at checkpoint
    · simp [still] at checkpoint
  · intro file named
    rcases disk with same | ⟨-, swap⟩
    · exact same file (name_of_checkpoint named).2
    · rw [swap, fsSwapDatabase_other calls _ named]
  · exact fun file image recover => absurd recover (noRecover file _)
  · intro file image waits was
    rcases disk with same | ⟨rfl, swap⟩
    · rw [same configDb (by decide)]
      exact h.placed file image (Or.inl waits) was
    · rw [swap]
      refine database_kept h ?_ waits was
      simpa only [FilesKept, run] using keeps
  · exact fun file image recover => absurd recover (noRecover file _)

theorem held_dpcBegin {calls : Calls Image} {t : State Image} (h : Held saved w)
    (run : w.state.dpcRun = .idle) (next : dpcStep calls w.state = some t) :
    Held saved ⟨t, chainedAfter w t (.dpc calls)⟩ := by
  cases hq : w.state.dpc with
  | nil => simp [dpcStep, run, hq] at next
  | cons task rest =>
    have ends : t = { w.state with dpc := rest, dpcRun := dpcBegin task } := by
      simpa [dpcStep, run, hq] using next.symm
    have same : t.disk = w.state.disk := by rw [ends]
    have noRecover (file : String) (pc : RecoverPc) (later : pc ≠ .start) :
        t.dpcRun ≠ .recover file pc := by
      rw [ends]
      cases task with
      | recover other => exact fun same => later (DpcRun.recover.inj same).2.symm
      | fsync => simp [dpcBegin]
      | checkpoint other => simp [dpcBegin]
      | other => simp [dpcBegin]
    refine held_dpcFrame h next (by rw [ends]) ?_ ?_ ?_ ?_ ?_ ?_
    · intro file mem
      rw [ends] at mem
      rw [hq]
      exact List.mem_cons_of_mem _ mem
    · intro file buffer checkpoint
      apply h.queued
      rw [ends] at checkpoint
      cases task with
      | checkpoint other =>
        simp only [dpcBegin, DpcRun.checkpoint.injEq] at checkpoint
        simp [hq, checkpoint.1]
      | fsync => cases checkpoint
      | recover other => cases checkpoint
      | other => cases checkpoint
    · exact fun file _ => congrFun same file
    · exact fun file image recover => absurd recover (noRecover file _ (by simp))
    · intro file image waits was
      rw [same]
      exact h.placed file image (Or.inl waits) was
    · exact fun file image recover => absurd recover (noRecover file _ (by simp))

/-- A step of a checkpoint that is not answered ok. -/
theorem held_checkpointPart {calls : Calls Image} {file : String} {buffer : Option Image}
    (h : Held saved w) (run : w.state.dpcRun = .checkpoint file buffer)
    (notYet : ∀ image, buffer = some image → answersOk calls w.state file = false) :
    Held saved ⟨fsCreateCheckpoint calls w.state file buffer,
      chainedAfter w (fsCreateCheckpoint calls w.state file buffer) (.dpc calls)⟩ := by
  have next : dpcStep calls w.state = some (fsCreateCheckpoint calls w.state file buffer) := by
    rw [dpcStep, run]
  have effect : ∃ running, fsCreateCheckpoint calls w.state file buffer =
      { w.state with dpcRun := running } ∧
        (running = .idle ∨ ∃ image, running = .checkpoint file image) := by
    cases buffer with
    | none =>
      rw [fsCreateCheckpoint]
      split
      · exact ⟨_, rfl, Or.inr ⟨_, rfl⟩⟩
      · exact ⟨_, rfl, Or.inl rfl⟩
    | some image =>
      have refused := notYet image rfl
      rw [answersOk] at refused
      exact ⟨.idle, by simp [fsCreateCheckpoint, refused], Or.inl rfl⟩
  obtain ⟨running, ends, after⟩ := effect
  have noRecover (other : String) (pc : RecoverPc) : running ≠ .recover other pc := by
    rcases after with rfl | ⟨image, rfl⟩ <;> simp
  rw [ends] at next ⊢
  refine held_dpcFrame h next rfl (fun _ mem => mem) ?_ (fun _ _ => rfl) ?_ ?_ ?_
  · intro other image checkpoint
    rcases after with rfl | ⟨_, rfl⟩
    · cases checkpoint
    · cases checkpoint
      exact h.running _ _ run
  · exact fun other image recover => absurd recover (noRecover other _)
  · exact fun other image waits was => h.placed other image (Or.inl waits) was
  · exact fun other image recover => absurd recover (noRecover other _)

omit [LayoutImage Image] in
/-- A checkpoint that is answered ok. -/
theorem held_checkpoint {calls : Calls Image} {file : String} {image : Image}
    (h : Held saved w) (keeps : FilesKept saved w (.dpc calls))
    (run : w.state.dpcRun = .checkpoint file (some image))
    (ok : answersOk calls w.state file = true) :
    Held (Function.update saved file (some image))
      ⟨fsCreateCheckpoint calls w.state file (some image),
        chainedAfter w (fsCreateCheckpoint calls w.state file (some image)) (.dpc calls)⟩ := by
  have isNamed := h.running file _ run
  obtain ⟨notDb, notSwap⟩ := name_of_checkpoint isNamed
  have notPlaced : ¬ Placed w file := by
    have condition : answersOk calls w.state file = true → ¬ Placed w file := by
      simpa only [FilesKept, run] using keeps
    exact condition ok
  have wrote : fsCreateCheckpoint calls w.state file (some image) = { w.state with
      disk := Function.update w.state.disk file (some image), dpcRun := .idle } := by
    rw [fsCreateCheckpoint, if_pos]
    exact ok
  have marks : chainedAfter w { w.state with
      disk := Function.update w.state.disk file (some image), dpcRun := .idle }
        (.dpc calls) = w.chained := by
    simp [chainedAfter]
  rw [wrote, marks]
  constructor
  · exact h.aligned
  · exact h.queued
  · intro other buffer again
    cases again
  · intro other was
    by_cases same : other = file
    · exact same ▸ isNamed
    · rw [Function.update_of_ne same] at was
      exact h.named other was
  · intro other image' was found there
    by_cases same : other = file
    · subst same
      simp only [Function.update_self, Option.some.injEq] at was there
      exact there.symm.trans was
    · simp only [Function.update_of_ne same] at was there
      exact h.kept other image' was found there
  · intro other image' recover
    cases recover
  · intro other image' waits was
    have waits' : Placed w other := by
      rcases waits with mem | recover
      · exact Or.inl mem
      · cases recover
    have different : other ≠ file := by
      rintro rfl
      exact notPlaced waits'
    rw [Function.update_of_ne different] at was
    simp only [Function.update_of_ne notDb.symm]
    exact h.placed other image' waits' was

/-- The swap file gets the checkpoint, or is gone. -/
theorem held_recoverCopies {calls : Calls Image} {file : String} (h : Held saved w)
    (next : dpcStep calls w.state = some (fsRecoverCheckpoint calls w.state file .disabled)) :
    Held saved ⟨fsRecoverCheckpoint calls w.state file .disabled,
      chainedAfter w (fsRecoverCheckpoint calls w.state file .disabled) (.dpc calls)⟩ := by
  have waiting (other : String) (image : Image) (waits : some other ∈ w.chained)
      (was : saved other = some image) := h.placed other image (Or.inl waits) was
  by_cases moves : movesToSwap calls w.state file = true
  · obtain ⟨image, found, moved⟩ := fsRecoverCheckpoint_moves moves
    rw [moved] at next ⊢
    refine held_dpcFrame h next rfl (fun _ mem => mem) ?_ ?_ ?_ ?_ ?_
    · intro other buffer after
      cases after
    · exact fun other named => Function.update_of_ne (name_of_checkpoint named).2 _ _
    · intro other image' after was
      cases after
      have notSwap := (name_of_checkpoint (h.named file (by simp [was]))).2
      have same := h.kept _ image' was image found
      simp [notSwap, same]
    · intro other image' waits was
      rw [← waiting other image' waits was]
      exact Function.update_of_ne configDb_ne_swap
        (some (if file = configSwap then calls.heap else image)) _
    · intro other image' after
      cases after
  · have failed := fsRecoverCheckpoint_fails moves
    rw [failed] at next ⊢
    refine held_dpcFrame h next rfl (fun _ mem => mem) ?_ ?_ ?_ ?_ ?_
    · intro other buffer after
      cases after
    · exact fun other named => Function.update_of_ne (name_of_checkpoint named).2 _ _
    · intro other image after
      cases after
    · intro other image waits was
      rw [← waiting other image waits was]
      exact Function.update_of_ne configDb_ne_swap none _
    · intro other image after
      cases after

/-- The swap file becomes the database. -/
theorem held_recoverSwaps {calls : Calls Image} {file : String} (h : Held saved w)
    (keeps : FilesKept saved w (.dpc calls)) (run : w.state.dpcRun = .recover file .written)
    (next : dpcStep calls w.state = some (fsRecoverCheckpoint calls w.state file .written)) :
    Held saved ⟨fsRecoverCheckpoint calls w.state file .written,
      chainedAfter w (fsRecoverCheckpoint calls w.state file .written) (.dpc calls)⟩ := by
  have condition : (renames calls = true → SwapKeeps saved w) ∧
      (saved file ≠ none → renames calls = true ∨
        w.state.disk configDb = w.state.disk configSwap) := by
    simpa only [FilesKept, run] using keeps
  refine held_dpcFrame h next rfl (fun _ mem => mem) ?_ ?_ ?_ ?_ ?_
  · intro other buffer after
    cases after
  · exact fun other named => fsSwapDatabase_other calls _ named
  · intro other image after
    cases after
  · exact fun other image waits was => database_kept h condition.1 waits was
  · intro other image after was
    cases after
    have swap := h.swapped _ image run was
    change fsSwapDatabase calls w.state.disk configDb = _
    rw [fsSwapDatabase_eq]
    split
    · rw [Function.update_of_ne configDb_ne_swap, Function.update_self, swap]
    · rename_i kept
      rcases condition.2 (by simp [was]) with done | same
      · exact absurd done kept
      · rw [same, swap]

/-- The `recover2` of the recovery is queued. -/
theorem held_recoverChains {calls : Calls Image} {file : String} (h : Held saved w)
    (run : w.state.dpcRun = .recover file .renamed)
    (next : dpcStep calls w.state = some (fsRecoverCheckpoint calls w.state file .renamed)) :
    Held saved ⟨fsRecoverCheckpoint calls w.state file .renamed,
      chainedAfter w (fsRecoverCheckpoint calls w.state file .renamed) (.dpc calls)⟩ := by
  have whole : watchedStep w (.dpc calls) = some ⟨fsRecoverCheckpoint calls w.state file .renamed,
      chainedAfter w (fsRecoverCheckpoint calls w.state file .renamed) (.dpc calls)⟩ := by
    rw [watchedStep, show step w.state (.dpc calls) = _ from next]
    rfl
  refine held_frame h (aligned_step h.aligned whole) h.queued ?_ (fun _ _ _ there => there) ?_ ?_
  · intro other buffer after
    cases after
  · intro other image after
    cases after
  · intro other image waits was
    apply h.placed other image ?_ was
    rcases waits with mem | after
    · simp only [chainedAfter, run, fileOf, List.mem_append, List.mem_replicate] at mem
      rcases mem with mem | ⟨-, same⟩
      · exact Or.inl mem
      · cases same
        exact Or.inr run
    · cases after

/-- A step of `fs_recover_checkpoint`. -/
theorem held_recover {calls : Calls Image} {file : String} {pc : RecoverPc} (h : Held saved w)
    (keeps : FilesKept saved w (.dpc calls)) (run : w.state.dpcRun = .recover file pc) :
    Held saved ⟨fsRecoverCheckpoint calls w.state file pc,
      chainedAfter w (fsRecoverCheckpoint calls w.state file pc) (.dpc calls)⟩ := by
  have next : dpcStep calls w.state = some (fsRecoverCheckpoint calls w.state file pc) := by
    rw [dpcStep, run]
  cases pc with
  | start =>
    refine held_dpcFrame h next rfl (fun _ mem => mem) ?_ (fun _ _ => rfl) ?_
      (fun other image waits was => h.placed other image (Or.inl waits) was) ?_
    · intro other buffer after
      cases after
    · intro other image after
      cases after
    · intro other image after
      cases after
  | disabled => exact held_recoverCopies h next
  | written => exact held_recoverSwaps h keeps run next
  | renamed => exact held_recoverChains h run next

theorem held_dpc {calls : Calls Image} (h : Held saved w) (keeps : FilesKept saved w (.dpc calls))
    (next : watchedStep w (.dpc calls) = some w') : Held (savedAfter saved w (.dpc calls)) w' := by
  simp only [watchedStep, step, Option.map_eq_some_iff] at next
  obtain ⟨t, next, rfl⟩ := next
  cases run : w.state.dpcRun with
  | idle =>
    have same : savedAfter saved w (.dpc calls) = saved := by simp [savedAfter, run]
    rw [same]
    exact held_dpcBegin h run next
  | fsync pc =>
    have same : savedAfter saved w (.dpc calls) = saved := by simp [savedAfter, run]
    rw [same]
    simp only [dpcStep, run, Option.some.injEq] at next
    subst next
    exact held_fsync h keeps run
  | checkpoint file buffer =>
    simp only [dpcStep, run, Option.some.injEq] at next
    subst next
    cases buffer with
    | none =>
      have same : savedAfter saved w (.dpc calls) = saved := by simp [savedAfter, run]
      rw [same]
      exact held_checkpointPart h run (by simp)
    | some image =>
      cases ok : answersOk calls w.state file with
      | true =>
        have after : savedAfter saved w (.dpc calls) = Function.update saved file (some image) := by
          simp [savedAfter, run, ok]
        rw [after]
        exact held_checkpoint h keeps run ok
      | false =>
        have same : savedAfter saved w (.dpc calls) = saved := by simp [savedAfter, run, ok]
        rw [same]
        exact held_checkpointPart h run fun _ _ => ok
  | recover file pc =>
    have same : savedAfter saved w (.dpc calls) = saved := by simp [savedAfter, run]
    rw [same]
    simp only [dpcStep, run, Option.some.injEq] at next
    subst next
    exact held_recover h keeps run

end Steps

/-! ## Files that are deleted -/

section Deletions
variable {saved : String → Option Image} {w : Watched Image}

/-- The cache is left as `cache`, and the files in `gone` are deleted. -/
def settled (w : Watched Image) (cache : Image) (gone : String → Bool) : Watched Image :=
  { w with state := { w.state with
      fs := { w.state.fs with cache := cache }
      disk := fun file => if gone file then none else w.state.disk file } }

theorem settled_keep (w : Watched Image) (cache : Image) {gone : String → Bool} {file : String}
    (stays : gone file = false) : (settled w cache gone).state.disk file = w.state.disk file := by
  simp [settled, stays]

/-- No file is deleted that a recovery goes on with. -/
theorem held_settled (h : Held saved w) (cache : Image) {gone : String → Bool}
    (stays : ∀ file, InUse w file → saved file ≠ none →
      gone configDb = false ∧ gone configSwap = false) : Held saved (settled w cache gone) where
  aligned := h.aligned
  queued := h.queued
  running := h.running
  named := h.named
  kept := by
    intro file image was found there
    refine h.kept file image was found ?_
    by_cases deleted : gone file = true
    · simp [settled, deleted] at there
    · rwa [settled_keep w cache (Bool.eq_false_iff.mpr deleted)] at there
  swapped := by
    intro file image run was
    have swap := (stays file (Or.inl run) (by simp [was])).2
    rw [settled_keep w cache swap]
    exact h.swapped file image run was
  placed := by
    intro file image waits was
    have database := (stays file (Or.inr waits) (by simp [was])).1
    rw [settled_keep w cache database]
    exact h.placed file image waits was

end Deletions

end CheckpointImages
