import Mathlib.Data.List.Forall2
import Cfgd.SyncProtocol

/-!
# The permission to override during a recovery

`fs_recover_checkpoint` clears `permit_override` on the DPC thread. It is set again
there when the recovery fails, and otherwise by the `recover2` task that it queues
for the PRO thread. A client can ask for a `recover2` too. The history variable
`chained` tells the tasks of the PRO queue that a recovery waits for from the
others.
-/

namespace PermitOverride

open Transition SyncProtocol

universe u
variable {Image : Type u}

/-- `chained` has one entry for each waiting PRO task: the file whose recovery the
task ends, or nothing. -/
structure Watched (Image : Type u) where
  state : State Image
  chained : List (Option String)

def fileOf : DpcRun Image → Option String
  | .recover file _ => some file
  | _ => none

/-- Past the step that clears the flag. -/
def passed : DpcRun Image → Bool
  | .recover _ .start => false
  | .recover _ _ => true
  | _ => false

/-- What a step queues for the PRO thread is marked by the thread that queues it. -/
def chainedAfter (w : Watched Image) (t : State Image) : Act Image → List (Option String)
  | .pro _ => w.chained.tail
  | .dpc _ =>
    w.chained ++ List.replicate (t.pro.length - w.state.pro.length) (fileOf w.state.dpcRun)
  | .requestPro _ | .requestDpc _ | .flushTick =>
    w.chained ++ List.replicate (t.pro.length - w.state.pro.length) none

def watchedStep [LayoutImage Image] (w : Watched Image) (a : Act Image) :
    Option (Watched Image) :=
  (step w.state a).map fun t => ⟨t, chainedAfter w t a⟩

/-- A recovery has handed over to its `recover2`, which waits. -/
def Waiting (chained : List (Option String)) : Prop := ∃ mark ∈ chained, mark ≠ none

instance (chained : List (Option String)) : Decidable (Waiting chained) :=
  inferInstanceAs (Decidable (∃ mark ∈ chained, mark ≠ none))

def InProgress (w : Watched Image) : Prop :=
  passed w.state.dpcRun = true ∨ Waiting w.chained

instance (w : Watched Image) : Decidable (InProgress w) :=
  inferInstanceAs (Decidable (_ ∨ _))

def Flagged (w : Watched Image) : Prop := w.state.fs.permitOverride = 0 ↔ InProgress w

instance (w : Watched Image) : Decidable (Flagged w) :=
  inferInstanceAs (Decidable (_ ↔ _))

/-- A sync request is refused, and an fsync task that starts is. -/
def Refuses (s : State Image) : Prop :=
  (fsSync s.fs).status = .fatal ∧ ∀ calls, (fsFsync calls s .start).dpcRun = .idle

/-- What the flag is for: it is cleared, and syncs are refused, exactly while some
recovery is in progress. -/
def Guarded (w : Watched Image) : Prop :=
  Flagged w ∧ (Refuses w.state ↔ InProgress w)

/-- The calls by which `fs_recover_checkpoint` moves the checkpoint to the swap file. -/
def movesToSwap (calls : Calls Image) (s : State Image) (file : String) : Bool :=
  (s.disk file).isSome && calls.fileOpen && calls.malloc && calls.swapOpen
    && calls.fileRead && calls.fileWrite

/-- The recoveries do not disturb each other: no `recover2` runs while another
recovery is in progress, none fails while the `recover2` of another waits, and the
queue has room for each `recover2`. -/
def Orderly (w : Watched Image) : Act Image → Prop
  | .pro _ => w.state.pro.head? = some .recover2 →
      passed w.state.dpcRun = false ∧ ¬ Waiting w.chained.tail
  | .dpc calls => match w.state.dpcRun with
    | .recover file .disabled => movesToSwap calls w.state file = false → ¬ Waiting w.chained
    | .recover _ .renamed => w.state.pro.length < maxPendingTask ∨ Waiting w.chained
    | _ => True
  | _ => True

theorem refuses_iff (s : State Image) : Refuses s ↔ s.fs.permitOverride = 0 := by
  constructor
  · rintro ⟨fatal, -⟩
    rw [fsSync] at fatal
    split at fatal
    · assumption
    · split at fatal
      · cases fatal
      · cases fatal
  · intro cleared
    constructor
    · rw [fsSync, if_pos cleared]
    · intro calls
      rw [fsFsync, if_pos cleared]

theorem guarded_iff (w : Watched Image) : Guarded w ↔ Flagged w := by
  rw [Guarded, refuses_iff]
  exact and_self_iff

/-- The watched machine runs as the machine it watches. -/
theorem run_watched [LayoutImage Image] (w : Watched Image) (acts : List (Act Image)) :
    (run watchedStep w acts).map Watched.state = run step w.state acts := by
  induction acts generalizing w with
  | nil => rfl
  | cons a rest ih =>
    cases next : step w.state a with
    | none => simp [run, watchedStep, next]
    | some t => simpa [run, watchedStep, next] using ih ⟨t, chainedAfter w t a⟩

theorem enqueue_grown {Task : Type} (queue : List Task) (task : Task) :
    (enqueue queue task).length - queue.length =
      if queue.length < maxPendingTask then 1 else 0 := by
  rw [enqueue]
  split
  · rw [List.length_append, List.length_singleton]
    omega
  · omega

theorem waiting_append_none (chained : List (Option String)) (n : Nat) :
    Waiting (chained ++ List.replicate n none) ↔ Waiting chained := by
  simp only [Waiting, List.mem_append, List.mem_replicate]
  constructor
  · rintro ⟨mark, mem | ⟨-, rfl⟩, some⟩
    · exact ⟨mark, mem, some⟩
    · exact absurd rfl some
  · rintro ⟨mark, mem, some⟩
    exact ⟨mark, Or.inl mem, some⟩

/-! ## The queue and its marks -/

/-- Each waiting task has its mark, and only a `recover2` is waited for. -/
def Marks (chained : List (Option String)) (pro : List ProTask) : Prop :=
  List.Forall₂ (fun mark task => mark ≠ none → task = ProTask.recover2) chained pro

def Aligned (w : Watched Image) : Prop := Marks w.chained w.state.pro

theorem marks_enqueue {chained : List (Option String)} {pro : List ProTask}
    {mark : Option String} {task : ProTask} (marked : mark ≠ none → task = .recover2)
    (aligned : Marks chained pro) :
    Marks (chained ++ List.replicate ((enqueue pro task).length - pro.length) mark)
      (enqueue pro task) := by
  rw [enqueue_grown, enqueue]
  split
  · exact List.rel_append aligned (.cons marked .nil)
  · simpa using aligned

theorem marks_same {chained : List (Option String)} {pro : List ProTask} {mark : Option String}
    (aligned : Marks chained pro) :
    Marks (chained ++ List.replicate (pro.length - pro.length) mark) pro := by
  simpa using aligned

section Steps
variable [LayoutImage Image]

theorem proExecuteTask_queue (calls : Calls Image) (s : State Image) (task : ProTask) :
    (proExecuteTask calls s task).pro = s.pro ∧
      (proExecuteTask calls s task).dpcRun = s.dpcRun ∧
      (proExecuteTask calls s task).fs.permitOverride =
        if task = .recover2 then 1 else s.fs.permitOverride := by
  cases task with
  | write =>
    simp only [proExecuteTask]
    split <;> exact ⟨rfl, rfl, rfl⟩
  | removeRoot => exact ⟨rfl, rfl, rfl⟩
  | sync =>
    have permit : (fsSync s.fs).fs.permitOverride = s.fs.permitOverride := by
      rw [fsSync]
      split
      · rfl
      · split <;> rfl
    simp only [proExecuteTask]
    split
    · rw [proAppendFsync]
      split <;> exact ⟨rfl, rfl, permit⟩
    · exact ⟨rfl, rfl, permit⟩
  | recover2 => exact ⟨rfl, rfl, rfl⟩
  | other => exact ⟨rfl, rfl, rfl⟩

omit [LayoutImage Image] in
theorem fsFlushCheck_queue (s : State Image) :
    ((fsFlushCheck s).pro = s.pro ∨ (fsFlushCheck s).pro = enqueue s.pro .sync) ∧
      (fsFlushCheck s).dpcRun = s.dpcRun ∧
      (fsFlushCheck s).fs.permitOverride = s.fs.permitOverride := by
  simp only [fsFlushCheck]
  split
  · exact ⟨Or.inl rfl, rfl, rfl⟩
  · split
    · exact ⟨Or.inr rfl, rfl, rfl⟩
    · exact ⟨Or.inl rfl, rfl, rfl⟩

omit [LayoutImage Image] in
theorem requestDpc_queue (s : State Image) (task : DpcTask) :
    (requestDpc s task).pro = s.pro ∧ (requestDpc s task).dpcRun = s.dpcRun ∧
      (requestDpc s task).fs = s.fs := by
  cases task <;> exact ⟨rfl, rfl, rfl⟩

omit [LayoutImage Image] in
/-- The tasks of the DPC thread other than a recovery. -/
theorem dpcStep_queue {calls : Calls Image} {s t : State Image}
    (h : dpcStep calls s = some t) (other : ∀ file pc, s.dpcRun ≠ .recover file pc) :
    t.pro = s.pro ∧ passed s.dpcRun = false ∧ passed t.dpcRun = false ∧
      t.fs.permitOverride = s.fs.permitOverride := by
  cases hr : s.dpcRun with
  | recover file pc => exact absurd hr (other file pc)
  | idle =>
    cases hq : s.dpc with
    | nil => simp [dpcStep, hr, hq] at h
    | cons task rest =>
      simp only [dpcStep, hr, hq, Option.some.injEq] at h
      subst h
      refine ⟨rfl, rfl, ?_, rfl⟩
      cases task <;> rfl
  | fsync pc =>
    simp only [dpcStep, hr, Option.some.injEq] at h
    subst h
    cases pc with
    | start => simp only [fsFsync]; split <;> exact ⟨rfl, rfl, rfl, rfl⟩
    | allowed => simp only [fsFsync]; split <;> exact ⟨rfl, rfl, rfl, rfl⟩
    | copied buffer => simp only [fsFsync]; split <;> exact ⟨rfl, rfl, rfl, rfl⟩
    | written => exact ⟨rfl, rfl, rfl, rfl⟩
    | renamed => exact ⟨rfl, rfl, rfl, rfl⟩
  | checkpoint file buffer =>
    simp only [dpcStep, hr, Option.some.injEq] at h
    subst h
    cases buffer with
    | none => simp only [fsCreateCheckpoint]; split <;> exact ⟨rfl, rfl, rfl, rfl⟩
    | some image => simp only [fsCreateCheckpoint]; split <;> exact ⟨rfl, rfl, rfl, rfl⟩

theorem aligned_step {w v : Watched Image} {a : Act Image} (aligned : Aligned w)
    (h : watchedStep w a = some v) : Aligned v := by
  simp only [watchedStep, Option.map_eq_some_iff] at h
  obtain ⟨t, next, rfl⟩ := h
  cases a with
  | requestPro task =>
    cases next
    exact marks_enqueue (fun some => absurd rfl some) aligned
  | requestDpc task =>
    cases next
    rw [Aligned, chainedAfter, (requestDpc_queue w.state task).1]
    exact marks_same aligned
  | flushTick =>
    cases next
    rcases (fsFlushCheck_queue w.state).1 with same | queued
    · rw [Aligned, chainedAfter, same]
      exact marks_same aligned
    · rw [Aligned, chainedAfter, queued]
      exact marks_enqueue (fun some => absurd rfl some) aligned
  | pro calls =>
    cases hq : w.state.pro with
    | nil => simp [step, hq] at next
    | cons task rest =>
      simp only [step, hq, Option.some.injEq] at next
      subst next
      rw [Aligned, chainedAfter, (proExecuteTask_queue calls _ task).1]
      rw [Aligned, hq] at aligned
      obtain ⟨mark, marks, -, tail, same⟩ := List.forall₂_cons_right_iff.1 aligned
      rw [same]
      exact tail
  | dpc calls =>
    replace next : dpcStep calls w.state = some t := next
    by_cases recovery : ∃ file pc, w.state.dpcRun = .recover file pc
    · obtain ⟨file, pc, hr⟩ := recovery
      simp only [dpcStep, hr, Option.some.injEq] at next
      subst next
      rw [Aligned, chainedAfter]
      cases pc with
      | start => exact marks_same aligned
      | disabled =>
        simp only [fsRecoverCheckpoint]
        split
        · split <;> exact marks_same aligned
        · exact marks_same aligned
      | written => exact marks_same aligned
      | renamed => exact marks_enqueue (fun _ => rfl) aligned
    · have other : ∀ file pc, w.state.dpcRun ≠ .recover file pc := fun file pc hr =>
        recovery ⟨file, pc, hr⟩
      rw [Aligned, chainedAfter, (dpcStep_queue next other).1]
      exact marks_same aligned

/-! ## The flag -/

omit [LayoutImage Image] in
theorem flagged_congr {w v : Watched Image}
    (permit : v.state.fs.permitOverride = w.state.fs.permitOverride)
    (running : passed v.state.dpcRun = passed w.state.dpcRun)
    (waiting : Waiting v.chained ↔ Waiting w.chained) : Flagged v ↔ Flagged w := by
  rw [Flagged, Flagged, InProgress, InProgress, permit, running, waiting]

omit [LayoutImage Image] in
theorem fsRecoverCheckpoint_moves {calls : Calls Image} {s : State Image} {file : String}
    (moves : movesToSwap calls s file = true) : ∃ image, s.disk file = some image ∧
      fsRecoverCheckpoint calls s file .disabled =
        { s with
          disk := Function.update s.disk configSwap
            (some (if file = configSwap then calls.heap else image))
          dpcRun := .recover file .written } := by
  simp only [movesToSwap, Bool.and_eq_true, Option.isSome_iff_exists] at moves
  obtain ⟨⟨⟨⟨⟨⟨image, found⟩, opened⟩, memory⟩, swap⟩, read⟩, written⟩ := moves
  exact ⟨image, found, by simp [fsRecoverCheckpoint, found, opened, memory, swap, read, written]⟩

omit [LayoutImage Image] in
theorem fsRecoverCheckpoint_fails {calls : Calls Image} {s : State Image} {file : String}
    (stays : ¬ movesToSwap calls s file = true) :
    fsRecoverCheckpoint calls s file .disabled =
      { s with
        fs := { s.fs with permitOverride := 1 }
        disk := Function.update s.disk configSwap none
        dpcRun := .idle } := by
  rw [fsRecoverCheckpoint]
  cases found : s.disk file with
  | none => rfl
  | some image =>
    simp only
    rw [if_neg]
    intro all
    apply stays
    simp only [Bool.and_eq_true] at all
    simp [movesToSwap, found, all]

omit [LayoutImage Image] in
/-- A step of a recovery that is past the clearing of the flag. -/
theorem flagged_recover {w : Watched Image} {calls : Calls Image} {file : String} {pc : RecoverPc}
    (hr : w.state.dpcRun = .recover file pc) (flagged : Flagged w) :
    Flagged ⟨fsRecoverCheckpoint calls w.state file pc,
      chainedAfter w (fsRecoverCheckpoint calls w.state file pc) (.dpc calls)⟩ ↔
        Orderly w (.dpc calls) := by
  rw [Orderly, hr]
  cases pc with
  | start =>
    refine iff_of_true ?_ trivial
    simp [Flagged, InProgress, fsRecoverCheckpoint, passed]
  | disabled =>
    have cleared : w.state.fs.permitOverride = 0 := flagged.2 (Or.inl (by rw [hr]; rfl))
    by_cases moves : movesToSwap calls w.state file = true
    · obtain ⟨image, -, moved⟩ := fsRecoverCheckpoint_moves moves
      rw [moved]
      refine iff_of_true ?_ (by simp [moves])
      simp [Flagged, InProgress, passed, cleared]
    · rw [fsRecoverCheckpoint_fails moves]
      simp only [Bool.not_eq_true] at moves
      simp [Flagged, InProgress, passed, moves, chainedAfter]
  | written =>
    have cleared : w.state.fs.permitOverride = 0 := flagged.2 (Or.inl (by rw [hr]; rfl))
    refine iff_of_true ?_ trivial
    simp [Flagged, InProgress, fsRecoverCheckpoint, passed, cleared]
  | renamed =>
    have cleared : w.state.fs.permitOverride = 0 := flagged.2 (Or.inl (by rw [hr]; rfl))
    simp only [Flagged, InProgress, fsRecoverCheckpoint, cleared, passed, true_iff,
      Bool.false_eq_true, false_or, chainedAfter, enqueue_grown, hr, fileOf]
    split
    · rename_i room
      refine iff_of_true ⟨some file, by simp, by simp⟩ (Or.inl room)
    · rename_i full
      simp [full]

theorem flagged_step {w v : Watched Image} {a : Act Image} (aligned : Aligned w)
    (flagged : Flagged w) (h : watchedStep w a = some v) : Flagged v ↔ Orderly w a := by
  simp only [watchedStep, Option.map_eq_some_iff] at h
  obtain ⟨t, next, rfl⟩ := h
  cases a with
  | requestPro task =>
    cases next
    refine iff_of_true ((flagged_congr ?_ ?_ ?_).2 flagged) trivial
    · rfl
    · rfl
    · exact waiting_append_none _ _
  | requestDpc task =>
    cases next
    obtain ⟨-, running, fs⟩ := requestDpc_queue w.state task
    refine iff_of_true ((flagged_congr ?_ ?_ (waiting_append_none _ _)).2 flagged) trivial
    · rw [fs]
    · rw [running]
  | flushTick =>
    cases next
    obtain ⟨-, running, permit⟩ := fsFlushCheck_queue w.state
    refine iff_of_true ((flagged_congr permit ?_ (waiting_append_none _ _)).2 flagged) trivial
    rw [running]
  | pro calls =>
    cases hq : w.state.pro with
    | nil => simp [step, hq] at next
    | cons task rest =>
      simp only [step, hq, Option.some.injEq] at next
      subst next
      obtain ⟨-, running, permit⟩ := proExecuteTask_queue calls { w.state with pro := rest } task
      rw [Aligned, hq] at aligned
      obtain ⟨mark, marks, marked, -, same⟩ := List.forall₂_cons_right_iff.1 aligned
      by_cases ends : task = .recover2
      · subst ends
        rw [if_pos rfl] at permit
        simp [Flagged, InProgress, Orderly, permit, running, chainedAfter, hq]
      · rw [if_neg ends] at permit
        have unmarked : mark = none := by
          by_contra some
          exact ends (marked some)
        subst unmarked
        refine iff_of_true ((flagged_congr permit (by rw [running]) ?_).2 flagged) ?_
        · simp [chainedAfter, same, Waiting]
        · simp [Orderly, hq, ends]
  | dpc calls =>
    replace next : dpcStep calls w.state = some t := next
    by_cases recovery : ∃ file pc, w.state.dpcRun = .recover file pc
    · obtain ⟨file, pc, hr⟩ := recovery
      simp only [dpcStep, hr, Option.some.injEq] at next
      subst next
      exact flagged_recover hr flagged
    · have other : ∀ file pc, w.state.dpcRun ≠ .recover file pc := fun file pc hr =>
        recovery ⟨file, pc, hr⟩
      obtain ⟨same, before, after, permit⟩ := dpcStep_queue next other
      refine iff_of_true ((flagged_congr permit (by rw [before, after]) ?_).2 flagged) ?_
      · simp [chainedAfter, same]
      · cases hr : w.state.dpcRun with
        | recover file pc => exact absurd hr (other file pc)
        | idle => simp [Orderly, hr]
        | fsync pc => simp [Orderly, hr]
        | checkpoint file buffer => simp [Orderly, hr]

/-- Along a run from start-up the flag is right in every state exactly when no step
of the run lets one recovery disturb another or drops the end of one. -/
theorem permit_iff_orderly {w u : Watched Image} {acts : List (Act Image)}
    (boot : Booted w.state) (fresh : w.chained = []) (ran : run watchedStep w acts = some u) :
    Always watchedStep Guarded w acts ↔ Along watchedStep Orderly w acts := by
  have aligned : Aligned w := by
    rw [Aligned, fresh, boot.noPro]
    exact .nil
  have flagged : Flagged w := by
    simp [Flagged, InProgress, boot.permitted, boot.idle, fresh, passed, Waiting]
  have same : Always watchedStep Guarded w acts ↔ Always watchedStep Flagged w acts :=
    ⟨always_mono fun v => (guarded_iff v).1, always_mono fun v => (guarded_iff v).2⟩
  rw [same]
  exact always_iff_along_within (fun _ _ _ before h => aligned_step before h)
    (fun _ _ _ before right h => flagged_step before right h) aligned flagged ran

end Steps

/-- A checkpoint is taken. -/
def takenRun : List (Act Bool) :=
  [.requestDpc (.checkpoint "cp"), .dpc (callsOk true), .dpc (callsOk true), .dpc (callsOk true)]

/-- Two recoveries are asked for. The second has cleared the flag when the `recover2`
of the first sets it. -/
def overlappingRun : List (Act Bool) :=
  takenRun ++ [.requestDpc (.recover "cp"), .requestDpc (.recover "cp")] ++
    List.replicate 7 (.dpc (callsOk true)) ++ [.pro (callsOk true)]

theorem overlappingRun_ends :
    (run watchedStep ⟨bootState false, []⟩ overlappingRun).map
      (fun u => (u.state.fs.permitOverride, decide (InProgress u))) = some (1, true) := by
  decide

/-- The flag is not always right. -/
theorem not_always_guarded :
    ¬ ∀ (w u : Watched Bool) (acts : List (Act Bool)), Booted w.state → w.chained = [] →
      run watchedStep w acts = some u → Always watchedStep Guarded w acts := by
  intro claim
  have ends := overlappingRun_ends
  cases ran : run watchedStep ⟨bootState false, []⟩ overlappingRun with
  | none =>
    rw [ran] at ends
    cases ends
  | some u =>
    rw [ran] at ends
    simp only [Option.map_some, Option.some.injEq, Prod.mk.injEq, decide_eq_true_eq] at ends
    have last := always_end (claim _ u overlappingRun (bootState_booted false) rfl ran) ran
    have zero := last.1.2 ends.2
    rw [ends.1] at zero
    cases zero

/-- One recovery, from the request to the end of its `recover2`. -/
def recoveredRun : List (Act Bool) :=
  takenRun ++ [.requestDpc (.recover "cp")] ++ List.replicate 5 (.dpc (callsOk true)) ++
    [.pro (callsOk true)]

theorem permit_iff_orderly_recoveredRun :
    ∃ u, run watchedStep ⟨bootState false, []⟩ recoveredRun = some u ∧
      (Always watchedStep Guarded ⟨bootState false, []⟩ recoveredRun ↔
        Along watchedStep Orderly ⟨bootState false, []⟩ recoveredRun) :=
  ⟨_, rfl, permit_iff_orderly (bootState_booted false) rfl rfl⟩

end PermitOverride
