import Cfgd.SyncProtocol

/-!
# The counter of pending fsync requests

`pending_fsync` is raised when `pro_set_handler` admits an fsync request and
lowered by the last statement of `fs_fsync`. Between the two the task can be
dropped by a full queue, or `fs_fsync` can return early. The count that such a
step loses is never given back, so the counter is exact in the states of a run
exactly as long as no step of it loses one.
-/

namespace PendingFsync

open Transition SyncProtocol

universe u
variable {Image : Type u}

/-- The counter is the number of fsync tasks that are queued or executing. -/
def Balanced (s : State Image) : Prop := s.pendingFsync = outstanding s

/-- The next fsync request would be admitted. -/
def Accepts (s : State Image) : Prop := (proSetHandlerFsync s.pendingFsync).2 = true

instance (s : State Image) : Decidable (Accepts s) :=
  inferInstanceAs (Decidable (_ = true))

/-- The `fs_sync` at the head of the PRO queue would get an fsync request admitted. -/
def Admits (s : State Image) : Prop :=
  s.pro.head? = some .sync ∧ (fsSync s.fs).appendFsync = true ∧ Accepts s

/-- The step gives back every count it takes: `fs_fsync` leaves by its last
statement, and an admitted request finds room in the DPC queue. -/
def GivesBack (s : State Image) : Act Image → Prop
  | .dpc calls => match s.dpcRun with
    | .fsync .start => s.fs.permitOverride ≠ 0
    | .fsync .allowed => calls.malloc = true
    | .fsync (.copied _) => calls.swapWritten = true
    | _ => True
  | .pro _ => Admits s → s.dpc.length < maxPendingTask
  | _ => True

/-- Counts that were taken and that no task will give back. -/
def drift (s : State Image) : Int := s.pendingFsync - outstanding s

theorem balanced_iff_drift (s : State Image) : Balanced s ↔ drift s = 0 := by
  rw [Balanced, drift]
  omega

theorem accepts_iff (s : State Image) : Accepts s ↔ s.pendingFsync ≤ 0 := by
  rw [Accepts, proSetHandlerFsync]
  split
  · simp; omega
  · simp; omega

theorem count_enqueue (queue : List DpcTask) (task : DpcTask) :
    (enqueue queue task).count .fsync = queue.count .fsync +
      if task = .fsync ∧ queue.length < maxPendingTask then 1 else 0 := by
  by_cases room : queue.length < maxPendingTask
  · by_cases same : task = .fsync
    · simp [enqueue, room, same]
    · simp [enqueue, room, same]
  · simp [enqueue, room]

theorem drift_requestDpc (s : State Image) (task : DpcTask) :
    drift (requestDpc s task) = drift s := by
  cases task with
  | fsync => rfl
  | checkpoint file => simp [drift, requestDpc, outstanding, count_enqueue]
  | recover file => simp [drift, requestDpc, outstanding, count_enqueue]
  | other => simp [drift, requestDpc, outstanding, count_enqueue]

/-- A request that is refused changes nothing; one that is admitted is lost
exactly when the queue is full. -/
theorem drift_proAppendFsync (s : State Image) :
    drift (proAppendFsync s) = drift s +
      if Accepts s ∧ ¬ s.dpc.length < maxPendingTask then 1 else 0 := by
  by_cases more : s.pendingFsync + 1 > 1
  · have refused : ¬ Accepts s := by rw [accepts_iff]; omega
    simp only [proAppendFsync, proSetHandlerFsync, if_pos more, drift, outstanding, refused,
      false_and, if_false]
    omega
  · have accepted : Accepts s := by rw [accepts_iff]; omega
    simp only [proAppendFsync, proSetHandlerFsync, if_neg more, drift, outstanding,
      count_enqueue, accepted, true_and]
    split
    · push_cast; omega
    · push_cast; omega

theorem drift_proExecuteTask [LayoutImage Image] (calls : Calls Image) (s : State Image)
    (task : ProTask) :
    drift (proExecuteTask calls s task) = drift s +
      if task = .sync ∧ (fsSync s.fs).appendFsync = true ∧ Accepts s ∧
        ¬ s.dpc.length < maxPendingTask then 1 else 0 := by
  cases task with
  | write =>
    cases hw : calls.written with
    | none => simp [proExecuteTask, hw]
    | some image => simp [proExecuteTask, hw, drift, outstanding]
  | removeRoot => simp [proExecuteTask, proRemoveRoot, drift, outstanding]
  | recover2 => simp [proExecuteTask, proRecoverCheckpoint, drift, outstanding]
  | other => simp [proExecuteTask]
  | sync =>
    cases happ : (fsSync s.fs).appendFsync with
    | false => simp [proExecuteTask, happ, drift, outstanding]
    | true =>
      have hcopy := drift_proAppendFsync
        { s with fs := (fsSync s.fs).fs, copied := some (fsSync s.fs).fs.config }
      simp only [proExecuteTask, happ, if_true, true_and]
      rw [hcopy]
      rfl

theorem drift_fsFsync (calls : Calls Image) (s : State Image) (pc : FsyncPc Image)
    (running : s.dpcRun = .fsync pc) [Decidable (GivesBack s (.dpc calls))] :
    drift (fsFsync calls s pc) = drift s + if GivesBack s (.dpc calls) then 0 else 1 := by
  cases pc with
  | start =>
    by_cases permit : s.fs.permitOverride = 0
    · simp [fsFsync, permit, GivesBack, running, drift, outstanding]; omega
    · simp [fsFsync, permit, GivesBack, running, drift, outstanding]
  | allowed =>
    by_cases got : calls.malloc = true
    · simp [fsFsync, got, GivesBack, running, drift, outstanding]
    · simp [fsFsync, got, GivesBack, running, drift, outstanding]; omega
  | copied buffer =>
    by_cases done : calls.swapWritten = true
    · simp [fsFsync, done, GivesBack, running, drift, outstanding]
    · simp [fsFsync, done, GivesBack, running, drift, outstanding]; omega
  | written => simp [fsFsync, GivesBack, running, drift, outstanding]
  | renamed => simp [fsFsync, GivesBack, running, drift, outstanding, proCompleteFsync]; omega

/-- The other DPC tasks neither take nor give back a count. -/
theorem drift_fsCreateCheckpoint (calls : Calls Image) (s : State Image) (file : String)
    (buffer : Option Image) (running : s.dpcRun = .checkpoint file buffer) :
    drift (fsCreateCheckpoint calls s file buffer) = drift s := by
  cases buffer with
  | none =>
    rw [fsCreateCheckpoint]
    split <;> simp [drift, outstanding, running]
  | some buffer =>
    rw [fsCreateCheckpoint]
    split <;> simp [drift, outstanding, running]

theorem drift_fsRecoverCheckpoint (calls : Calls Image) (s : State Image) (file : String)
    (pc : RecoverPc) (running : s.dpcRun = .recover file pc) :
    drift (fsRecoverCheckpoint calls s file pc) = drift s := by
  cases pc with
  | start => simp [fsRecoverCheckpoint, drift, outstanding, running]
  | disabled =>
    cases hf : s.disk file with
    | none => simp [fsRecoverCheckpoint, hf, drift, outstanding, running]
    | some image =>
      simp only [fsRecoverCheckpoint, hf]
      split <;> simp [drift, outstanding, running]
  | written => simp [fsRecoverCheckpoint, drift, outstanding, running]
  | renamed => simp [fsRecoverCheckpoint, drift, outstanding, running]

theorem drift_dpcBegin (s : State Image) {task : DpcTask} {rest : List DpcTask}
    (queue : s.dpc = task :: rest) (running : s.dpcRun = .idle) :
    drift { s with dpc := rest, dpcRun := dpcBegin task } = drift s := by
  cases task with
  | fsync => simp [drift, outstanding, queue, running, dpcBegin]
  | checkpoint file => simp [drift, outstanding, queue, running, dpcBegin]
  | recover file => simp [drift, outstanding, queue, running, dpcBegin]
  | other => simp [drift, outstanding, queue, running, dpcBegin]

theorem drift_fsFlushCheck (s : State Image) : drift (fsFlushCheck s) = drift s := by
  rw [fsFlushCheck]
  dsimp only
  split
  · rfl
  · split <;> rfl

/-- Every step of the protocol either gives back what it takes or loses one count. -/
theorem drift_step [LayoutImage Image] {s t : State Image} {a : Act Image}
    (h : step s a = some t) :
    (GivesBack s a ∧ drift t = drift s) ∨ (¬ GivesBack s a ∧ drift t = drift s + 1) := by
  classical
  cases a with
  | requestPro task =>
    rw [step] at h
    exact Or.inl ⟨trivial, Option.some.inj h ▸ rfl⟩
  | requestDpc task =>
    rw [step] at h
    exact Or.inl ⟨trivial, Option.some.inj h ▸ drift_requestDpc s task⟩
  | flushTick =>
    rw [step] at h
    exact Or.inl ⟨trivial, Option.some.inj h ▸ drift_fsFlushCheck s⟩
  | pro calls =>
    cases hq : s.pro with
    | nil => simp [step, hq] at h
    | cons task rest =>
      simp only [step, hq, Option.some.injEq] at h
      subst h
      have moved := drift_proExecuteTask calls { s with pro := rest } task
      have same : drift { s with pro := rest } = drift s := rfl
      by_cases lost : GivesBack s (.pro calls)
      · refine Or.inl ⟨lost, ?_⟩
        rw [moved, same, if_neg, Int.add_zero]
        rintro ⟨rfl, happ, hacc, full⟩
        exact full (lost ⟨by rw [hq]; rfl, happ, hacc⟩)
      · refine Or.inr ⟨lost, ?_⟩
        rw [moved, same, if_pos]
        simp only [GivesBack, Admits, hq, List.head?_cons, Option.some.injEq] at lost
        tauto
  | dpc calls =>
    cases hr : s.dpcRun with
    | idle =>
      cases hq : s.dpc with
      | nil => simp [step, dpcStep, hr, hq] at h
      | cons task rest =>
        simp only [step, dpcStep, hr, hq, Option.some.injEq] at h
        exact Or.inl ⟨by simp [GivesBack, hr], h ▸ drift_dpcBegin s hq hr⟩
    | fsync pc =>
      simp only [step, dpcStep, hr, Option.some.injEq] at h
      subst h
      have moved := drift_fsFsync calls s pc hr
      by_cases kept : GivesBack s (.dpc calls)
      · exact Or.inl ⟨kept, by simpa [kept] using moved⟩
      · exact Or.inr ⟨kept, by simpa [kept] using moved⟩
    | checkpoint file buffer =>
      simp only [step, dpcStep, hr, Option.some.injEq] at h
      exact Or.inl ⟨by simp [GivesBack, hr],
        h ▸ drift_fsCreateCheckpoint calls s file buffer hr⟩
    | recover file pc =>
      simp only [step, dpcStep, hr, Option.some.injEq] at h
      exact Or.inl ⟨by simp [GivesBack, hr], h ▸ drift_fsRecoverCheckpoint calls s file pc hr⟩

theorem booted_drift {s : State Image} (boot : Booted s) : drift s = 0 := by
  simp [drift, outstanding, boot.noPending, boot.noDpc, boot.idle]

theorem balanced_accepts {s : State Image} (h : Balanced s) (none : outstanding s = 0) :
    Accepts s := by
  rw [accepts_iff, h, none]
  simp

/-- The counter is exact at the end of a run, and lets the next request in when no
fsync is outstanding, if and only if every step of the run gave back what it took.
A lost count stays lost, so one lossy step settles all later states. -/
theorem balanced_iff_givesBack [LayoutImage Image] {s t : State Image}
    {acts : List (Act Image)} (boot : Booted s) (h : run step s acts = some t) :
    (Balanced t ∧ (outstanding t = 0 → Accepts t)) ↔ Along step GivesBack s acts := by
  have exact_end : drift t = 0 ↔ Along step GivesBack s acts := by
    refine good_iff_along (fun s => drift s = 0) (fun s => 0 ≤ drift s)
      ?_ ?_ ?_ (Int.le_of_eq (booted_drift boot).symm) (booted_drift boot) h
    · intro s a t hs hst
      rcases drift_step hst with ⟨_, same⟩ | ⟨_, more⟩ <;> omega
    · intro s a t _ hs hst
      rcases drift_step hst with ⟨kept, same⟩ | ⟨lost, more⟩
      · exact ⟨fun _ => kept, fun _ => by omega⟩
      · exact ⟨fun ht => by omega, fun kept => absurd kept lost⟩
    · intro s a t hs hbad hst ht
      rcases drift_step hst with ⟨_, same⟩ | ⟨_, more⟩ <;> omega
  rw [← exact_end, ← balanced_iff_drift]
  exact ⟨fun h => h.1, fun h => ⟨h, balanced_accepts h⟩⟩

/-- A write, a sync that queues an fsync, and a swap file that cannot be opened:
no fsync is left and the counter still stands at one. -/
def failedOpenRun : List (Act Bool) :=
  [.requestPro .write, .pro (callsOk true), .requestPro .sync, .pro (callsOk true),
    .dpc (callsOk true), .dpc (callsOk true), .dpc (callsOk true),
    .dpc { callsOk true with fileOpen := false }]

theorem failedOpenRun_ends : (run step (bootState false) failedOpenRun).map
    (fun t => (t.pendingFsync, outstanding t)) = some (1, 0) := by
  decide

theorem pendingFsync_not_exact :
    ¬ ∀ (s t : State Bool) (acts : List (Act Bool)), Booted s → run step s acts = some t →
      Balanced t ∧ (outstanding t = 0 → Accepts t) := by
  intro claim
  have ends := failedOpenRun_ends
  obtain ⟨t, ht, values⟩ := Option.map_eq_some_iff.mp ends
  have balanced := (claim _ t _ (bootState_booted false) ht).1
  simp only [Prod.mk.injEq] at values
  rw [Balanced, values.1, values.2] at balanced
  cases balanced

/-- A whole write, sync and fsync with no failure meets the condition. -/
def plainRun : List (Act Bool) :=
  [.requestPro .write, .pro (callsOk true), .requestPro .sync, .pro (callsOk true),
    .dpc (callsOk true), .dpc (callsOk true), .dpc (callsOk true), .dpc (callsOk true),
    .dpc (callsOk true), .dpc (callsOk true)]

theorem balanced_iff_givesBack_plainRun : ∃ t, run step (bootState false) plainRun = some t ∧
    ((Balanced t ∧ (outstanding t = 0 → Accepts t)) ↔
      Along step GivesBack (bootState false) plainRun) :=
  ⟨_, rfl, balanced_iff_givesBack (bootState_booted false) rfl⟩

end PendingFsync
