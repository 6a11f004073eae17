import Cfgd.PendingFsync

/-!
# What the database holds when no fsync is left

`fs_fsync` takes its snapshot of the config image long before it lowers
`pending_fsync`, and a sync that arrives between the two is refused its own
fsync. As long as no such sync brings a new config image, the database holds the
image of the last copying `fs_sync` whenever no fsync is queued or executing.
-/

namespace SyncDurable

open Transition SyncProtocol PendingFsync

universe u
variable {Image : Type u}

/-- With no fsync queued or executing, the database is the last copied image. -/
def Durable (s : State Image) : Prop :=
  outstanding s = 0 → ∀ image, s.copied = some image → s.disk configDb = some image

/-- The running task is a recover. -/
def recovering : DpcRun Image → Bool
  | .recover _ _ => true
  | _ => false

/-- The running `fs_fsync` is about to allocate its snapshot buffer. -/
def allocating : DpcRun Image → Bool
  | .fsync .allowed => true
  | _ => false

/-- The running `fs_fsync` has already taken its snapshot. -/
def pastSnapshot : DpcRun Image → Bool
  | .fsync (.copied _) => true
  | .fsync .written => true
  | .fsync .renamed => true
  | _ => false

/-- The steps considered: every file call succeeds, the DPC queue has room, and
neither a recover nor the removal of the whole configuration takes place. -/
def Undisturbed (s : State Image) : Act Image → Prop
  | .pro _ => s.pro.head? ≠ some .recover2 ∧ s.pro.head? ≠ some .removeRoot ∧
      s.dpc.length < maxPendingTask
  | .dpc calls => calls.swapWritten = true ∧ calls.rename 0 = true ∧ recovering s.dpcRun = false
  | _ => True

/-- No `fs_sync` copies a changed cache behind the snapshot of the running
`fs_fsync`, and `fs_fsync` gets the memory for its snapshot. -/
def NoLateSync (s : State Image) : Act Image → Prop
  | .pro _ => s.pro.head? = some .sync → (fsSync s.fs).appendFsync = true →
      pastSnapshot s.dpcRun = true → s.fs.cache = s.fs.config
  | .dpc calls => allocating s.dpcRun = true → calls.malloc = true
  | _ => True

instance (s : State Image) : DecidablePred (Undisturbed s)
  | .pro _ => inferInstanceAs (Decidable (_ ∧ _ ∧ _))
  | .dpc _ => inferInstanceAs (Decidable (_ ∧ _ ∧ _))
  | .requestPro _ => .isTrue trivial
  | .requestDpc _ => .isTrue trivial
  | .flushTick => .isTrue trivial

instance [DecidableEq Image] (s : State Image) : DecidablePred (NoLateSync s)
  | .pro _ => inferInstanceAs (Decidable (_ → _ → _ → _))
  | .dpc _ => inferInstanceAs (Decidable (_ → _))
  | .requestPro _ => .isTrue trivial
  | .requestDpc _ => .isTrue trivial
  | .flushTick => .isTrue trivial

/-- What the running `fs_fsync` has snapshot and written is the config image. -/
def Carried (s : State Image) : Prop :=
  match s.dpcRun with
  | .fsync (.copied buffer) => buffer = s.fs.config
  | .fsync .written => s.disk configSwap = some s.fs.config
  | .fsync .renamed => s.disk configDb = some s.fs.config
  | _ => True

structure Inv (s : State Image) : Prop where
  permitted : s.fs.permitOverride = 1
  balanced : Balanced s
  current : ∀ image, s.copied = some image → s.fs.config = image
  carried : Carried s
  settled : Durable s

theorem booted_inv {s : State Image} (boot : Booted s) : Inv s where
  permitted := boot.permitted
  balanced := (balanced_iff_drift s).mpr (booted_drift boot)
  current := by
    intro image h
    rw [boot.notCopied] at h
    cases h
  carried := by
    rw [Carried, boot.idle]
    trivial
  settled := by
    intro _ image h
    rw [boot.notCopied] at h
    cases h

theorem givesBack_of_inv {s : State Image} {a : Act Image} (inv : Inv s)
    (quiet : Undisturbed s a) (prompt : NoLateSync s a) : GivesBack s a := by
  cases a with
  | requestPro task => trivial
  | requestDpc task => trivial
  | flushTick => trivial
  | pro calls => exact fun _ => quiet.2.2
  | dpc calls =>
    cases hr : s.dpcRun with
    | idle => simp [GivesBack, hr]
    | checkpoint file buffer => simp [GivesBack, hr]
    | recover file pc => simp [GivesBack, hr]
    | fsync pc =>
      cases pc with
      | start => simp [GivesBack, hr, inv.permitted]
      | allowed => simpa [GivesBack, NoLateSync, allocating, hr] using prompt
      | copied buffer => simpa [GivesBack, hr] using quiet.1
      | written => simp [GivesBack, hr]
      | renamed => simp [GivesBack, hr]

theorem balanced_step [LayoutImage Image] {s t : State Image} {a : Act Image}
    (inv : Inv s) (kept : GivesBack s a) (h : step s a = some t) : Balanced t := by
  have zero := (balanced_iff_drift s).mp inv.balanced
  rw [balanced_iff_drift]
  rcases drift_step h with ⟨_, same⟩ | ⟨lost, _⟩
  · omega
  · exact absurd kept lost

theorem outstanding_of_balanced {s t : State Image} (hs : Balanced s) (ht : Balanced t)
    (pending : t.pendingFsync = s.pendingFsync) : outstanding t = outstanding s := by
  rw [PendingFsync.Balanced] at hs ht
  omega

/-- A step that touches neither the images nor the running DPC task. -/
theorem inv_frame {s t : State Image} (inv : Inv s) (balanced : Balanced t)
    (pending : t.pendingFsync = s.pendingFsync)
    (permit : t.fs.permitOverride = s.fs.permitOverride) (config : t.fs.config = s.fs.config)
    (disk : t.disk = s.disk) (running : t.dpcRun = s.dpcRun) (copied : t.copied = s.copied) :
    Inv t where
  permitted := by rw [permit, inv.permitted]
  balanced := balanced
  current := by rw [copied, config]; exact inv.current
  carried := by
    have same := inv.carried
    rw [Carried] at same ⊢
    rw [running, config, disk]
    exact same
  settled := by
    intro none
    rw [copied, disk]
    rw [outstanding_of_balanced inv.balanced balanced pending] at none
    exact inv.settled none

/-- After a copying `fs_sync` some fsync is outstanding: the one it queued, or the
one because of which its own request was refused. -/
theorem outstanding_proAppendFsync {s : State Image} (before : Balanced s)
    (after : Balanced (proAppendFsync s)) : outstanding (proAppendFsync s) ≠ 0 := by
  rw [PendingFsync.Balanced] at before after
  by_cases more : s.pendingFsync + 1 > 1
  · have count : (proAppendFsync s).pendingFsync = s.pendingFsync + 1 - 1 := by
      simp [proAppendFsync, proSetHandlerFsync, more]
    omega
  · have count : (proAppendFsync s).pendingFsync = s.pendingFsync + 1 := by
      simp [proAppendFsync, proSetHandlerFsync, more]
    omega

theorem proAppendFsync_frame (s : State Image) :
    (proAppendFsync s).fs = s.fs ∧ (proAppendFsync s).disk = s.disk ∧
      (proAppendFsync s).dpcRun = s.dpcRun ∧ (proAppendFsync s).copied = s.copied := by
  rw [proAppendFsync]
  split <;> exact ⟨rfl, rfl, rfl, rfl⟩

/-- A copying `fs_sync` keeps the invariant unless it brings a changed image behind
the snapshot. -/
theorem inv_copyingSync {s : State Image} (inv : Inv s)
    (prompt : pastSnapshot s.dpcRun = true → s.fs.cache = s.fs.config)
    (balanced : Balanced (proAppendFsync
      { s with fs := { s.fs with config := s.fs.cache }, copied := some s.fs.cache })) :
    Inv (proAppendFsync
      { s with fs := { s.fs with config := s.fs.cache }, copied := some s.fs.cache }) := by
  obtain ⟨fs, disk, running, copied⟩ := proAppendFsync_frame
    { s with fs := { s.fs with config := s.fs.cache }, copied := some s.fs.cache }
  refine ⟨?_, balanced, ?_, ?_, ?_⟩
  · rw [fs]
    exact inv.permitted
  · rw [fs, copied]
    rintro image ⟨⟩
    rfl
  · have before := inv.carried
    rw [Carried] at before ⊢
    rw [running, fs, disk]
    by_cases past : pastSnapshot s.dpcRun = true
    · simpa only [prompt past] using before
    · dsimp only
      split
      · rename_i hr
        simp [pastSnapshot, hr] at past
      · rename_i hr
        simp [pastSnapshot, hr] at past
      · rename_i hr
        simp [pastSnapshot, hr] at past
      · trivial
  · intro none
    exact absurd none (outstanding_proAppendFsync inv.balanced balanced)

theorem fsSync_copying {fs : FsServer Image} (h : (fsSync fs).appendFsync = true) :
    (fsSync fs).fs = { fs with config := fs.cache } := by
  rw [fsSync] at h ⊢
  split at h
  · cases h
  · split at h
    · cases h
    · rename_i gate count
      rw [if_neg gate, if_neg count]

theorem fsSync_idle {fs : FsServer Image} (h : (fsSync fs).appendFsync = false) :
    (fsSync fs).fs = fs := by
  rw [fsSync] at h ⊢
  split at h
  · rename_i gate
    rw [if_pos gate]
  · split at h
    · rename_i gate count
      rw [if_neg gate, if_pos count]
    · cases h

theorem inv_proExecuteTask [LayoutImage Image] (calls : Calls Image) {s : State Image}
    {task : ProTask} (inv : Inv s) (kept : task ≠ .recover2 ∧ task ≠ .removeRoot)
    (prompt : task = .sync → (fsSync s.fs).appendFsync = true →
      pastSnapshot s.dpcRun = true → s.fs.cache = s.fs.config)
    (balanced : Balanced (proExecuteTask calls s task)) :
    Inv (proExecuteTask calls s task) := by
  cases task with
  | recover2 => exact absurd rfl kept.1
  | removeRoot => exact absurd rfl kept.2
  | other => exact inv
  | write =>
    rw [proExecuteTask] at balanced ⊢
    split
    · exact inv
    · rename_i image written
      simp only [written] at balanced
      exact inv_frame inv balanced rfl rfl rfl rfl rfl rfl
  | sync =>
    cases happ : (fsSync s.fs).appendFsync with
    | false =>
      have same : proExecuteTask calls s .sync = s := by
        simp [proExecuteTask, happ, fsSync_idle happ]
      rw [same]
      exact inv
    | true =>
      have copies : proExecuteTask calls s .sync = proAppendFsync
          { s with fs := { s.fs with config := s.fs.cache }, copied := some s.fs.cache } := by
        simp [proExecuteTask, happ, fsSync_copying happ]
      rw [copies] at balanced ⊢
      exact inv_copyingSync inv (prompt rfl happ) balanced

/-- The swap file takes the place of the database at the first attempt. -/
theorem fsSwapDatabase_done {calls : Calls Image} (first : calls.rename 0 = true)
    (disk : Disk Image) : fsSwapDatabase calls disk configDb = disk configSwap := by
  have renamed : (List.range 3).any calls.rename = true := by
    simp only [List.any_eq_true]
    exact ⟨0, by decide, first⟩
  have apart : configDb ≠ configSwap := by decide
  simp [fsSwapDatabase, renamed, Function.update_of_ne apart]

/-- While an `fs_fsync` runs there is nothing to show of the database. -/
theorem durable_of_running {s : State Image} {pc : FsyncPc Image}
    (running : s.dpcRun = .fsync pc) : Durable s := by
  intro none
  simp [outstanding, running] at none

theorem inv_fsFsync {calls : Calls Image} {s : State Image} {pc : FsyncPc Image} (inv : Inv s)
    (running : s.dpcRun = .fsync pc) (written : calls.swapWritten = true)
    (renamed : calls.rename 0 = true) (kept : GivesBack s (.dpc calls))
    (balanced : Balanced (fsFsync calls s pc)) : Inv (fsFsync calls s pc) := by
  have before := inv.carried
  rw [Carried, running] at before
  cases pc with
  | start =>
    have permit : s.fs.permitOverride ≠ 0 := by simpa [GivesBack, running] using kept
    simp only [fsFsync, if_neg permit] at balanced ⊢
    exact ⟨inv.permitted, balanced, inv.current, trivial, durable_of_running rfl⟩
  | allowed =>
    have got : calls.malloc = true := by simpa [GivesBack, running] using kept
    simp only [fsFsync, got, if_true] at balanced ⊢
    exact ⟨inv.permitted, balanced, inv.current, rfl, durable_of_running rfl⟩
  | copied buffer =>
    simp only [fsFsync, written, if_true] at balanced ⊢
    refine ⟨inv.permitted, balanced, inv.current, ?_, durable_of_running rfl⟩
    simpa [Carried] using before
  | written =>
    refine ⟨inv.permitted, balanced, inv.current, ?_, durable_of_running rfl⟩
    have moved := fsSwapDatabase_done renamed s.disk
    exact moved.trans before
  | renamed =>
    refine ⟨inv.permitted, balanced, inv.current, trivial, ?_⟩
    intro _ image copied
    have latest := inv.current image copied
    rw [← latest]
    exact before

/-- A checkpoint never overwrites a file, so the database keeps its image. -/
theorem inv_fsCreateCheckpoint {calls : Calls Image} {s : State Image} {file : String}
    {buffer : Option Image} (inv : Inv s) (running : s.dpcRun = .checkpoint file buffer)
    (balanced : Balanced (fsCreateCheckpoint calls s file buffer)) :
    Inv (fsCreateCheckpoint calls s file buffer) := by
  have same : outstanding (fsCreateCheckpoint calls s file buffer) = outstanding s := by
    refine outstanding_of_balanced inv.balanced balanced ?_
    cases buffer with
    | none => rw [fsCreateCheckpoint]; split <;> rfl
    | some buffer => rw [fsCreateCheckpoint]; split <;> rfl
  cases buffer with
  | none =>
    rw [fsCreateCheckpoint] at balanced same ⊢
    split at balanced
    · rename_i got
      rw [if_pos got] at same ⊢
      exact ⟨inv.permitted, balanced, inv.current, trivial,
        fun none => inv.settled (same ▸ none)⟩
    · rename_i got
      rw [if_neg got] at same ⊢
      exact ⟨inv.permitted, balanced, inv.current, trivial,
        fun none => inv.settled (same ▸ none)⟩
  | some buffer =>
    rw [fsCreateCheckpoint] at balanced same ⊢
    split at balanced
    · rename_i fresh
      rw [if_pos fresh] at same ⊢
      refine ⟨inv.permitted, balanced, inv.current, trivial, ?_⟩
      intro none image copied
      have held := inv.settled (same ▸ none) image copied
      have other : configDb ≠ file := by
        rintro rfl
        simp [held] at fresh
      exact (Function.update_of_ne other _ _).trans held
    · rename_i full
      rw [if_neg full] at same ⊢
      exact ⟨inv.permitted, balanced, inv.current, trivial,
        fun none => inv.settled (same ▸ none)⟩

theorem inv_dpcBegin {s : State Image} {task : DpcTask} {rest : List DpcTask} (inv : Inv s)
    (balanced : Balanced { s with dpc := rest, dpcRun := dpcBegin task }) :
    Inv { s with dpc := rest, dpcRun := dpcBegin task } := by
  refine ⟨inv.permitted, balanced, inv.current, ?_, ?_⟩
  · cases task <;> trivial
  · intro none
    have same := outstanding_of_balanced inv.balanced balanced rfl
    exact inv.settled (same ▸ none)

theorem inv_fsFlushCheck {s : State Image} (inv : Inv s) (balanced : Balanced (fsFlushCheck s)) :
    Inv (fsFlushCheck s) := by
  have same : (fsFlushCheck s).pendingFsync = s.pendingFsync ∧
      (fsFlushCheck s).fs = { s.fs with countOverwritten := 0 } ∧
      (fsFlushCheck s).disk = s.disk ∧ (fsFlushCheck s).dpcRun = s.dpcRun ∧
      (fsFlushCheck s).copied = s.copied := by
    rw [fsFlushCheck]
    dsimp only
    split
    · exact ⟨rfl, rfl, rfl, rfl, rfl⟩
    · split <;> exact ⟨rfl, rfl, rfl, rfl, rfl⟩
  obtain ⟨pending, fs, disk, running, copied⟩ := same
  exact inv_frame inv balanced pending (by rw [fs]) (by rw [fs]) disk running copied

/-- Every step considered keeps the invariant, unless a sync comes too late. -/
theorem inv_step [LayoutImage Image] {s t : State Image} {a : Act Image} (inv : Inv s)
    (quiet : Undisturbed s a) (prompt : NoLateSync s a) (h : step s a = some t) : Inv t := by
  have kept := givesBack_of_inv inv quiet prompt
  have balanced := balanced_step inv kept h
  cases a with
  | requestPro task =>
    rw [step, Option.some.injEq] at h
    subst h
    exact inv_frame inv balanced rfl rfl rfl rfl rfl rfl
  | requestDpc task =>
    rw [step, Option.some.injEq] at h
    subst h
    cases task <;> exact inv_frame inv balanced rfl rfl rfl rfl rfl rfl
  | flushTick =>
    rw [step, Option.some.injEq] at h
    subst h
    exact inv_fsFlushCheck inv balanced
  | pro calls =>
    cases hq : s.pro with
    | nil => simp [step, hq] at h
    | cons task rest =>
      simp only [step, hq, Option.some.injEq] at h
      subst h
      obtain ⟨noRecover, noRemove, _⟩ := quiet
      simp only [hq, List.head?_cons, ne_eq, Option.some.injEq] at noRecover noRemove
      have popped : Inv { s with pro := rest } :=
        inv_frame inv inv.balanced rfl rfl rfl rfl rfl rfl
      refine inv_proExecuteTask calls popped ⟨noRecover, noRemove⟩ ?_ balanced
      rintro rfl happ past
      exact prompt (by rw [hq]; rfl) happ past
  | dpc calls =>
    obtain ⟨written, renamed, noRecover⟩ := quiet
    cases hr : s.dpcRun with
    | recover file pc => simp [recovering, hr] at noRecover
    | idle =>
      cases hq : s.dpc with
      | nil => simp [step, dpcStep, hr, hq] at h
      | cons task rest =>
        simp only [step, dpcStep, hr, hq, Option.some.injEq] at h
        subst h
        exact inv_dpcBegin inv balanced
    | fsync pc =>
      simp only [step, dpcStep, hr, Option.some.injEq] at h
      subst h
      exact inv_fsFsync inv hr written renamed kept balanced
    | checkpoint file buffer =>
      simp only [step, dpcStep, hr, Option.some.injEq] at h
      subst h
      exact inv_fsCreateCheckpoint inv hr balanced

/-- In every state of a run in which no changed cache is copied behind a running
snapshot: with no fsync left, the database holds the image of the last copying `fs_sync`. -/
theorem always_durable_of_noLateSync [LayoutImage Image] {s : State Image}
    {acts : List (Act Image)} (boot : Booted s) (quiet : Along step Undisturbed s acts)
    (prompt : Along step NoLateSync s acts) : Always step Durable s acts := by
  have preserved : ∀ (s : State Image) (a : Act Image) (t : State Image), Inv s →
      Undisturbed s a ∧ NoLateSync s a → step s a = some t → Inv t := by
    rintro s a t inv ⟨quiet, prompt⟩ h
    exact inv_step inv quiet prompt h
  have kept : Always step Inv s acts :=
    always_of_along preserved (booted_inv boot) (along_and quiet prompt)
  exact always_mono (fun s inv => inv.settled) kept

/-- A second write and sync fall between the snapshot of the first fsync and its end. -/
def lateSyncRun : List (Act Bool) :=
  [.requestPro .write, .pro (callsOk true), .requestPro .sync, .pro (callsOk true),
    .dpc (callsOk true), .dpc (callsOk true), .dpc (callsOk true),
    .requestPro .write, .pro (callsOk false), .requestPro .sync, .pro (callsOk true),
    .dpc (callsOk true), .dpc (callsOk true), .dpc (callsOk true)]

theorem lateSyncRun_ends : (run step (bootState false) lateSyncRun).map
    (fun t => (outstanding t, t.copied, t.disk configDb)) = some (0, some false, some true) := by
  decide

theorem not_always_durable :
    ¬ ∀ (s : State Bool) (acts : List (Act Bool)), Booted s → Along step Undisturbed s acts →
      Always step Durable s acts := by
  intro claim
  obtain ⟨t, ht, ends⟩ := Option.map_eq_some_iff.mp lateSyncRun_ends
  have durable : Durable t :=
    always_end (claim (bootState false) lateSyncRun (bootState_booted false) (by decide)) ht
  simp only [Prod.mk.injEq] at ends
  obtain ⟨none, copied, disk⟩ := ends
  have held := durable none false copied
  rw [disk] at held
  cases held

/-- A single write, sync and fsync. -/
def promptSyncRun : List (Act Bool) :=
  [.requestPro .write, .pro (callsOk true), .requestPro .sync, .pro (callsOk true),
    .dpc (callsOk true), .dpc (callsOk true), .dpc (callsOk true), .dpc (callsOk true),
    .dpc (callsOk true), .dpc (callsOk true)]

theorem always_durable_of_noLateSync_promptSyncRun :
    Always step Durable (bootState false) promptSyncRun :=
  always_durable_of_noLateSync (bootState_booted false) (by decide) (by decide)

end SyncDurable
