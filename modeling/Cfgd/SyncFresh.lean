import Cfgd.SyncProtocol

/-!
# What an `fs_sync` that answers ok has copied

`fs_sync` copies the cache only when `count_overwritten` is not zero, and the
flush thread sets that counter to zero once a second without copying anything.
An answer of ok is true of a state exactly when the counter still covers every
difference between the cache and the config image.
-/

namespace SyncFresh

open Transition SyncProtocol

universe u
variable {Image : Type u}

/-- An `fs_sync` executed in this state that answers ok leaves config equal to the cache. -/
def Fresh (s : State Image) : Prop :=
  (fsSync s.fs).status = .ok → (fsSync s.fs).fs.config = (fsSync s.fs).fs.cache

/-- A zero counter means that there is nothing to copy. -/
def Covered (s : State Image) : Prop :=
  s.fs.countOverwritten = 0 → s.fs.config = s.fs.cache

/-- The step hides no change from the next `fs_sync`: the flush thread clears the
counter only when it is zero or nothing is left to copy, and counting a write
does not bring the 32-bit counter round to zero. -/
def NoLoss (s : State Image) : Act Image → Prop
  | .flushTick => s.fs.countOverwritten = 0 ∨ s.fs.config = s.fs.cache
  | .pro calls => match s.pro, calls.written with
    | .write :: _, some image => s.fs.countOverwritten + 1 ≠ 0 ∨ s.fs.config = image
    | _, _ => True
  | _ => True

theorem fresh_iff_covered {s : State Image} (permit : s.fs.permitOverride = 1) :
    Fresh s ↔ Covered s := by
  have open_gate : ¬ s.fs.permitOverride = 0 := by rw [permit]; decide
  rw [Fresh, Covered, fsSync, if_neg open_gate]
  by_cases zero : s.fs.countOverwritten = 0
  · rw [if_pos zero]
    exact ⟨fun h _ => h rfl, fun h _ => h zero⟩
  · rw [if_neg zero]
    exact ⟨fun _ h => absurd h zero, fun _ _ => rfl⟩

/-- `fs_sync` in any state with a covering counter leaves the counter covering. -/
theorem covered_fsSync {fs : FsServer Image}
    (h : fs.countOverwritten = 0 → fs.config = fs.cache) :
    (fsSync fs).fs.countOverwritten = 0 → (fsSync fs).fs.config = (fsSync fs).fs.cache := by
  rw [fsSync]
  split
  · exact h
  · split
    · exact h
    · intro _; rfl

theorem proAppendFsync_fs (s : State Image) : (proAppendFsync s).fs = s.fs := by
  rw [proAppendFsync]
  split <;> rfl

theorem covered_proRecoverCheckpoint [LayoutImage Image] (calls : Calls Image)
    {s : State Image} (h : Covered s) : Covered (proRecoverCheckpoint calls s) := by
  rw [Covered, proRecoverCheckpoint]
  cases hl : (fsLoadConfigDatabase calls s.fs s.disk).1 with
  | none => exact h
  | some fs => intro _; rfl

/-- Of the PRO tasks only a write whose count wraps can uncover a change. -/
theorem covered_proExecuteTask [LayoutImage Image] (calls : Calls Image) {s : State Image}
    {task : ProTask} (other : task ≠ .write) (h : Covered s) :
    Covered (proExecuteTask calls s task) := by
  cases task with
  | write => exact absurd rfl other
  | removeRoot => intro _; rfl
  | recover2 => exact covered_proRecoverCheckpoint calls h
  | other => exact h
  | sync =>
    have after := covered_fsSync h
    rw [proExecuteTask]
    split
    · rw [Covered, proAppendFsync_fs]
      exact after
    · exact after

theorem covered_write_iff [LayoutImage Image] (calls : Calls Image) {s : State Image}
    (image : Image) (written : calls.written = some image) :
    Covered (proExecuteTask calls s .write) ↔
      s.fs.countOverwritten + 1 ≠ 0 ∨ s.fs.config = image := by
  simp only [proExecuteTask, written, Covered, fsAppendSync]
  tauto

theorem fsFlushCheck_fs (s : State Image) :
    (fsFlushCheck s).fs = { s.fs with countOverwritten := 0 } := by
  rw [fsFlushCheck]
  dsimp only
  split
  · rfl
  · split <;> rfl

/-- No step of a DPC task touches the counter, the cache or the config image. -/
theorem dpcStep_images {calls : Calls Image} {s t : State Image}
    (h : dpcStep calls s = some t) :
    t.fs.countOverwritten = s.fs.countOverwritten ∧ t.fs.config = s.fs.config ∧
      t.fs.cache = s.fs.cache := by
  cases hr : s.dpcRun with
  | idle =>
    cases hq : s.dpc with
    | nil => simp [dpcStep, hr, hq] at h
    | cons task rest =>
      simp only [dpcStep, hr, hq, Option.some.injEq] at h
      exact h ▸ ⟨rfl, rfl, rfl⟩
  | fsync pc =>
    simp only [dpcStep, hr, Option.some.injEq] at h
    subst h
    cases pc with
    | start => rw [fsFsync]; split <;> exact ⟨rfl, rfl, rfl⟩
    | allowed => rw [fsFsync]; split <;> exact ⟨rfl, rfl, rfl⟩
    | copied buffer => rw [fsFsync]; split <;> exact ⟨rfl, rfl, rfl⟩
    | written => exact ⟨rfl, rfl, rfl⟩
    | renamed => exact ⟨rfl, rfl, rfl⟩
  | checkpoint file buffer =>
    simp only [dpcStep, hr, Option.some.injEq] at h
    subst h
    cases buffer with
    | none => rw [fsCreateCheckpoint]; split <;> exact ⟨rfl, rfl, rfl⟩
    | some buffer => rw [fsCreateCheckpoint]; split <;> exact ⟨rfl, rfl, rfl⟩
  | recover file pc =>
    simp only [dpcStep, hr, Option.some.injEq] at h
    subst h
    cases pc with
    | start => exact ⟨rfl, rfl, rfl⟩
    | disabled =>
      rw [fsRecoverCheckpoint]
      split
      · split <;> exact ⟨rfl, rfl, rfl⟩
      · exact ⟨rfl, rfl, rfl⟩
    | written => exact ⟨rfl, rfl, rfl⟩
    | renamed => exact ⟨rfl, rfl, rfl⟩

/-- One step, from a state whose counter covers: it still covers exactly when the
step hides nothing. -/
theorem covered_step [LayoutImage Image] {s t : State Image} {a : Act Image}
    (h : Covered s) (hst : step s a = some t) : Covered t ↔ NoLoss s a := by
  cases a with
  | requestPro task =>
    rw [step] at hst
    exact ⟨fun _ => trivial, fun _ => Option.some.inj hst ▸ h⟩
  | requestDpc task =>
    rw [step] at hst
    refine ⟨fun _ => trivial, fun _ => Option.some.inj hst ▸ ?_⟩
    cases task <;> exact h
  | flushTick =>
    rw [step] at hst
    rw [← Option.some.inj hst, Covered, fsFlushCheck_fs, NoLoss]
    exact ⟨fun all => Or.inr (all rfl), fun safe _ => safe.elim h id⟩
  | pro calls =>
    cases hq : s.pro with
    | nil => simp [step, hq] at hst
    | cons task rest =>
      simp only [step, hq, Option.some.injEq] at hst
      subst hst
      have h' : Covered { s with pro := rest } := h
      by_cases write : task = .write
      · subst write
        cases hw : calls.written with
        | none => simpa [NoLoss, hq, hw, proExecuteTask] using h'
        | some image =>
          rw [covered_write_iff calls image hw]
          simp [NoLoss, hq, hw]
      · have covered := covered_proExecuteTask calls write h'
        refine ⟨fun _ => ?_, fun _ => covered⟩
        simp only [NoLoss, hq]
        split
        · rename_i heq _
          exact absurd (List.cons.inj heq).1 write
        · trivial
  | dpc calls =>
    rw [step] at hst
    obtain ⟨count, config, cache⟩ := dpcStep_images hst
    rw [Covered, count, config, cache]
    exact ⟨fun _ => trivial, fun _ => h⟩

/-- Where the step runs an `fs_sync` task, which answers ok, the config image equals the cache. -/
def AnswersFresh (s : State Image) : Act Image → Prop
  | .pro _ => s.pro.head? = some .sync → Fresh s
  | _ => True

theorem answersFresh_of_fresh {s : State Image} (h : Fresh s) (a : Act Image) :
    AnswersFresh s a := by
  cases a with
  | pro calls => exact fun _ => h
  | requestPro task => trivial
  | requestDpc task => trivial
  | dpc calls => trivial
  | flushTick => trivial

/-- With overriding permitted throughout a run, an `fs_sync` executed in any state of
it that answers ok leaves config equal to the cache, if and only if the counter covers
the first state and no step of the run hides a change. In particular every `fs_sync`
that such a run executes does. -/
theorem always_fresh_iff_noLoss [LayoutImage Image] {s t : State Image}
    {acts : List (Act Image)} (h : run step s acts = some t)
    (permitted : Always step (fun s => s.fs.permitOverride = 1) s acts) :
    (Always step Fresh s acts ↔ Covered s ∧ Along step NoLoss s acts) ∧
      (Covered s → Along step NoLoss s acts → Along step AnswersFresh s acts) := by
  have same := always_congr (fun s hs => fresh_iff_covered hs) permitted
  have exact_runs : Always step Fresh s acts ↔ Covered s ∧ Along step NoLoss s acts := by
    rw [same]
    constructor
    · intro all
      have start := always_start all
      exact ⟨start, (always_iff_along (fun s a t hs hst => covered_step hs hst) start h).mp all⟩
    · rintro ⟨start, kept⟩
      exact (always_iff_along (fun s a t hs hst => covered_step hs hst) start h).mpr kept
  refine ⟨exact_runs, fun start kept => ?_⟩
  exact along_of_always (fun s a hs => answersFresh_of_fresh hs a) (exact_runs.mpr ⟨start, kept⟩)

/-- A write, one period of the flush thread, and a sync. -/
def flushedRun : List (Act Bool) :=
  [.requestPro .write, .pro (callsOk true), .flushTick, .requestPro .sync, .pro (callsOk true)]

/-- The sync of `flushedRun` answers ok and copies nothing. -/
theorem fresh_not_always :
    ¬ ∀ (s t : State Bool) (acts : List (Act Bool)), Booted s → run step s acts = some t →
      Always step (fun s => s.fs.permitOverride = 1) s acts → Along step AnswersFresh s acts := by
  intro claim
  have all := claim (bootState false) _ flushedRun (bootState_booted false) rfl
    (by decide)
  have last := (((all.2 _ rfl).2 _ rfl).2 _ rfl).2 _ rfl
  have stale := last.1 rfl rfl
  cases stale

/-- A write and a sync with no flush period between them. -/
def promptRun : List (Act Bool) :=
  [.requestPro .write, .pro (callsOk true), .requestPro .sync, .pro (callsOk true)]

theorem always_fresh_iff_noLoss_promptRun :
    (Always step Fresh (bootState false) promptRun ↔
        Covered (bootState false) ∧ Along step NoLoss (bootState false) promptRun) ∧
      (Covered (bootState false) → Along step NoLoss (bootState false) promptRun →
        Along step AnswersFresh (bootState false) promptRun) :=
  always_fresh_iff_noLoss (t := _) rfl (by decide)

end SyncFresh
