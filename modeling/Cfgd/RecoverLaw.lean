import Cfgd.CheckpointImages
import Cfgd.Reloading

/-!
# What a recovery brings back

The protocol of checkpoints and recoveries on whole layouts, together with the tree that
clients read. A request changes the tree and the cache together; a `recover2` removes the
tree and loads it again from the image that it has read from the database file. History
variables keep the configuration at the time a checkpoint was answered, and the file whose
recovery the last step has answered.
-/

namespace RecoverLaw

open AvlTree CText CJson ConfigNode FsImage Loader LoadSlots Request Runtime SlotTables SearchSound
open SlotLoading JsonText JsonRoundTrip SavedTexts StartUp Orders Catalog Transition
open SyncProtocol PermitOverride CheckpointImages Reloading
open Correspondence (dirRequest writeRequest)
open CheckpointFiles (procfsConfigUpdate procfsRebuild command addKey noCrlf_of_noCr)

variable {ν : Type} [DoubleText ν] [NumberFormat ν]

section Machine

/-- `inStep` is a history variable: the slots have held all of the configuration since the
start or since the last recovery of a checkpoint that was taken in this run. -/
structure Observed (ν : Type) where
  watched : Watched FsLayout
  world : World ν
  taken : String → Option (World ν)
  recovered : Option String
  inStep : Prop

/-- A step of the protocol, with the orders of the request that a writing task serves, and
the names of the files that `procfs_rebuild` finds. -/
structure Event where
  act : Act FsLayout
  orders : List Order
  files : List Bytes

/-- What a step leaves besides the state of the protocol: the configuration, whether
`fs_append_sync` was called, and the checkpoint files that were deleted. -/
structure Turn (ν : Type) where
  world : World ν
  synced : Bool
  gone : List Bytes

/-- `rmdir /` -/
def clears : Order → Bool
  | .rmdir jrp => jrp.segm.length = 1 ∧ jrp.valuestring = none ∧ jrp.dupkey = [posixDirSymbol]
  | _ => false

def taskOf (orders : List Order) : ProTask := if orders.any clears then .removeRoot else .write

def serveAll (world : World ν) : List Order → Option (World ν × Bool)
  | [] => some (world, false)
  | order :: rest => (serve printed world order).bind fun answered =>
    (serveAll answered.world rest).map fun later => (later.1, answered.sync || later.2)

variable (version : Bytes)

def still (o : Observed ν) : Turn ν := ⟨o.world, false, []⟩

/-- The tree is removed before the database is read. -/
def recoverTurn (calls : Calls FsLayout) (o : Observed ν) (files : List Bytes) :
    Option (Turn ν) :=
  match (fsLoadConfigDatabase calls o.watched.state.fs o.watched.state.disk).1 with
  | none => some ⟨⟨.nil, o.world.store⟩, false, []⟩
  | some fs => (procfsRebuild version files (loadFilesystem o.world.store fs.config)).map
      fun world => ⟨world, false, []⟩

def ordersTurn (o : Observed ν) (orders : List Order) : Option (Turn ν) :=
  (serveAll o.world orders).map fun after =>
    let deleted := after.1.store.deletedCheckpoints
    ⟨after.1, after.2, deleted.take (deleted.length - o.world.store.deletedCheckpoints.length)⟩

def proTurn (calls : Calls FsLayout) (o : Observed ν) (e : Event) : ProTask → Option (Turn ν)
  | .sync | .other => some (still o)
  | .recover2 => recoverTurn version calls o e.files
  | .write => if taskOf e.orders = .write then ordersTurn o e.orders else none
  | .removeRoot => if taskOf e.orders = .removeRoot then ordersTurn o e.orders else none

/-- A checkpoint that is answered ok is added to `proc`. -/
def dpcTurn (calls : Calls FsLayout) (o : Observed ν) : Option (Turn ν) :=
  match o.watched.state.dpcRun with
  | .checkpoint file (some _) =>
    if answersOk calls o.watched.state file then
      (procfsConfigUpdate o.world (command addKey (ofChars file.toList))).map
        fun world => ⟨world, false, []⟩
    else some (still o)
  | _ => some (still o)

def turn (o : Observed ν) (e : Event) : Option (Turn ν) :=
  match e.act with
  | .pro calls => match o.watched.state.pro with
    | [] => none
    | task :: _ => proTurn version calls o e task
  | .dpc calls => dpcTurn calls o
  | .requestPro _ | .requestDpc _ | .flushTick => some (still o)

/-- The step of the protocol, with the cache that the orders have left. -/
def served (after : Turn ν) : Act FsLayout → Act FsLayout
  | .pro calls =>
    .pro { calls with written := if after.synced then some after.world.store.fs else none }
  | act => act

def takenAfter (o : Observed ν) : Act FsLayout → String → Option (World ν)
  | .dpc calls => match o.watched.state.dpcRun with
    | .checkpoint file (some _) =>
      if answersOk calls o.watched.state file then Function.update o.taken file (some o.world)
      else o.taken
    | _ => o.taken
  | _ => o.taken

def recoveredAfter (o : Observed ν) : Act FsLayout → Option String
  | .pro calls => match o.watched.state.pro, o.watched.chained with
    | .recover2 :: _, mark :: _ =>
      if (fsLoadConfigDatabase calls o.watched.state.fs o.watched.state.disk).1.isSome then mark
      else none
    | _, _ => none
  | _ => none

/-- The orders leave their documents in the slots, and can be read again. -/
def Landing (world : World ν) (orders : List Order) : Prop :=
  (∀ order ∈ orders, Asked order) ∧ Along (Orders.step printed) Rewritable world orders

def inStepAfter (o : Observed ν) (e : Event) : Prop :=
  match e.act with
  | .pro _ => match o.watched.state.pro with
    | .recover2 :: _ => ∃ file, recoveredAfter o e.act = some file ∧ o.taken file ≠ none
    | .write :: _ | .removeRoot :: _ => o.inStep ∧ Landing o.world e.orders
    | _ => o.inStep
  | _ => o.inStep

def observedStep (o : Observed ν) (e : Event) : Option (Observed ν) :=
  (turn version o e).bind fun after => (watchedStep o.watched (served after e.act)).map fun w =>
    ⟨settled w after.world.store.fs fun file => ofChars file.toList ∈ after.gone,
      after.world, takenAfter o e.act, recoveredAfter o e.act, inStepAfter o e⟩

/-- A recovery that has just been answered ok has brought back the configuration
that its checkpoint was taken of. -/
def Restores (o : Observed ν) : Prop :=
  ∀ file saved, o.recovered = some file → o.taken file = some saved →
    SameAnswers o.world.root saved.root

/-- The images of the configurations that checkpoints were taken of. -/
def images (taken : String → Option (World ν)) (file : String) : Option FsLayout :=
  (taken file).map fun world => world.store.fs

def LastFree (fs : FsLayout) : Prop := ¬ DirActive fs lastDir ∧ ¬ FileActive fs lastFile

instance (fs : FsLayout) : Decidable (LastFree fs) :=
  inferInstanceAs (Decidable (¬ 0 < _ ∧ ¬ 0 < _))

/-- The condition on a step. A checkpoint that is answered ok has copied a config image that
is the cache, with all of the configuration in slots that are loaded. A recovery gets its
checkpoint into the database file, and nobody puts anything else there, or deletes it, before
its `recover2` has run. -/
structure Keeps (o : Observed ν) (e : Event) : Prop where
  files : FilesKept (images o.taken) o.watched e.act
  stays : ∀ after, turn version o e = some after → ∀ file, InUse o.watched file →
    o.taken file ≠ none → ofChars configDb.toList ∉ after.gone ∧
      ofChars configSwap.toList ∉ after.gone
  complete : ∀ calls file image, e.act = .dpc calls →
    o.watched.state.dpcRun = .checkpoint file (some image) →
    answersOk calls o.watched.state file = true →
    o.inStep ∧ image = o.watched.state.fs.cache ∧ LastFree image

/-- The checkpoints of a run are written to files that `pro_create_checkpoint` names, and no
file has a name with a line break in it. -/
def Named (events : List Event) : Prop :=
  ∀ e ∈ events, (∀ file, e.act = .requestDpc (.checkpoint file) → CheckpointFile file) ∧
    ∀ file ∈ e.files, Plain file

structure Started (o : Observed ν) : Prop where
  booted : Booted o.watched.state
  noneWaiting : o.watched.chained = []
  noneTaken : ∀ file, o.taken file = none
  noneRecovered : o.recovered = none
  cached : o.watched.state.fs.cache = o.world.store.fs
  filed : o.inStep → Restorable printed Rereadable o.world

end Machine

/-! ## Orders that are served -/

section Orders
variable {world world' : World ν} {orders : List Order} {synced : Bool}

theorem run_serveAll (done : serveAll world orders = some (world', synced)) :
    run (Orders.step printed) world orders = some world' := by
  induction orders generalizing world synced with
  | nil =>
    obtain ⟨rfl, _⟩ := Prod.mk.inj (Option.some.inj done)
    rfl
  | cons order rest ih =>
    obtain ⟨answered, first, mapped⟩ := Option.bind_eq_some_iff.mp done
    obtain ⟨⟨after, more⟩, later, same⟩ := Option.map_eq_some_iff.mp mapped
    obtain ⟨rfl, _⟩ := Prod.mk.inj same
    have next : Orders.step printed world order = some answered.world := by
      rw [Orders.step, first]
      rfl
    rw [run, next]
    exact ih later

theorem restorable_serveAll (h : Restorable printed Rereadable world)
    (landing : Landing world orders) (done : serveAll world orders = some (world', synced)) :
    Restorable printed Rereadable world' := by
  have room : ∀ D : Item ν, Rereadable D → (printed D).length ≤ fsMaxFileSize :=
    fun D fits => Nat.le_of_lt fits.1
  have both := along_and (along_of_forall landing.1 world) landing.2
  exact always_end (always_of_along
    (fun w order w' h each done => restorable_step h each.1 room each.2 done) h both)
    (run_serveAll done)

end Orders

/-- The name of a checkpoint file can be put into `proc`. -/
theorem plain_checkpointFile {file : String} (named : CheckpointFile file) :
    Plain (ofChars file.toList) := by
  obtain ⟨stamp, rfl, digits⟩ := named
  have early : ∀ b ∈ ofChars "jess_checkpoint_".toList, b ≠ 13 ∧ b ≠ 0 := by decide +kernel
  have later : ∀ b ∈ ofChars stamp.toList, b ≠ 13 ∧ b ≠ 0 := by
    intro b mem
    obtain ⟨c, inside, rfl⟩ := List.mem_map.mp mem
    rcases digits c inside with digit | rfl
    · simp only [Char.isDigit, Bool.and_eq_true, decide_eq_true_eq, ge_iff_le,
        UInt32.le_iff_toNat_le] at digit
      have low : 48 ≤ c.toNat := digit.1
      have high : c.toNat ≤ 57 := digit.2
      have value : c.toNat.toUInt8.toNat = c.toNat := by
        rw [Nat.toUInt8, UInt8.toNat_ofNat']
        omega
      exact ⟨fun same => by rw [same] at value; simp at value; omega,
        fun same => by rw [same] at value; simp at value; omega⟩
    · decide
  have bytes : ofChars ("jess_checkpoint_" ++ stamp).toList =
      ofChars "jess_checkpoint_".toList ++ ofChars stamp.toList := by
    rw [String.toList_append, ofChars, List.map_append]
    rfl
  have each : ∀ b ∈ ofChars ("jess_checkpoint_" ++ stamp).toList, b ≠ 13 ∧ b ≠ 0 := by
    rw [bytes]
    exact List.forall_mem_append.mpr ⟨early, later⟩
  refine ⟨?_, noCrlf_of_noCr fun mem => (each 13 mem).1 rfl, fun mem => (each 0 mem).2 rfl⟩
  rw [bytes]
  exact List.append_ne_nil_of_left_ne_nil (by decide +kernel) _

/-! ## The invariant -/

section Invariant
variable {version : Bytes} {o o' : Observed ν} {e : Event}

structure Inv (o : Observed ν) : Prop where
  held : Held (images o.taken) o.watched
  cached : o.watched.state.fs.cache = o.world.store.fs
  filed : o.inStep → Restorable printed Rereadable o.world
  whole : ∀ file saved, o.taken file = some saved →
    Restorable printed Rereadable saved ∧ LastFree saved.store.fs
  restores : Restores o

omit [DoubleText ν] [NumberFormat ν] in
theorem images_ne_none {taken : String → Option (World ν)} {file : String} :
    images taken file ≠ none ↔ taken file ≠ none := by
  simp [images]

theorem started_inv (start : Started o) : Inv o where
  held := by
    have empty : images o.taken = fun _ => none := by
      funext file
      simp [images, start.noneTaken file]
    rw [empty]
    exact booted_held start.booted start.noneWaiting
  cached := start.cached
  filed := start.filed
  whole := by simp [start.noneTaken]
  restores := by simp [Restores, start.noneRecovered]

/-- What a checkpoint copies is the image of its configuration. -/
theorem images_takenAfter (inv : Inv o) (keeps : Keeps version o e) :
    images (takenAfter o e.act) = savedAfter (images o.taken) o.watched e.act := by
  cases act : e.act with
  | requestPro _ | requestDpc _ | flushTick | pro _ => rfl
  | dpc calls =>
    cases run : o.watched.state.dpcRun with
    | idle => simp [takenAfter, savedAfter, run]
    | fsync pc => simp [takenAfter, savedAfter, run]
    | recover file pc => simp [takenAfter, savedAfter, run]
    | checkpoint file buffer =>
      cases buffer with
      | none => simp [takenAfter, savedAfter, run]
      | some image =>
        cases ok : answersOk calls o.watched.state file with
        | false => simp [takenAfter, savedAfter, run, ok]
        | true =>
          have same := (keeps.complete calls file image act run ok).2.1
          rw [inv.cached] at same
          funext other
          by_cases here : other = file
          · subst here
            simp [takenAfter, savedAfter, run, ok, images, same]
          · simp [takenAfter, savedAfter, run, ok, images, here]

theorem whole_takenAfter (inv : Inv o) (keeps : Keeps version o e) {file : String}
    {saved : World ν} (was : takenAfter o e.act file = some saved) :
    Restorable printed Rereadable saved ∧ LastFree saved.store.fs := by
  cases act : e.act with
  | requestPro _ | requestDpc _ | flushTick | pro _ =>
    exact inv.whole file saved (by rwa [act] at was)
  | dpc calls =>
    rw [act] at was
    cases run : o.watched.state.dpcRun with
    | idle => exact inv.whole file saved (by simpa [takenAfter, run] using was)
    | fsync pc => exact inv.whole file saved (by simpa [takenAfter, run] using was)
    | recover other pc => exact inv.whole file saved (by simpa [takenAfter, run] using was)
    | checkpoint name buffer =>
      cases buffer with
      | none => exact inv.whole file saved (by simpa [takenAfter, run] using was)
      | some image =>
        cases ok : answersOk calls o.watched.state name with
        | false => exact inv.whole file saved (by simpa [takenAfter, run, ok] using was)
        | true =>
          obtain ⟨inStep, same, free⟩ := keeps.complete calls name image act run ok
          simp only [takenAfter, run, ok, if_true] at was
          by_cases here : file = name
          · subst here
            rw [Function.update_self] at was
            obtain rfl := Option.some.inj was
            rw [same, inv.cached] at free
            exact ⟨inv.filed inStep, free⟩
          · rw [Function.update_of_ne here] at was
            exact inv.whole file saved was

/-- A checkpoint file of this run is loaded, if it is what the recovery has put in place. -/
theorem recoverTurn_alike (laws : NumberLaws ν) (plain : Plain version) {calls : Calls FsLayout}
    {after : Turn ν} {files : List Bytes} (names : ∀ file ∈ files, Plain file) (inv : Inv o)
    {file : String} {saved : World ν} (waits : Placed o.watched file)
    (was : o.taken file = some saved)
    (ok : (fsLoadConfigDatabase calls o.watched.state.fs o.watched.state.disk).1.isSome = true)
    (done : recoverTurn version calls o files = some after) :
    Restorable printed Rereadable after.world ∧ SameAnswers after.world.root saved.root := by
  obtain ⟨loaded, load⟩ := Option.isSome_iff_exists.mp ok
  obtain ⟨whole, free⟩ := inv.whole file saved was
  have database := inv.held.placed file saved.store.fs waits (by rw [images, was]; rfl)
  have config := fsLoadConfigDatabase_some database load
  rw [updateSeq_filed whole.steady.sound.tables.filed] at config
  rw [recoverTurn, load] at done
  obtain ⟨world, rebuilt, rfl⟩ := Option.map_eq_some_iff.mp done
  rw [config] at rebuilt
  exact recovered_alike laws whole free o.world.store plain names rebuilt

/-- The `recover2` that is answered ok for a checkpoint of this run. -/
theorem recovered_turn (laws : NumberLaws ν) (plain : Plain version)
    (names : ∀ file ∈ e.files, Plain file) (inv : Inv o) {after : Turn ν} {file : String}
    {saved : World ν} (turned : turn version o e = some after)
    (ended : recoveredAfter o e.act = some file) (was : o.taken file = some saved) :
    Restorable printed Rereadable after.world ∧ SameAnswers after.world.root saved.root := by
  cases act : e.act with
  | requestPro _ | requestDpc _ | flushTick | dpc _ => simp [act, recoveredAfter] at ended
  | pro calls =>
    rw [act, recoveredAfter] at ended
    rw [turn, act] at turned
    dsimp only at turned
    split at ended
    · rename_i rest mark marks queue waiting
      rw [queue] at turned
      split at ended
      · rename_i ok
        have waits : Placed o.watched file :=
          Or.inl (by rw [waiting, ended]; exact List.mem_cons_self ..)
        exact recoverTurn_alike laws plain names inv waits was ok turned
      · cases ended
    · cases ended

/-- The slots hold all of the configuration, as long as it is said so. -/
theorem filed_turn (laws : NumberLaws ν) (plain : Plain version)
    (names : ∀ file ∈ e.files, Plain file) (inv : Inv o) {after : Turn ν}
    (turned : turn version o e = some after) (inStep : inStepAfter o e) :
    Restorable printed Rereadable after.world := by
  have same : after = still o → o.inStep → Restorable printed Rereadable after.world := by
    rintro rfl inStep
    exact inv.filed inStep
  cases act : e.act with
  | requestPro _ | requestDpc _ | flushTick =>
    rw [turn, act] at turned
    rw [inStepAfter, act] at inStep
    exact same (Option.some.inj turned).symm inStep
  | dpc calls =>
    rw [turn, act] at turned
    rw [inStepAfter, act] at inStep
    replace turned : dpcTurn calls o = some after := turned
    rw [dpcTurn] at turned
    split at turned
    · rename_i file image run
      split at turned
      · obtain ⟨world, added, rfl⟩ := Option.map_eq_some_iff.mp turned
        have room : ∀ D : Item ν, Rereadable D → (printed D).length ≤ fsMaxFileSize :=
          fun D fits => Nat.le_of_lt fits.1
        exact (restorable_command (inv.filed inStep) room (jessKeys addKey (by simp))
          (plain_checkpointFile (inv.held.running file _ run)) added).1
      · exact same (Option.some.inj turned).symm inStep
    · exact same (Option.some.inj turned).symm inStep
  | pro calls =>
    cases queue : o.watched.state.pro with
    | nil => simp [turn, act, queue] at turned
    | cons task rest =>
      rw [inStepAfter, act, queue] at inStep
      have turned' : proTurn version calls o e task = some after := by
        simpa only [turn, act, queue] using turned
      have ordered : o.inStep ∧ Landing o.world e.orders → ordersTurn o e.orders = some after →
          Restorable printed Rereadable after.world := by
        rintro ⟨inStep, landing⟩ served
        obtain ⟨⟨world, synced⟩, done, rfl⟩ := Option.map_eq_some_iff.mp served
        exact restorable_serveAll (inv.filed inStep) landing done
      cases task with
      | sync => exact same (Option.some.inj turned').symm inStep
      | other => exact same (Option.some.inj turned').symm inStep
      | recover2 =>
        obtain ⟨file, ended, was⟩ := inStep
        obtain ⟨saved, was⟩ := Option.ne_none_iff_exists'.mp was
        exact (recovered_turn laws plain names inv turned (act ▸ ended) was).1
      | write =>
        rw [proTurn] at turned'
        split at turned'
        · exact ordered inStep turned'
        · cases turned'
      | removeRoot =>
        rw [proTurn] at turned'
        split at turned'
        · exact ordered inStep turned'
        · cases turned'

/-- Only the orders of a request delete files. -/
theorem gone_turn {after : Turn ν} (turned : turn version o e = some after)
    (notPro : ∀ calls, e.act ≠ .pro calls) : after.gone = [] := by
  cases act : e.act with
  | requestPro _ | requestDpc _ | flushTick =>
    rw [turn, act] at turned
    exact Option.some.inj turned ▸ rfl
  | pro calls => exact absurd act (notPro calls)
  | dpc calls =>
    rw [turn, act] at turned
    replace turned : dpcTurn calls o = some after := turned
    rw [dpcTurn] at turned
    split at turned
    · split at turned
      · obtain ⟨world, _, rfl⟩ := Option.map_eq_some_iff.mp turned
        rfl
      · exact Option.some.inj turned ▸ rfl
    · exact Option.some.inj turned ▸ rfl

theorem held_turn {after : Turn ν} {w : Watched FsLayout} (inv : Inv o)
    (named : ∀ file, e.act = .requestDpc (.checkpoint file) → CheckpointFile file)
    (keeps : Keeps version o e) (turned : turn version o e = some after)
    (stepped : watchedStep o.watched (served after e.act) = some w) :
    Held (images (takenAfter o e.act))
      (settled w after.world.store.fs fun file => ofChars file.toList ∈ after.gone) := by
  have unmoved (notPro : ∀ calls, e.act ≠ .pro calls)
      (held : Held (images (takenAfter o e.act)) w) :
      Held (images (takenAfter o e.act))
        (settled w after.world.store.fs fun file => ofChars file.toList ∈ after.gone) := by
    refine held_settled held _ fun file _ _ => ?_
    rw [gone_turn turned notPro]
    exact ⟨decide_eq_false List.not_mem_nil, decide_eq_false List.not_mem_nil⟩
  rw [images_takenAfter inv keeps] at unmoved ⊢
  have files := keeps.files
  cases act : e.act with
  | requestPro _ | requestDpc _ | flushTick =>
    rw [act] at stepped unmoved
    exact unmoved (by simp) (held_request inv.held (fun file same => named file (act.trans same))
      (by simp) stepped)
  | dpc calls =>
    rw [act] at stepped unmoved files
    exact unmoved nofun (held_dpc inv.held files stepped)
  | pro calls =>
    rw [act] at stepped files
    have files' : FilesKept (images o.taken) o.watched (served after (.pro calls)) := files
    obtain ⟨held, running, placed⟩ := held_pro inv.held files' stepped
    refine held_settled held _ fun file uses was => ?_
    have before : InUse o.watched file := by
      rcases uses with run | waits
      · exact Or.inl (running ▸ run)
      · exact Or.inr (placed file waits)
    obtain ⟨database, swap⟩ := keeps.stays after turned file before (images_ne_none.mp was)
    exact ⟨decide_eq_false database, decide_eq_false swap⟩

theorem inv_step (laws : NumberLaws ν) (plain : Plain version) (inv : Inv o)
    (named : ∀ file, e.act = .requestDpc (.checkpoint file) → CheckpointFile file)
    (names : ∀ file ∈ e.files, Plain file) (keeps : Keeps version o e)
    (done : observedStep version o e = some o') : Inv o' := by
  obtain ⟨after, turned, next⟩ := Option.bind_eq_some_iff.mp done
  obtain ⟨w, stepped, rfl⟩ := Option.map_eq_some_iff.mp next
  refine ⟨held_turn inv named keeps turned stepped, rfl,
    filed_turn laws plain names inv turned, fun file saved => whole_takenAfter inv keeps, ?_⟩
  intro file saved ended was
  replace ended : recoveredAfter o e.act = some file := ended
  -- a step that ends a recovery takes no checkpoint
  have before : takenAfter o e.act = o.taken := by
    cases act : e.act with
    | dpc calls => simp [act, recoveredAfter] at ended
    | _ => rfl
  replace was : takenAfter o e.act file = some saved := was
  rw [before] at was
  exact (recovered_turn laws plain names inv turned ended was).2

end Invariant

/-- In every run from start-up whose steps meet the condition, a recovery that is
answered ok brings back the configuration of its checkpoint. -/
theorem always_restores_of_keeps (laws : NumberLaws ν) {version : Bytes} (plain : Plain version)
    {o : Observed ν} {events : List Event} (start : Started o) (named : Named events)
    (keeps : Along (observedStep version) (Keeps version) o events) :
    Always (observedStep version) Restores o events := by
  have both := along_and (along_of_forall named o) keeps
  have kept : Always (observedStep version) Inv o events := always_of_along
    (fun _ _ _ inv fine h => inv_step laws plain inv fine.1.1 fine.1.2 fine.2 h)
    (started_inv start) both
  exact always_mono (fun _ inv => inv.restores) kept

/-! ## Runs -/

section Runs

/-- A server without a configuration that has just started. -/
def startedServer : Observed (Fin 10) where
  watched := ⟨bootState FsLayout.zero, []⟩
  world := emptyServer
  taken _ := none
  recovered := none
  inStep := True

theorem startedServer_started : Started startedServer where
  booted := bootState_booted FsLayout.zero
  noneWaiting := rfl
  noneTaken _ := rfl
  noneRecovered := rfl
  cached := rfl
  filed _ := emptyServer_restorable

/-- A step that serves no order. -/
def quiet (act : Act FsLayout) : Event := ⟨act, [], []⟩

def fine : Calls FsLayout := callsOk FsLayout.zero

def checkpointFile : String := "jess_checkpoint_20200101_000000"

def checkpointAndRecover : List Event :=
  [quiet (.dpc fine), quiet (.dpc fine), quiet (.dpc fine), quiet (.dpc fine), quiet (.dpc fine),
    quiet (.dpc fine), quiet (.dpc fine), quiet (.dpc fine), quiet (.pro fine)]

def requests : List Event :=
  [quiet (.requestDpc (.checkpoint checkpointFile)), quiet (.requestDpc (.recover checkpointFile))]

/-- A directory is made before the checkpoint, and there is no sync. -/
def unsyncedRun : List Event :=
  [quiet (.requestPro .write), ⟨.pro fine, [.mkdir dirRequest], []⟩] ++ requests ++
    checkpointAndRecover

/-- A directory and a field are made before the checkpoint, and synced. -/
def syncedRun : List Event :=
  [quiet (.requestPro .write), ⟨.pro fine, [.mkdir dirRequest], []⟩,
    quiet (.requestPro .write), ⟨.pro fine, [.write writeRequest], []⟩] ++ requests ++
    [quiet (.requestPro .sync), quiet (.pro fine)] ++ checkpointAndRecover

theorem checkpointFile_named : CheckpointFile checkpointFile :=
  ⟨"20200101_000000", by decide, by simp⟩

theorem named_of_quiet {events : List Event}
    (each : ∀ e ∈ events, e.files = [] ∧
      ∀ file, e.act = .requestDpc (.checkpoint file) → file = checkpointFile) : Named events := by
  intro e mem
  obtain ⟨none, own⟩ := each e mem
  refine ⟨fun file asked => own file asked ▸ checkpointFile_named, ?_⟩
  rw [none]
  exact nofun

def dirKey : Jrp where
  segm := [⟨ofChars ['d'], -1, .logicScope⟩]
  valuestring := none
  dupkey := ofChars ['d']
  dupvalue := []

/-- The recovery loads what was in the database before the directory was made. -/
theorem unsyncedRun_ends : (run (observedStep (ofChars ['1'])) startedServer unsyncedRun).map
    (fun u => (u.recovered, (rtSearch u.world.root dirKey).1,
      (u.taken checkpointFile).map fun w => (rtSearch w.root dirKey).1)) =
    some (some checkpointFile, -1, some 0) := by decide +kernel

/-- A directory that was made before the checkpoint, and not synced, is gone after the
recovery. -/
theorem not_always_restores : ¬ ∀ (version : Bytes) (o : Observed (Fin 10)) (events : List Event),
    Plain version → Started o → Named events → Always (observedStep version) Restores o events := by
  intro claim
  obtain ⟨u, ran, shown⟩ := Option.map_eq_some_iff.mp unsyncedRun_ends
  obtain ⟨recovered, shown⟩ := Prod.mk.inj shown
  obtain ⟨missing, shown⟩ := Prod.mk.inj shown
  obtain ⟨saved, taken, present⟩ := Option.map_eq_some_iff.mp shown
  have named : Named unsyncedRun := named_of_quiet (by
    simp [unsyncedRun, requests, checkpointAndRecover, quiet, eq_comm])
  have last := always_end (claim (ofChars ['1']) startedServer unsyncedRun (by decide)
    startedServer_started named) ran
  have same := last checkpointFile saved recovered taken dirKey (by
    intro segm mem
    cases mem
    decide)
  have answers := congrArg Prod.fst same
  rw [missing, present] at answers
  cases answers

theorem keeps_quiet {version : Bytes} {o : Observed ν} {act : Act FsLayout}
    (notPro : ∀ calls, act ≠ .pro calls) (files : FilesKept (images o.taken) o.watched act)
    (complete : ∀ calls file image, act = .dpc calls →
      o.watched.state.dpcRun = .checkpoint file (some image) →
      answersOk calls o.watched.state file = true →
      o.inStep ∧ image = o.watched.state.fs.cache ∧ LastFree image) :
    Keeps version o (quiet act) where
  files := files
  stays after turned file _ _ := by
    rw [gone_turn turned notPro]
    exact ⟨List.not_mem_nil, List.not_mem_nil⟩
  complete := complete

theorem keeps_requestPro {version : Bytes} (o : Observed ν) (task : ProTask) :
    Keeps version o (quiet (.requestPro task)) :=
  keeps_quiet (by simp) trivial (by simp)

theorem keeps_requestDpc {version : Bytes} (o : Observed ν) (task : DpcTask) :
    Keeps version o (quiet (.requestDpc task)) :=
  keeps_quiet (by simp) trivial (by simp)

/-- No recovery is under way. -/
theorem keeps_unused {version : Bytes} {o : Observed ν} {e : Event} {calls : Calls FsLayout}
    (pro : e.act = .pro calls) (unused : ∀ file, ¬ InUse o.watched file) : Keeps version o e where
  files := by
    rw [pro]
    exact fun _ file waits => absurd (Or.inr waits) (unused file)
  stays _ _ file uses := absurd uses (unused file)
  complete _ _ _ act := by
    rw [pro] at act
    cases act

/-- A request that makes a directory or writes a value. -/
theorem step_orders {version : Bytes} {o : Observed ν} {calls : Calls FsLayout}
    {orders : List Order} {files : List Bytes} {rest : List ProTask} {after : Turn ν}
    (queue : o.watched.state.pro = .write :: rest) (task : taskOf orders = .write)
    (done : ordersTurn o orders = some after) :
    observedStep version o ⟨.pro calls, orders, files⟩ =
      (watchedStep o.watched (served after (.pro calls))).map fun w =>
        ⟨settled w after.world.store.fs fun file => ofChars file.toList ∈ after.gone,
          after.world, o.taken, recoveredAfter o (.pro calls),
          inStepAfter o ⟨.pro calls, orders, files⟩⟩ := by
  have turned : turn version o ⟨.pro calls, orders, files⟩ = some after := by
    simp only [turn, queue, proTurn]
    rw [if_pos task, done]
  rw [observedStep, turned]
  rfl

theorem ordersTurn_of {o : Observed ν} {orders : List Order} {w : World ν} {synced : Bool}
    (done : serveAll o.world orders = some (w, synced)) (none : w.store.deletedCheckpoints = []) :
    ordersTurn o orders = some ⟨w, synced, []⟩ := by
  simp [ordersTurn, done, none]

/-- What the run has left when its orders are served and the configuration is synced. -/
theorem syncedRun_orders : ∃ w₁ w₂ w₃ : World (Fin 10),
    serveAll emptyServer [.mkdir dirRequest] = some (w₁, true) ∧
    serveAll w₁ [.write writeRequest] = some (w₂, true) ∧
    procfsConfigUpdate w₂ (command addKey (ofChars checkpointFile.toList)) = some w₃ ∧
    w₁.store.deletedCheckpoints = [] ∧ w₂.store.deletedCheckpoints = [] ∧
    LastFree w₂.store.fs := by
  have all : ((serveAll (emptyServer : World (Fin 10)) [.mkdir dirRequest]).bind fun first =>
      (serveAll first.1 [.write writeRequest]).bind fun second =>
        (procfsConfigUpdate second.1 (command addKey (ofChars checkpointFile.toList))).map fun _ =>
          (first.2, second.2, first.1.store.deletedCheckpoints.isEmpty,
            second.1.store.deletedCheckpoints.isEmpty, decide (LastFree second.1.store.fs))) =
      some (true, true, true, true, true) := by decide +kernel
  obtain ⟨⟨w₁, first⟩, made, all⟩ := Option.bind_eq_some_iff.mp all
  obtain ⟨⟨w₂, second⟩, written, all⟩ := Option.bind_eq_some_iff.mp all
  obtain ⟨w₃, added, all⟩ := Option.map_eq_some_iff.mp all
  simp only [Prod.mk.injEq, decide_eq_true_eq, List.isEmpty_iff] at all
  obtain ⟨rfl, rfl, kept, kept', free⟩ := all
  exact ⟨w₁, w₂, w₃, made, written, added, kept, kept', free⟩

/-- The server between two steps of a run that no second has passed in. -/
def stage (world : World (Fin 10)) (config : FsLayout) (count : BitVec 32) (permit pending : Int)
    (copied : Option FsLayout) (disk : Disk FsLayout) (pro : List ProTask)
    (chained : List (Option String)) (dpc : List DpcTask) (dpcRun : DpcRun FsLayout)
    (taken : String → Option (World (Fin 10))) (inStep : Prop) : Observed (Fin 10) where
  watched :=
    ⟨⟨⟨world.store.fs, config, count, permit⟩, disk, pending, pro, dpc, dpcRun, 0, 0, copied⟩,
    chained⟩
  world := world
  taken := taken
  recovered := none
  inStep := inStep

theorem keeps_recover2 {version : Bytes} {o : Observed ν} {calls : Calls FsLayout}
    {rest : List ProTask} (queue : o.watched.state.pro = .recover2 :: rest) :
    Keeps version o (quiet (.pro calls)) where
  files := by
    change o.watched.state.pro.head? = some .removeRoot → _
    rw [queue]
    exact nofun
  stays := by
    intro after turned file _ _
    have none : after.gone = [] := by
      simp only [turn, quiet, queue, proTurn] at turned
      rw [recoverTurn] at turned
      split at turned
      · exact Option.some.inj turned ▸ rfl
      · obtain ⟨world, _, rfl⟩ := Option.map_eq_some_iff.mp turned
        rfl
    rw [none]
    exact ⟨List.not_mem_nil, List.not_mem_nil⟩
  complete := nofun

section Synced
variable {w₁ w₂ w₃ : World (Fin 10)} {inStep : Prop}

def noneTaken : String → Option (World (Fin 10)) := fun _ => none

def oneTaken (w : World (Fin 10)) : String → Option (World (Fin 10)) :=
  Function.update noneTaken checkpointFile (some w)

def emptyDisk : Disk FsLayout := (bootState FsLayout.zero).disk

def oneSaved (image : FsLayout) : Disk FsLayout :=
  Function.update emptyDisk checkpointFile (some image)

def swapped (image : FsLayout) : Disk FsLayout :=
  Function.update (oneSaved image) configSwap (some image)

theorem unplaced {o : Observed (Fin 10)}
    (run : ∀ file, o.watched.state.dpcRun ≠ .recover file .renamed)
    (none : o.watched.chained = []) (file : String) : ¬ Placed o.watched file := by
  rintro (waits | waits)
  · rw [none] at waits
    cases waits
  · exact run file waits

theorem keeps_dpc {version : Bytes} {o : Observed (Fin 10)}
    (run : ∀ file image, o.watched.state.dpcRun ≠ .checkpoint file (some image))
    (files : FilesKept (images o.taken) o.watched (.dpc fine)) :
    Keeps version o (quiet (.dpc fine)) :=
  keeps_quiet nofun files fun _ file image _ same _ => absurd same (run file image)

/-- The five steps of the recovery, and its `recover2`. -/
theorem keeps_recovery : Along (observedStep (ofChars ['1'])) (Keeps (ofChars ['1']))
    (stage w₃ w₂.store.fs 2 1 1 (some w₂.store.fs) (oneSaved w₂.store.fs) [] []
      [.recover checkpointFile, .fsync] .idle (oneTaken w₂) inStep)
    [quiet (.dpc fine), quiet (.dpc fine), quiet (.dpc fine), quiet (.dpc fine),
      quiet (.dpc fine), quiet (.pro fine)] := by
  let image := w₂.store.fs
  let disk := fsSwapDatabase fine (swapped image)
  refine along_cons (t := stage w₃ image 2 1 1 (some image) (oneSaved image) [] [] [.fsync]
    (.recover checkpointFile .start) (oneTaken w₂) inStep) (keeps_dpc nofun trivial) rfl ?_
  refine along_cons (t := stage w₃ image 2 0 1 (some image) (oneSaved image) [] [] [.fsync]
    (.recover checkpointFile .disabled) (oneTaken w₂) inStep) (keeps_dpc nofun trivial) rfl ?_
  refine along_cons (t := stage w₃ image 2 0 1 (some image) (swapped image) [] [] [.fsync]
    (.recover checkpointFile .written) (oneTaken w₂) inStep) (keeps_dpc nofun trivial) rfl ?_
  refine along_cons (t := stage w₃ image 2 0 1 (some image) disk [] [] [.fsync]
    (.recover checkpointFile .renamed) (oneTaken w₂) inStep) (keeps_dpc nofun ⟨?_, ?_⟩) rfl ?_
  · exact fun _ file _ waits => absurd waits (unplaced (fun _ same => by cases same) rfl file)
  · exact fun _ => Or.inl rfl
  refine along_cons (t := stage w₃ image 2 0 1 (some image) disk [.recover2] [some checkpointFile]
    [.fsync] .idle (oneTaken w₂) inStep) (keeps_dpc nofun trivial) rfl ?_
  exact ⟨keeps_recover2 rfl, fun _ _ => trivial⟩

/-- The three steps of the checkpoint before it. -/
theorem keeps_checkpoint (complete : inStep) (free : LastFree w₂.store.fs)
    (added : procfsConfigUpdate w₂ (command addKey (ofChars checkpointFile.toList)) = some w₃) :
    Along (observedStep (ofChars ['1'])) (Keeps (ofChars ['1']))
      (stage w₂ w₂.store.fs 2 1 1 (some w₂.store.fs) emptyDisk [] []
        [.checkpoint checkpointFile, .recover checkpointFile, .fsync] .idle noneTaken inStep)
      checkpointAndRecover := by
  let image := w₂.store.fs
  refine along_cons (t := stage w₂ image 2 1 1 (some image) emptyDisk [] []
    [.recover checkpointFile, .fsync] (.checkpoint checkpointFile none) noneTaken inStep)
    (keeps_dpc nofun trivial) rfl ?_
  refine along_cons (t := stage w₂ image 2 1 1 (some image) emptyDisk [] []
    [.recover checkpointFile, .fsync] (.checkpoint checkpointFile (some image)) noneTaken inStep)
    (keeps_dpc (fun _ _ same => by cases same) trivial) rfl ?_
  refine along_cons (t := stage w₃ image 2 1 1 (some image) (oneSaved image) [] []
    [.recover checkpointFile, .fsync] .idle (oneTaken w₂) inStep) (keeps_quiet nofun ?_ ?_) ?_
    keeps_recovery
  · exact fun _ => unplaced (fun _ same => by cases same) rfl checkpointFile
  · rintro calls file image' ⟨⟩ ⟨⟩ -
    exact ⟨complete, rfl, free⟩
  · have turned : turn (ofChars ['1']) (stage w₂ image 2 1 1 (some image) emptyDisk [] []
        [.recover checkpointFile, .fsync]
        (.checkpoint checkpointFile (some image)) noneTaken inStep)
        (quiet (.dpc fine)) = some ⟨w₃, false, []⟩ :=
      congrArg (Option.map fun world => (⟨world, false, []⟩ : Turn (Fin 10))) added
    rw [observedStep, turned]
    rfl

/-- Each step of the run meets the condition. -/
theorem keeps_syncedRun :
    Along (observedStep (ofChars ['1'])) (Keeps (ofChars ['1'])) startedServer syncedRun := by
  obtain ⟨w₁, w₂, w₃, made, written, added, kept, kept', free⟩ := syncedRun_orders
  have unused (o : Observed (Fin 10)) (idle : o.watched.state.dpcRun = .idle)
      (none : o.watched.chained = [none]) (file : String) : ¬ InUse o.watched file := by
    simp [InUse, Placed, idle, none]
  let first : Prop := True ∧ Landing (emptyServer : World (Fin 10)) [.mkdir dirRequest]
  let both : Prop := first ∧ Landing w₁ [.write writeRequest]
  have complete : both := by
    have step₁ : Orders.step printed emptyServer (.mkdir dirRequest) = some w₁ := by
      obtain ⟨w, next, ends⟩ := run_cons (run_serveAll made)
      exact next.trans (congrArg some (Option.some.inj ends))
    refine ⟨⟨trivial, List.forall_mem_singleton.mpr (twoOrders_asked _ ?_), ?_, fun _ _ => trivial⟩,
      List.forall_mem_singleton.mpr (twoOrders_asked _ ?_), rewritable_writeRequest step₁,
      fun _ _ => trivial⟩
    · simp [twoOrders]
    · rintro jrp ⟨⟩
    · simp [twoOrders]
  -- the orders
  refine along_cons (t := stage emptyServer .zero 0 1 0 none emptyDisk [.write] [none] [] .idle
    noneTaken True) (keeps_requestPro _ _) rfl ?_
  refine along_cons (t := stage w₁ .zero 1 1 0 none emptyDisk [] [] [] .idle noneTaken first)
    (keeps_unused rfl (unused _ rfl rfl))
    ((step_orders rfl rfl (ordersTurn_of made kept)).trans rfl)
    ?_
  refine along_cons (t := stage w₁ .zero 1 1 0 none emptyDisk [.write] [none] [] .idle noneTaken
    first) (keeps_requestPro _ _) rfl ?_
  refine along_cons (t := stage w₂ .zero 2 1 0 none emptyDisk [] [] [] .idle noneTaken both)
    (keeps_unused rfl (unused _ rfl rfl))
    ((step_orders rfl rfl (ordersTurn_of written kept')).trans rfl) ?_
  -- the requests, and the sync
  refine along_cons (t := stage w₂ .zero 2 1 0 none emptyDisk [] [] [.checkpoint checkpointFile]
    .idle noneTaken both) (keeps_requestDpc _ _) rfl ?_
  refine along_cons (t := stage w₂ .zero 2 1 0 none emptyDisk [] []
    [.checkpoint checkpointFile, .recover checkpointFile] .idle noneTaken both)
    (keeps_requestDpc _ _) rfl ?_
  refine along_cons (t := stage w₂ .zero 2 1 0 none emptyDisk [.sync] [none]
    [.checkpoint checkpointFile, .recover checkpointFile] .idle noneTaken both)
    (keeps_requestPro _ _) rfl ?_
  exact along_cons (keeps_unused rfl (unused _ rfl rfl)) rfl (keeps_checkpoint complete free added)

/-- A configuration that was synced is saved, and brought back. -/
theorem always_restores_of_keeps_synced :
    Always (observedStep (ofChars ['1'])) Restores startedServer syncedRun ∧
      (run (observedStep (ofChars ['1'])) startedServer syncedRun).map
        (fun u => (u.recovered, rtSearch u.world.root writeRequest)) =
      some (some checkpointFile, 0, ofChars ['1']) := by
  have named : Named syncedRun := named_of_quiet (by
    simp [syncedRun, requests, checkpointAndRecover, quiet, eq_comm])
  exact ⟨always_restores_of_keeps digit_laws (by decide) startedServer_started named
    keeps_syncedRun, by decide +kernel⟩

end Synced

end Runs

end RecoverLaw
