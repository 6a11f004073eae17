import Cfgd.Transition
import Mathlib.Logic.Function.Basic

/-!
# The sync protocol between the PRO thread, the DPC thread and the flush thread

The PRO thread owns the cache and copies it to `config` (`fs_sync`). The DPC
thread writes `config` to disk (`fs_fsync`), dumps it (`fs_create_checkpoint`)
and puts a checkpoint in its place (`fs_recover_checkpoint`, then `recover2` on
the PRO thread). The flush thread clears the write counter once a second and
queues a sync task. A PRO task runs in one step. A DPC task runs in as many
steps as it has reads and writes that another thread can see, so that a PRO
task may fall between any two of them.

`Image` stands for the bytes of `struct fs_config_layout`.
-/

namespace SyncProtocol

universe u

/-- `MAX_PENDING_TASK`, the number of tasks a work thread lets wait. -/
def maxPendingTask : Nat := 100

def configDb : String := "configure.db"
def configSwap : String := "configure.db.swap"

/-- The members of `struct fs_server` that the protocol reads and writes. -/
structure FsServer (Image : Type u) where
  cache : Image
  config : Image
  countOverwritten : BitVec 32
  permitOverride : Int

/-- Files of the fs directory that hold a whole layout image. -/
abbrev Disk (Image : Type u) := String → Option Image

/-- What the protocol needs from the layout: `fs_update_seq` and the zeroed image. -/
class LayoutImage (Image : Type u) where
  updateSeq : Image → Image
  zero : Image

/-- How the calls into the operating system answer in one step. `rename i` is the
i-th attempt of `fs_swap_database`, `heap` the content of fresh heap memory,
`shortRead` what is in memory when a database was made anew and has not got the size of a
layout (the disk is full, or the file was longer), and `written` the cache left by a write
request that succeeds. -/
structure Calls (Image : Type u) where
  malloc : Bool
  fileOpen : Bool
  swapOpen : Bool
  fileRead : Bool
  fileWrite : Bool
  fileFlush : Bool
  rename : Nat → Bool
  heap : Image
  shortRead : Option Image
  written : Option Image

inductive Status where
  | ok
  | fatal
  deriving DecidableEq, Repr

inductive ProTask where
  | write
  | removeRoot
  | sync
  | recover2
  | other
  deriving DecidableEq, Repr

inductive DpcTask where
  | fsync
  | checkpoint (file : String)
  | recover (file : String)
  | other
  deriving DecidableEq, Repr

/-- The points of `fs_fsync` between two accesses to shared data. -/
inductive FsyncPc (Image : Type u) where
  | start
  | allowed
  | copied (buffer : Image)
  | written
  | renamed

inductive RecoverPc where
  | start
  | disabled
  | written
  | renamed
  deriving DecidableEq, Repr

/-- The task in the hands of the DPC thread. -/
inductive DpcRun (Image : Type u) where
  | idle
  | fsync (pc : FsyncPc Image)
  | checkpoint (file : String) (buffer : Option Image)
  | recover (file : String) (pc : RecoverPc)

/-- `writes` and `seconds` are the locals of `fs_flush_check`. `copied` is a
history variable: the config image left by the last `fs_sync` that copied. -/
structure State (Image : Type u) where
  fs : FsServer Image
  disk : Disk Image
  pendingFsync : Int
  pro : List ProTask
  dpc : List DpcTask
  dpcRun : DpcRun Image
  writes : Int
  seconds : Nat
  copied : Option Image

inductive Act (Image : Type u) where
  | requestPro (task : ProTask)
  | requestDpc (task : DpcTask)
  | pro (calls : Calls Image)
  | dpc (calls : Calls Image)
  | flushTick

section Definitions
variable {Image : Type u}

def fsAppendSync (fs : FsServer Image) : FsServer Image :=
  { fs with countOverwritten := fs.countOverwritten + 1 }

/-- The result of `fs_sync`: the server after it, the answer, and whether an
fsync request follows. -/
structure SyncResult (Image : Type u) where
  fs : FsServer Image
  status : Status
  appendFsync : Bool

def fsSync (fs : FsServer Image) : SyncResult Image :=
  if fs.permitOverride = 0 then ⟨fs, .fatal, false⟩
  else if fs.countOverwritten = 0 then ⟨fs, .ok, false⟩
  else ⟨{ fs with config := fs.cache }, .ok, true⟩

/-- The admission of an fsync request in `pro_set_handler`: the new counter, and
whether the request got the DPC thread as its worker. -/
def proSetHandlerFsync (pendingFsync : Int) : Int × Bool :=
  if pendingFsync + 1 > 1 then (pendingFsync + 1 - 1, false) else (pendingFsync + 1, true)

def proCompleteFsync (pendingFsync : Int) : Int := pendingFsync - 1

/-- The queueing half of `pro_receive_data`; a task that finds the queue full is dropped. -/
def enqueue {Task : Type} (queue : List Task) (task : Task) : List Task :=
  if queue.length < maxPendingTask then queue ++ [task] else queue

def proAppendFsync (s : State Image) : State Image :=
  match proSetHandlerFsync s.pendingFsync with
  | (pending, true) => { s with pendingFsync := pending, dpc := enqueue s.dpc .fsync }
  | (pending, false) => { s with pendingFsync := pending }

def fsSwapDatabase (calls : Calls Image) (disk : Disk Image) : Disk Image :=
  if (List.range 3).any calls.rename then
    Function.update (Function.update disk configDb (disk configSwap)) configSwap none
  else disk

/-- `fs_load_config_database`. A database file that is missing or of another size
is first overwritten by `fs_zerolization_range`, whose buffer is fresh heap memory. A read
that stops early is no failure. -/
def fsLoadConfigDatabase [LayoutImage Image] (calls : Calls Image) (fs : FsServer Image)
    (disk : Disk Image) : Option (FsServer Image) × Disk Image :=
  if calls.fileOpen then
    let disk := if (disk configDb).isNone && calls.fileWrite then
      Function.update disk configDb (some calls.heap) else disk
    match (disk configDb).or calls.shortRead with
    | none => (none, disk)
    | some image =>
      if calls.fileRead then
        (some { fs with config := LayoutImage.updateSeq image }, disk)
      else (none, disk)
  else (none, disk)

def fsLoadConfigCache (fs : FsServer Image) : FsServer Image :=
  { fs with cache := fs.config }

def proRecoverCheckpoint [LayoutImage Image] (calls : Calls Image) (s : State Image) :
    State Image :=
  let loaded := fsLoadConfigDatabase calls s.fs s.disk
  let fs := match loaded.1 with
    | none => s.fs
    | some fs => fsLoadConfigCache fs
  { s with fs := { fs with permitOverride := 1 }, disk := loaded.2 }

/-- `fs_clear_config` and the counting of the change by `pro_rmdir`. -/
def proRemoveRoot [LayoutImage Image] (s : State Image) : State Image :=
  { s with
    fs := fsAppendSync { s.fs with cache := LayoutImage.zero, config := LayoutImage.zero }
    disk := Function.update s.disk configDb none }

/-- One task of the PRO thread, executed as a whole. -/
def proExecuteTask [LayoutImage Image] (calls : Calls Image) (s : State Image) :
    ProTask → State Image
  | .write => match calls.written with
    | none => s
    | some image => { s with fs := fsAppendSync { s.fs with cache := image } }
  | .removeRoot => proRemoveRoot s
  | .sync =>
    let result := fsSync s.fs
    if result.appendFsync then
      proAppendFsync { s with fs := result.fs, copied := some result.fs.config }
    else { s with fs := result.fs }
  | .recover2 => proRecoverCheckpoint calls s
  | .other => s

def dpcBegin : DpcTask → DpcRun Image
  | .fsync => .fsync .start
  | .checkpoint file => .checkpoint file none
  | .recover file => .recover file .start
  | .other => .idle

/-- The write phase of `fs_fsync`: open, write and flush the swap file. -/
def Calls.swapWritten (calls : Calls Image) : Bool :=
  calls.fileOpen && calls.fileWrite && calls.fileFlush

/-- The rest of `fs_fsync` from each of its points. Only the last one gives the
counter back; every early return leaves it as it is. -/
def fsFsync (calls : Calls Image) (s : State Image) : FsyncPc Image → State Image
  | .start =>
    if s.fs.permitOverride = 0 then { s with dpcRun := .idle }
    else { s with dpcRun := .fsync .allowed }
  | .allowed =>
    if calls.malloc then { s with dpcRun := .fsync (.copied s.fs.config) }
    else { s with dpcRun := .idle }
  | .copied buffer =>
    if calls.swapWritten then
      { s with disk := Function.update s.disk configSwap (some buffer),
               dpcRun := .fsync .written }
    else { s with disk := Function.update s.disk configSwap none, dpcRun := .idle }
  | .written => { s with disk := fsSwapDatabase calls s.disk, dpcRun := .fsync .renamed }
  | .renamed =>
    { s with pendingFsync := proCompleteFsync s.pendingFsync, dpcRun := .idle }

def fsCreateCheckpoint (calls : Calls Image) (s : State Image) (file : String) :
    Option Image → State Image
  | none =>
    if calls.malloc then { s with dpcRun := .checkpoint file (some s.fs.config) }
    else { s with dpcRun := .idle }
  | some buffer =>
    if calls.fileOpen && (s.disk file).isNone && calls.fileWrite then
      { s with disk := Function.update s.disk file (some buffer), dpcRun := .idle }
    else { s with dpcRun := .idle }

/-- Opening the swap file truncates it, so a checkpoint of that name is read back
as whatever the buffer held. -/
def fsRecoverCheckpoint (calls : Calls Image) (s : State Image) (file : String) :
    RecoverPc → State Image
  | .start =>
    { s with fs := { s.fs with permitOverride := 0 }, dpcRun := .recover file .disabled }
  | .disabled =>
    match s.disk file with
    | some image =>
      if calls.fileOpen && calls.malloc && calls.swapOpen && calls.fileRead
          && calls.fileWrite then
        let image := if file = configSwap then calls.heap else image
        { s with disk := Function.update s.disk configSwap (some image),
                 dpcRun := .recover file .written }
      else
        { s with fs := { s.fs with permitOverride := 1 },
                 disk := Function.update s.disk configSwap none, dpcRun := .idle }
    | none =>
      { s with fs := { s.fs with permitOverride := 1 },
               disk := Function.update s.disk configSwap none, dpcRun := .idle }
  | .written => { s with disk := fsSwapDatabase calls s.disk, dpcRun := .recover file .renamed }
  | .renamed => { s with pro := enqueue s.pro .recover2, dpcRun := .idle }

/-- One step of the DPC thread; `none` when it has nothing to do. -/
def dpcStep (calls : Calls Image) (s : State Image) : Option (State Image) :=
  match s.dpcRun with
  | .idle => match s.dpc with
    | [] => none
    | task :: rest => some { s with dpc := rest, dpcRun := dpcBegin task }
  | .fsync pc => some (fsFsync calls s pc)
  | .checkpoint file buffer => some (fsCreateCheckpoint calls s file buffer)
  | .recover file pc => some (fsRecoverCheckpoint calls s file pc)

/-- One period of `fs_flush_check`. -/
def fsFlushCheck (s : State Image) : State Image :=
  let writes := s.writes + s.fs.countOverwritten.toInt
  let seconds := s.seconds + 1
  let s :=
    { s with fs := { s.fs with countOverwritten := 0 }, writes := writes, seconds := seconds }
  if writes = 0 ∨ seconds < 60 then s
  else if (10000 ≤ writes ∧ 60 ≤ seconds) ∨ 900 ≤ seconds ∨ (300 ≤ seconds ∧ 10 ≤ writes) then
    { s with pro := enqueue s.pro .sync, writes := 0, seconds := 0 }
  else s

/-- A client cannot ask for an fsync: `pro_set_handler` refuses the title on a link. -/
def requestDpc (s : State Image) : DpcTask → State Image
  | .fsync => s
  | task => { s with dpc := enqueue s.dpc task }

def step [LayoutImage Image] (s : State Image) : Act Image → Option (State Image)
  | .requestPro task => some { s with pro := enqueue s.pro task }
  | .requestDpc task => some (requestDpc s task)
  | .pro calls => match s.pro with
    | [] => none
    | task :: rest => some (proExecuteTask calls { s with pro := rest } task)
  | .dpc calls => dpcStep calls s
  | .flushTick => some (fsFlushCheck s)

/-- The state after start-up: cache and config agree, nothing is queued. -/
structure Booted (s : State Image) : Prop where
  cacheLoaded : s.fs.config = s.fs.cache
  notCounted : s.fs.countOverwritten = 0
  permitted : s.fs.permitOverride = 1
  noPending : s.pendingFsync = 0
  noPro : s.pro = []
  noDpc : s.dpc = []
  idle : s.dpcRun = .idle
  notCopied : s.copied = none

/-- The number of fsync tasks that are queued or executing. -/
def outstanding (s : State Image) : Nat :=
  s.dpc.count .fsync + match s.dpcRun with
    | .fsync _ => 1
    | _ => 0

/-- Start-up on a fs directory whose database holds `image`. -/
def bootState (image : Image) : State Image where
  fs := { cache := image, config := image, countOverwritten := 0, permitOverride := 1 }
  disk := fun file => if file = configDb then some image else none
  pendingFsync := 0
  pro := []
  dpc := []
  dpcRun := .idle
  writes := 0
  seconds := 0
  copied := none

theorem bootState_booted (image : Image) : Booted (bootState image) := by
  constructor <;> rfl

/-- Every call succeeds, and the write request of the step leaves `image`. -/
def callsOk (image : Image) : Calls Image where
  malloc := true
  fileOpen := true
  swapOpen := true
  fileRead := true
  fileWrite := true
  fileFlush := true
  rename := fun _ => true
  heap := image
  shortRead := none
  written := some image

end Definitions

/-- One-bit images, enough for the runs that tell two images apart. -/
instance : LayoutImage Bool where
  updateSeq := id
  zero := false

end SyncProtocol
