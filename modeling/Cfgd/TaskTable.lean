import Cfgd.Handlers
import Cfgd.SyncProtocol

/-!
# From a request to a task

`pro_receive_data` allocates a task, lets `pro_set_handler` choose its handler and its
worker by the title, and queues it; a task that is refused anywhere on the way is
completed with `fatal`. The internal stages come in through the same function, called
by `pro_append_request`.
-/

namespace TaskTable

open CText Request Payload Response Handlers Exchange

/-- The threads that execute tasks. -/
inductive Worker where
  | pro
  | dpc
  deriving DecidableEq, Repr

/-- Where a request comes from: a link, a thread of the server, or a call of a handler,
which is known by its number among all calls. -/
inductive Cause where
  | client
  | thread
  | call (number : Nat)
  deriving DecidableEq, Repr

/-- History variables. `ticket` is the number of a request among those that were counted
in the window of their link. `asked` is the payload of the request that was queued first
when one request takes two tasks. -/
structure History where
  ticket : Option Nat
  cause : Cause
  asked : Option (List Jrp)
  deriving DecidableEq, Repr

/-- The arguments of `pro_receive_data`, and the worker that calls it, if it is one. There
is no link where the source has `INVALID_HTCPLINK`. -/
structure Request where
  caller : Option Worker
  link : Option Nat
  title : Bytes
  option : Option Bytes
  payload : Option Bytes
  history : History
  deriving DecidableEq, Repr

structure Task where
  link : Option Nat
  title : Bytes
  dupopt : Bytes
  options : List Jrp
  payload : List Jrp
  handler : Option Handler
  worker : Option Worker
  history : History
  deriving DecidableEq, Repr

/-- A segment that was asked about, and what a call appended for it. -/
abbrev Answered := Option Jrp × List Status

/-- What `jnet_write_response` gets: the bytes of `reply` for the link. -/
structure Response where
  caller : Option Worker
  link : Nat
  reply : Reply
  history : History
  answers : List Answered
  deriving DecidableEq, Repr

section Table

/-- How many requests a payload may have. -/
inductive Size where
  | any
  | zero
  | one
  | several
  deriving DecidableEq, Repr

def Size.accepts : Size → Nat → Bool
  | .any, _ => true
  | .zero, n => n = 0
  | .one, n => n = 1
  | .several, n => 0 < n

/-- One comparison of `pro_set_handler`. -/
structure Command where
  title : Bytes
  handler : Option Handler
  worker : Worker
  size : Size

def contain : Bytes := ofChars ['c', 'o', 'n', 't', 'a', 'i', 'n']
def checkpoint : Bytes := ofChars ['c', 'h', 'e', 'c', 'k', 'p', 'o', 'i', 'n', 't']
def file : Bytes := ofChars ['f', 'i', 'l', 'e']
def fsync : Bytes := ofChars ['f', 's', 'y', 'n', 'c']
def keepalive : Bytes := ofChars ['k', 'e', 'e', 'p', 'a', 'l', 'i', 'v', 'e']
def mkdir : Bytes := ofChars ['m', 'k', 'd', 'i', 'r']
def rbin : Bytes := ofChars ['r', 'b', 'i', 'n']
def read : Bytes := ofChars ['r', 'e', 'a', 'd']
def recover : Bytes := ofChars ['r', 'e', 'c', 'o', 'v', 'e', 'r']
def recover2 : Bytes := ofChars ['r', 'e', 'c', 'o', 'v', 'e', 'r', '2']
def rmdir : Bytes := ofChars ['r', 'm', 'd', 'i', 'r']
def scope : Bytes := ofChars ['s', 'c', 'o', 'p', 'e']
def subscribe : Bytes := ofChars ['s', 'u', 'b', 's', 'c', 'r', 'i', 'b', 'e']
def sync : Bytes := ofChars ['s', 'y', 'n', 'c']
def unsubscribe : Bytes := ofChars ['u', 'n', 's', 'u', 'b', 's', 'c', 'r', 'i', 'b', 'e']
def version : Bytes := ofChars ['v', 'e', 'r', 's', 'i', 'o', 'n']
def wbin : Bytes := ofChars ['w', 'b', 'i', 'n']
def write : Bytes := ofChars ['w', 'r', 'i', 't', 'e']

/-- The comparisons in their order, but for `fsync`, which is admitted in its own way. -/
def commands : List Command :=
  [⟨contain, some .proVariableContain, .pro, .several⟩,
    ⟨checkpoint, some .proCreateCheckpoint, .dpc, .zero⟩,
    ⟨file, some .proVariableReadFile, .pro, .several⟩,
    ⟨keepalive, none, .pro, .any⟩,
    ⟨mkdir, some .proMkdir, .pro, .several⟩,
    ⟨rbin, some .proBinaryRead, .dpc, .zero⟩,
    ⟨read, some .proVairableRead, .pro, .several⟩,
    ⟨recover, some .fsRecoverCheckpoint, .dpc, .one⟩,
    ⟨recover2, some .proRecoverCheckpoint, .pro, .any⟩,
    ⟨rmdir, some .proRmdir, .pro, .several⟩,
    ⟨scope, some .proVariableScope, .pro, .several⟩,
    ⟨subscribe, some .jnetSubscribe, .pro, .several⟩,
    ⟨sync, some .fsSync, .pro, .zero⟩,
    ⟨unsubscribe, some .jnetUnsubscribe, .pro, .several⟩,
    ⟨version, some .proQueryVersion, .pro, .zero⟩,
    ⟨wbin, some .proBinaryWrite, .dpc, .one⟩,
    ⟨write, some .proVariableWrite, .pro, .several⟩]

/-- The counter of pending fsync requests, the task as it is now, and whether it was
accepted. -/
structure Allocated where
  pendingFsync : Int
  task : Task
  accepted : Bool

def proSetHandler (pendingFsync : Int) (task : Task) : Allocated :=
  if task.title.length < 3 then ⟨pendingFsync, task, false⟩
  else if task.title = fsync then
    if task.payload.length ≠ 0 ∨ task.link ≠ none then ⟨pendingFsync, task, false⟩
    else
      let (pendingFsync, admitted) := SyncProtocol.proSetHandlerFsync pendingFsync
      if admitted then
        ⟨pendingFsync, { task with handler := some .fsFsync, worker := some .dpc }, true⟩
      else ⟨pendingFsync, task, false⟩
  else match commands.find? (fun command => command.title = task.title) with
    | none => ⟨pendingFsync, task, false⟩
    | some command =>
      if command.size.accepts task.payload.length then
        -- the title of a response is the one that the client knows
        let title := if task.title = recover2 then recover else task.title
        ⟨pendingFsync, { task with
          title := title, handler := command.handler, worker := some command.worker }, true⟩
      else ⟨pendingFsync, task, false⟩

end Table

section Allocation

/-- `rt_init_jrp`: a request without a key. -/
def tempJrp : Jrp := ⟨[], none, [], []⟩

/-- `pro_build_binary_jrp`: the whole payload is the value. -/
def binaryJrp (payload : Bytes) : Jrp := ⟨[], some payload, [], []⟩

/-- The list of requests in a text, if `rt_effective_strptr` holds of it. -/
def buildEffective (text : Bytes) : Int × List Jrp :=
  if text = [] then (0, []) else rtBuildJrp (cString text)

def proAllocateTask (pendingFsync : Int) (r : Request) : Allocated :=
  let option := r.option.getD []
  let task : Task := ⟨r.link, r.title, cString option, [], [], none, none, r.history⟩
  let options := buildEffective option
  if options.1 < 0 then ⟨pendingFsync, task, false⟩
  else
    let task := { task with options := options.2 }
    if r.title = wbin then match r.payload with
      | none => ⟨pendingFsync, task, false⟩
      | some payload => proSetHandler pendingFsync { task with payload := [binaryJrp payload] }
    else
      let built := buildEffective (r.payload.getD [])
      if built.1 < 0 then ⟨pendingFsync, task, false⟩
      else proSetHandler pendingFsync { task with payload := built.2 }

end Allocation

section Completion

/-- `MAX_REP_SIZE`. -/
def maxRepSize : Nat := maxTitleSize + maxOptSize + 16 + 4

/-- The segment of the request that the call with this number is about. -/
def History.segment (history : History) (number : Nat) : Option Jrp :=
  (history.asked.getD [])[number]?

/-- What `pro_complete_task` writes with the status `fatal`. -/
def faultReply (title dupopt : Bytes) : Reply :=
  .text (title ++ crlf) ::
    ((if dupopt = [] then [] else [.text (dupopt ++ jessReqDubEnd)]) ++ [.status .fatal])

def proCompleteTaskAsFault (caller : Option Worker) (task : Task) : Option Response :=
  match task.link with
  | none => none
  | some link =>
    let reply := faultReply task.title task.dupopt
    if maxRepSize ≤ offset reply then none
    else some ⟨caller, link, reply, task.history, [(task.history.segment 0, [.fatal])]⟩

/-- History: the payload that is asked about, once the task is queued. -/
def Task.asking (task : Task) : Task :=
  { task with history :=
    { task.history with asked := some (task.history.asked.getD task.payload) } }

/-- The two ends of `pro_receive_data`. -/
inductive Receipt where
  | queued (worker : Worker) (task : Task)
  | completed (response : Option Response)

/-- `waiting` tells how many tasks wait for each worker. -/
def proReceiveData (pendingFsync : Int) (waiting : Worker → Nat) (r : Request) : Int × Receipt :=
  let allocated := proAllocateTask pendingFsync r
  let task := allocated.task
  let fault := Receipt.completed (proCompleteTaskAsFault r.caller task)
  if ¬ allocated.accepted then (allocated.pendingFsync, fault)
  else match task.worker with
    | none => (allocated.pendingFsync, fault)
    | some worker =>
      if waiting worker < SyncProtocol.maxPendingTask then
        (allocated.pendingFsync, .queued worker task.asking)
      else (allocated.pendingFsync, fault)

/-- The request that `pro_append_request` makes, with the link and the options of a task
if it is given one. -/
def proAppendRequest (caller : Option Worker) (title : Bytes) (task : Option Task)
    (payload : Option Bytes) (history : History) : Option Request :=
  if maxTitleSize ≤ title.length then none
  else if task.any (fun task => maxOptSize ≤ task.dupopt.length) then none
  else if payload.any (fun payload => maxPayloadSize ≤ payload.length) then none
  else some ⟨caller, task.bind Task.link, title, task.map Task.dupopt, payload, history⟩

end Completion

section Execution

/-- A task in the hands of its worker: the requests still to be handled, the response so
far, and what was appended for each segment. -/
structure Execution where
  task : Task
  todo : List Jrp
  reply : Reply
  answers : List Answered

/-- `pro_execute_task` up to the first call of a handler. A task without a handler is
answered right away, once. -/
def proExecuteTask (task : Task) : Execution :=
  let head := responseHead task.title task.dupopt
  match task.handler, task.payload with
  | some _, [] => ⟨task, [tempJrp], head, []⟩
  | some _, payload => ⟨task, payload, head, []⟩
  | none, [] => ⟨task, [], answer head .ok, [(task.history.segment 0, [.ok])]⟩
  | none, _ => ⟨task, [], answer head .fatal, [(task.history.segment 0, [.fatal])]⟩

/-- The state of the task after a call, and the request that the call appended. -/
structure Called where
  execution : Execution
  appended : Option Request

/-- An execution after the call that left `reply`, with what was appended for the segment. -/
def Execution.next (e : Execution) (reply : Reply) : Execution :=
  ⟨e.task, e.todo.tail, reply, e.answers ++
    [(e.task.history.segment e.answers.length, statuses (reply.drop e.reply.length))]⟩

/-- One call of the handler. `number` is the number of the call among all of them. A
recovery that goes on in another task takes the link along. -/
def callHandler (worker : Worker) (number : Nat) (e : Execution) (handled : Handled) : Called :=
  let e' := e.next handled.reply
  match handled.effect with
  | .nothing => ⟨e', none⟩
  | .completeFsync => ⟨e', none⟩
  | .appendFsync =>
    ⟨e', proAppendRequest (some worker) fsync none none ⟨none, .call number, none⟩⟩
  | .appendRecover _ =>
    ⟨{ e' with task := { e.task with link := none } },
      proAppendRequest (some worker) recover2 (some e.task) (some (ofChars ['/']))
        { e.task.history with cause := .call number }⟩

/-- A task without a link is not answered. -/
def proSendResponse (worker : Worker) (e : Execution) : Option Response :=
  match e.task.link with
  | none => none
  | some link =>
    if 0 < offset e.reply then
      some ⟨some worker, link, e.reply, e.task.history, e.answers⟩
    else none

end Execution

section Choice

/-- How `pro_set_handler` chooses: an fsync request only without a link, any other by its
title and the size of its payload. -/
inductive Chosen (task : Task) : Option Handler → Worker → Prop where
  | fsync (title : task.title = TaskTable.fsync) (own : task.link = none)
      (empty : task.payload = []) : Chosen task (some .fsFsync) .dpc
  | command (c : Command) (mem : c ∈ commands) (title : task.title = c.title)
      (size : c.size.accepts task.payload.length = true) : Chosen task c.handler c.worker

/-- What allocation leaves of a task: only the title may have been replaced. -/
structure Kept (task task' : Task) : Prop where
  link : task'.link = task.link
  dupopt : task'.dupopt = task.dupopt
  payload : task'.payload = task.payload
  history : task'.history = task.history
  title : task'.title = task.title ∨ task'.title = recover

theorem Kept.refl (task : Task) : Kept task task := ⟨rfl, rfl, rfl, rfl, Or.inl rfl⟩

/-- A task is refused as it is, or it gets the handler that was chosen. -/
structure Handed (task : Task) (allocated : Allocated) : Prop where
  kept : Kept task allocated.task
  chosen : allocated.accepted = true → ∃ worker, allocated.task.worker = some worker ∧
    Chosen task allocated.task.handler worker

theorem handed_refused (pendingFsync : Int) (task : Task) :
    Handed task ⟨pendingFsync, task, false⟩ :=
  ⟨Kept.refl task, fun accepted => Bool.noConfusion accepted⟩

theorem proSetHandler_handed (pendingFsync : Int) (task : Task) :
    Handed task (proSetHandler pendingFsync task) := by
  rw [proSetHandler]
  split
  · exact handed_refused _ task
  · split
    · rename_i title
      split
      · exact handed_refused _ task
      · rename_i own
        obtain ⟨empty, own⟩ := not_or.mp own
        dsimp only
        split
        · refine ⟨⟨rfl, rfl, rfl, rfl, Or.inl rfl⟩, fun _ => ⟨.dpc, rfl, ?_⟩⟩
          exact .fsync title (not_not.mp own) (List.length_eq_zero_iff.mp (not_not.mp empty))
        · exact handed_refused _ task
    · split
      · exact handed_refused _ task
      · rename_i command found
        split
        · rename_i size
          refine ⟨⟨rfl, rfl, rfl, rfl, ?_⟩, fun _ => ⟨command.worker, rfl, ?_⟩⟩
          · dsimp only
            split
            · exact Or.inr rfl
            · exact Or.inl rfl
          · have title : command.title = task.title := by simpa using List.find?_some found
            exact .command command (List.mem_of_find?_eq_some found) title.symm size
        · exact handed_refused _ task

/-- The task that stands for a request before its handler is chosen. -/
structure Stands (r : Request) (task : Task) : Prop where
  link : task.link = r.link
  title : task.title = r.title
  dupopt : task.dupopt = cString (r.option.getD [])
  history : task.history = r.history
  size : task.payload.length ≤ max 1 (buildEffective (r.payload.getD [])).2.length

theorem proAllocateTask_handed (pendingFsync : Int) (r : Request) :
    ∃ task, Stands r task ∧ Handed task (proAllocateTask pendingFsync r) := by
  rw [proAllocateTask]
  dsimp only
  split
  · exact ⟨_, ⟨rfl, rfl, rfl, rfl, Nat.zero_le _⟩, handed_refused _ _⟩
  · split
    · split
      · exact ⟨_, ⟨rfl, rfl, rfl, rfl, Nat.zero_le _⟩, handed_refused _ _⟩
      · exact ⟨_, ⟨rfl, rfl, rfl, rfl, Nat.le_max_left 1 _⟩, proSetHandler_handed _ _⟩
    · split
      · exact ⟨_, ⟨rfl, rfl, rfl, rfl, Nat.zero_le _⟩, handed_refused _ _⟩
      · exact ⟨_, ⟨rfl, rfl, rfl, rfl, Nat.le_max_right 1 _⟩, proSetHandler_handed _ _⟩

end Choice

section Receipts

/-- What becomes of a request: its task is queued for the worker that was chosen, or it
is answered with `fatal`, if it has a link. -/
theorem proReceiveData_cases {pendingFsync : Int} {waiting : Worker → Nat} {r : Request}
    {receipt : Receipt} (h : (proReceiveData pendingFsync waiting r).2 = receipt) :
    ∃ task task', Stands r task ∧ Kept task task' ∧
      ((receipt = .completed (proCompleteTaskAsFault r.caller task')) ∨
        ∃ worker, Chosen task task'.handler worker ∧ receipt = .queued worker task'.asking) := by
  obtain ⟨task, stands, kept, chosen⟩ := proAllocateTask_handed pendingFsync r
  refine ⟨task, _, stands, kept, ?_⟩
  rw [proReceiveData] at h
  split at h
  · exact Or.inl h.symm
  · rename_i accepted
    obtain ⟨worker, worker_eq, chose⟩ := chosen (not_not.mp accepted)
    rw [worker_eq] at h
    dsimp only at h
    split at h
    · exact Or.inr ⟨worker, chose, h.symm⟩
    · exact Or.inl h.symm

theorem proAppendRequest_some {caller : Option Worker} {title : Bytes} {task : Option Task}
    {payload : Option Bytes} {history : History} {r : Request}
    (h : proAppendRequest caller title task payload history = some r) :
    r = ⟨caller, task.bind Task.link, title, task.map Task.dupopt, payload, history⟩ := by
  rw [proAppendRequest] at h
  split at h
  · cases h
  · split at h
    · cases h
    · split at h
      · cases h
      · exact (Option.some.inj h).symm

end Receipts

end TaskTable
