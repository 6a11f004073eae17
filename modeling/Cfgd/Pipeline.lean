import Cfgd.SendPath
import Cfgd.TaskTable
import Cfgd.Transition
import Mathlib.Algebra.BigOperators.Group.Multiset.Basic
import Mathlib.Algebra.Order.Group.Multiset
import Mathlib.Data.Multiset.Basic
import Mathlib.Logic.Function.Basic
import Mathlib.Tactic.Abel

/-!
# The machine of requests, tasks and responses

A request comes in over a link or from the server itself, waits in a queue, is executed
by one of the two workers and is answered. Between any two of these steps other threads
may do theirs. Every request, task and response that is under way is an item of the
machine, and one step turns one item into others.
-/

namespace Pipeline

open CText Request Response Handlers TaskTable Exchange Transition
open SendPath (TxFifo Txn)

/-- `MAX_LINK_WINDOW`. -/
def maxLinkWindow : Int := 20

/-- One call of a handler, as history. -/
structure Call where
  handler : Handler
  cause : Cause
  effect : Effect
  deriving DecidableEq, Repr

/-- `window` is `node->window` of the links that are open. `receiving` holds the calls of
`pro_receive_data` under way, `responding` the calls of `jnet_write_response` and
`writing` those of them that are past the window, together with the answers for a full
window. `fifo` is the send queue of each link. `used`, `counted`, `frames`, `refused` and
`calls` are history: the links there ever were, the link of every request that was counted,
the responses that `tcp_write` took and those that it did not take, and every call of a
handler. -/
structure State where
  window : Nat → Option Int
  receiving : List Request
  queue : Worker → List Task
  running : Worker → Option Execution
  responding : List Response
  writing : List Response
  fifo : Nat → TxFifo
  pendingFsync : Int
  used : List Nat
  counted : List Nat
  frames : List Response
  refused : List Response
  calls : List Call

/-- `post` is a packet that is no response, such as a `publish`; `pop` is the write pool. -/
inductive Act where
  | accept (link : Nat)
  | close (link : Nat)
  | arrive (link : Nat) (data : Bytes)
  | flush
  | setProperty (text : Bytes)
  | receive (i : Nat)
  | take (worker : Worker)
  | handle (worker : Worker) (calls : Callees)
  | finish (worker : Worker)
  | respond (i : Nat)
  | write (i : Nat) (txn : Txn)
  | post (link : Nat) (txn : Txn)
  | pop (link : Nat)

/-- The steps that work on what is there already. -/
def Act.proceeds : Act → Bool
  | .receive _ => true
  | .take _ => true
  | .handle _ _ => true
  | .finish _ => true
  | .respond _ => true
  | .write _ _ => true
  | _ => false

section Definitions

/-- What `jnet_simple_complete_request` writes. An option that is there is written even
when it is empty. -/
def fullWindowReply (head : ReqHead) : Reply :=
  .text (head.title ++ crlf) ::
    ((match head.option with
      | none => []
      | some option => [.text (option ++ jessReqDubEnd)]) ++ [.status .fatal])

/-- The request of a client; an empty payload is none. -/
def linkRequest (link : Nat) (head : ReqHead) (ticket : Nat) : Request :=
  ⟨none, some link, head.title, head.option,
    if head.payload = [] then none else some head.payload, ⟨some ticket, .client, none⟩⟩

/-- `jnet_on_receive_data` on a link with the window `w`. -/
def jnetOnReceiveData (s : State) (link : Nat) (w : Int) (data : Bytes) : State :=
  if data = [] ∨ maxReqSize < data.length then
    { s with window := Function.update s.window link none }
  else match rtAnalyzeReqHead data with
    | none => s
    | some head =>
      if maxLinkWindow ≤ w then
        { s with writing :=
            s.writing ++ [⟨none, link, fullWindowReply head, ⟨none, .client, none⟩, []⟩] }
      else
        { s with
          window := Function.update s.window link (some (w + 1))
          receiving := s.receiving ++ [linkRequest link head s.counted.length]
          counted := s.counted ++ [link] }

/-- A worker that called `pro_receive_data` or `jnet_write_response` waits for it. -/
def Busy (s : State) (worker : Worker) : Prop :=
  (∃ r ∈ s.receiving, r.caller = some worker) ∨
    (∃ r ∈ s.responding, r.caller = some worker) ∨ ∃ r ∈ s.writing, r.caller = some worker

instance (s : State) (worker : Worker) : Decidable (Busy s worker) :=
  inferInstanceAs (Decidable (_ ∨ _))

/-- A request that a thread of the server appends. -/
def appendRequest (s : State) (request : Option Request) : State :=
  { s with receiving := s.receiving ++ request.toList }

def receiveStep (s : State) (i : Nat) (r : Request) : State :=
  let received := proReceiveData s.pendingFsync (fun worker => (s.queue worker).length) r
  let s := { s with receiving := s.receiving.eraseIdx i, pendingFsync := received.1 }
  match received.2 with
  | .queued worker task =>
    { s with queue := Function.update s.queue worker (s.queue worker ++ [task]) }
  | .completed response => { s with responding := s.responding ++ response.toList }

def takeStep (s : State) (worker : Worker) (task : Task) (rest : List Task) : State :=
  { s with
    queue := Function.update s.queue worker rest
    running := Function.update s.running worker (some (proExecuteTask task)) }

def handleStep (s : State) (worker : Worker) (e : Execution) (handler : Handler)
    (handled : Handled) : State :=
  let called := callHandler worker s.calls.length e handled
  { appendRequest s called.appended with
    running := Function.update s.running worker (some called.execution)
    pendingFsync := if handled.effect = .completeFsync then
      SyncProtocol.proCompleteFsync s.pendingFsync else s.pendingFsync
    calls := s.calls ++ [⟨handler, e.task.history.cause, handled.effect⟩] }

def finishStep (s : State) (worker : Worker) (e : Execution) : State :=
  { s with
    running := Function.update s.running worker none
    responding := s.responding ++ (proSendResponse worker e).toList }

/-- The first half of `jnet_write_response`, which fails when the link has no context. -/
def respondStep (s : State) (i : Nat) (r : Response) : State :=
  let s := { s with responding := s.responding.eraseIdx i }
  match s.window r.link with
  | none => s
  | some w => { s with
      window := Function.update s.window r.link (some (w - 1)), writing := s.writing ++ [r] }

/-- The second half. A packet that `tcp_write` does not take is gone. -/
def writeStep (s : State) (i : Nat) (r : Response) (txn : Txn) : State :=
  let s := { s with writing := s.writing.eraseIdx i }
  if s.window r.link = none then s
  else match SendPath.tcpWrite (s.fifo r.link) txn with
    | none => { s with refused := s.refused ++ [r] }
    | some fifo => { s with
        fifo := Function.update s.fifo r.link fifo, frames := s.frames ++ [r] }

/-- A packet that is no response goes the same way. -/
def postStep (s : State) (link : Nat) (txn : Txn) : State :=
  let fifo := (SendPath.tcpWrite (s.fifo link) txn).getD (s.fifo link)
  { s with fifo := Function.update s.fifo link fifo }

def popStep (s : State) (link : Nat) : State :=
  { s with fifo := Function.update s.fifo link (s.fifo link).pop }

/-- A handle is given out once. -/
def step (s : State) : Act → Option State
  | .accept link =>
    if link ∈ s.used then none
    else some { s with
      window := Function.update s.window link (some 0)
      fifo := Function.update s.fifo link .init
      used := link :: s.used }
  | .close link => (s.window link).map fun _ =>
    { s with window := Function.update s.window link none }
  | .arrive link data => (s.window link).map fun w => jnetOnReceiveData s link w data
  | .flush => some (appendRequest s
      (proAppendRequest none TaskTable.sync none none ⟨none, .thread, none⟩))
  | .setProperty text => some (appendRequest s
      (proAppendRequest none TaskTable.write none (some text) ⟨none, .thread, none⟩))
  | .receive i => s.receiving[i]?.map (receiveStep s i)
  | .take worker =>
    match s.running worker, s.queue worker with
    | none, task :: rest =>
      if Busy s worker then none
      else some (takeStep s worker task rest)
    | _, _ => none
  | .handle worker calls =>
    match s.running worker with
    | none => none
    | some e => match e.task.handler, e.todo with
      | some handler, jrp :: _ =>
        if Busy s worker then none
        else some (handleStep s worker e handler
          (handler.call calls e.task.options jrp e.reply))
      | _, _ => none
  | .finish worker =>
    match s.running worker with
    | none => none
    | some e => if e.todo ≠ [] ∨ Busy s worker then none else some (finishStep s worker e)
  | .respond i => s.responding[i]?.map (respondStep s i)
  | .write i txn => s.writing[i]?.map fun r => writeStep s i r txn
  | .post link txn => (s.window link).map fun _ => postStep s link txn
  | .pop link => (s.window link).bind fun _ =>
    if (s.fifo link).size = 0 then none else some (popStep s link)

/-- A server that nobody is connected to. -/
def start : State where
  window := fun _ => none
  receiving := []
  queue := fun _ => []
  running := fun _ => none
  responding := []
  writing := []
  fifo := fun _ => .init
  pendingFsync := 0
  used := []
  counted := []
  frames := []
  refused := []
  calls := []

/-- A request of a client, taken through to its response by one worker. -/
def served (data : Bytes) (worker : Worker) (calls : List Callees) : List Act :=
  [.accept 1, .arrive 1 data, .receive 0, .take worker] ++ calls.map (.handle worker) ++
    [.finish worker]

end Definitions

/-! ## Items -/

/-- What is under way, and what was written. -/
inductive Item where
  | receiving (r : Request)
  | queued (worker : Worker) (task : Task)
  | running (worker : Worker) (e : Execution)
  | responding (r : Response)
  | writing (r : Response)
  | sent (r : Response)
  | refused (r : Response)

/-- The items of a worker, and the rest of them. -/
def workerItems (s : State) (worker : Worker) : Multiset Item :=
  ((s.queue worker).map (Item.queued worker) : Multiset Item) +
    ((s.running worker).toList.map (Item.running worker) : Multiset Item)

/-- The items of the lists, with `workers` for those of the workers. -/
def collected (receiving : List Request) (workers : Multiset Item)
    (responding writing frames refused : List Response) : Multiset Item :=
  (receiving.map Item.receiving : Multiset Item) + workers +
    (responding.map Item.responding : Multiset Item) + (writing.map Item.writing : Multiset Item) +
    (frames.map Item.sent : Multiset Item) + (refused.map Item.refused : Multiset Item)

def items (s : State) : Multiset Item :=
  collected s.receiving (workerItems s .pro + workerItems s .dpc) s.responding s.writing s.frames
    s.refused

/-- The call of a handler in the state `s`. -/
def calledBy (s : State) (worker : Worker) (calls : Callees) (e : Execution) (handler : Handler)
    (jrp : Jrp) : Called :=
  callHandler worker s.calls.length e (handler.call calls e.task.options jrp e.reply)

/-- What a step writes down, besides moving items. -/
structure Ledger where
  window : Nat → Option Int
  used : List Nat
  counted : List Nat
  calls : List Call

def ledger (s : State) : Ledger := ⟨s.window, s.used, s.counted, s.calls⟩

/-- What a step does to the items: it takes the first ones and gives the second ones. The
ledger is the one after the step. -/
inductive Turn (s : State) : Act → Multiset Item → Multiset Item → Ledger → Prop where
  | stay (a : Act) (outside : a.proceeds = false) : Turn s a 0 0 (ledger s)
  | accept (link : Nat) (fresh : link ∉ s.used) : Turn s (.accept link) 0 0 { ledger s with
      window := Function.update s.window link (some 0), used := link :: s.used }
  | close (a : Act) (link : Nat) (outside : a.proceeds = false) : Turn s a 0 0 { ledger s with
      window := Function.update s.window link none }
  | refuse (link : Nat) (data : Bytes) (head : ReqHead) :
      Turn s (.arrive link data) 0
        {.writing ⟨none, link, fullWindowReply head, ⟨none, .client, none⟩, []⟩} (ledger s)
  | arrive (link : Nat) (data : Bytes) (head : ReqHead) (w : Int)
      (found : rtAnalyzeReqHead data = some head) (isOpen : s.window link = some w)
      (room : w < maxLinkWindow) :
      Turn s (.arrive link data) 0 {.receiving (linkRequest link head s.counted.length)}
        { ledger s with
          window := Function.update s.window link (some (w + 1)), counted := s.counted ++ [link] }
  | own (a : Act) (r : Request) (outside : a.proceeds = false) (alone : r.link = none)
      (thread : r.history = ⟨none, .thread, none⟩)
      (title : r.title = TaskTable.sync ∨ r.title = TaskTable.write) :
      Turn s a 0 {.receiving r} (ledger s)
  | receive (i : Nat) (r : Request) (task task' : Task) (stands : Stands r task)
      (kept : Kept task task') (worker : Worker) (chosen : Chosen task task'.handler worker) :
      Turn s (.receive i) {.receiving r} {.queued worker task'.asking} (ledger s)
  | reject (i : Nat) (r : Request) (task task' : Task) (stands : Stands r task)
      (kept : Kept task task') :
      Turn s (.receive i) {.receiving r}
        ((proCompleteTaskAsFault r.caller task').toList.map Item.responding : Multiset Item)
        (ledger s)
  | take (worker : Worker) (task : Task) (first : (s.queue worker).head? = some task) :
      Turn s (.take worker) {.queued worker task} {.running worker (proExecuteTask task)} (ledger s)
  | handle (worker : Worker) (calls : Callees) (e : Execution) (handler : Handler) (jrp : Jrp)
      (rest : List Jrp) (running : s.running worker = some e)
      (handled : e.task.handler = some handler) (todo : e.todo = jrp :: rest) :
      Turn s (.handle worker calls) {.running worker e}
        ({.running worker (calledBy s worker calls e handler jrp).execution} +
          ((calledBy s worker calls e handler jrp).appended.toList.map Item.receiving :
            Multiset Item))
        { ledger s with calls := s.calls ++ [⟨handler, e.task.history.cause,
          (handler.call calls e.task.options jrp e.reply).effect⟩] }
  | finish (worker : Worker) (e : Execution) (done : e.todo = []) :
      Turn s (.finish worker) {.running worker e}
        ((proSendResponse worker e).toList.map Item.responding : Multiset Item) (ledger s)
  | respond (i : Nat) (r : Response) (w : Int) (isOpen : s.window r.link = some w) :
      Turn s (.respond i) {.responding r} {.writing r} { ledger s with
        window := Function.update s.window r.link (some (w - 1)) }
  | lost (i : Nat) (r : Response) (closed : s.window r.link = none) :
      Turn s (.respond i) {.responding r} 0 (ledger s)
  | write (i : Nat) (r : Response) (txn : Txn)
      (taken : SendPath.tcpWrite (s.fifo r.link) txn ≠ none) :
      Turn s (.write i txn) {.writing r} {.sent r} (ledger s)
  | busy (i : Nat) (r : Response) (txn : Txn)
      (refused : SendPath.tcpWrite (s.fifo r.link) txn = none) :
      Turn s (.write i txn) {.writing r} {.refused r} (ledger s)
  | drop (i : Nat) (r : Response) (txn : Txn) (closed : s.window r.link = none) :
      Turn s (.write i txn) {.writing r} 0 (ledger s)

section Steps
variable {s t : State} {a : Act}

theorem map_eraseIdx {α : Type} (f : α → Item) {l : List α} {i : Nat} {x : α}
    (h : l[i]? = some x) :
    (l.map f : Multiset Item) = {f x} + ((l.eraseIdx i).map f : Multiset Item) := by
  obtain ⟨inside, rfl⟩ := List.getElem?_eq_some_iff.mp h
  have perm := (List.getElem_cons_eraseIdx_perm inside).map f
  rw [← Multiset.coe_eq_coe] at perm
  rw [← perm]
  rfl

theorem map_append {α : Type} (f : α → Item) (l more : List α) :
    ((l ++ more).map f : Multiset Item) =
      (l.map f : Multiset Item) + (more.map f : Multiset Item) := by
  rw [List.map_append, Multiset.coe_add]

theorem map_toList_some {α : Type} (f : α → Item) (x : α) :
    ((some x).toList.map f : Multiset Item) = {f x} := rfl

def otherWorker : Worker → Worker
  | .pro => .dpc
  | .dpc => .pro

theorem otherWorker_ne (worker : Worker) : otherWorker worker ≠ worker := by
  cases worker <;> decide

theorem items_at (s : State) (worker : Worker) : items s =
    collected s.receiving (workerItems s worker + workerItems s (otherWorker worker)) s.responding
      s.writing s.frames s.refused := by
  cases worker with
  | pro => rfl
  | dpc =>
    rw [items, add_comm (workerItems s .pro)]
    rfl

/-- A worker's queue and task do not touch the other's. -/
theorem items_updated {worker : Worker} {queue : List Task} {running : Option Execution}
    (queues : t.queue = Function.update s.queue worker queue)
    (runs : t.running = Function.update s.running worker running) : items t =
      collected t.receiving ((queue.map (Item.queued worker) : Multiset Item) +
        (running.toList.map (Item.running worker) : Multiset Item) +
        workerItems s (otherWorker worker)) t.responding t.writing t.frames t.refused := by
  have same : workerItems t (otherWorker worker) = workerItems s (otherWorker worker) := by
    rw [workerItems, workerItems, queues, runs, Function.update_of_ne (otherWorker_ne worker),
      Function.update_of_ne (otherWorker_ne worker)]
  have own : workerItems t worker = (queue.map (Item.queued worker) : Multiset Item) +
      (running.toList.map (Item.running worker) : Multiset Item) := by
    rw [workerItems, queues, runs, Function.update_self, Function.update_self]
  rw [items_at t worker, same, own]

/-- What one step does with the items: it takes, it gives, and the rest stays. -/
def Turns (s : State) (a : Act) (t : State) : Prop :=
  ∃ taken given rest, Turn s a taken given (ledger t) ∧
    items s = taken + rest ∧ items t = given + rest

theorem turns_still (turn : Turn s a 0 0 (ledger t)) (same : items t = items s) : Turns s a t :=
  ⟨0, 0, items s, turn, (zero_add _).symm, by rw [same, zero_add]⟩

theorem turns_append {request : Option Request} (outside : a.proceeds = false)
    (own : ∀ r, request = some r → Turn s a 0 {.receiving r} (ledger s)) :
    Turns s a (appendRequest s request) := by
  cases request with
  | none =>
    refine turns_still (.stay a outside) ?_
    simp [appendRequest, items, collected, workerItems]
  | some r =>
    refine ⟨0, _, items s, own r rfl, (zero_add _).symm, ?_⟩
    simp only [appendRequest, items, collected, workerItems, Option.toList_some, map_append,
      List.map_cons, List.map_nil, Multiset.coe_singleton]
    abel

theorem turns_arrive {link : Nat} {w : Int} {data : Bytes} (isOpen : s.window link = some w) :
    Turns s (.arrive link data) (jnetOnReceiveData s link w data) := by
  rw [jnetOnReceiveData]
  split
  · exact turns_still (.close _ link rfl) rfl
  · split
    · exact turns_still (.stay _ rfl) rfl
    · rename_i head found
      split
      · refine ⟨0, _, items s, .refuse link data head, (zero_add _).symm, ?_⟩
        simp only [items, collected, workerItems, map_append, List.map_cons, List.map_nil,
          Multiset.coe_singleton]
        abel
      · rename_i room
        refine ⟨0, _, items s, .arrive link data head w found isOpen (not_le.mp room),
          (zero_add _).symm, ?_⟩
        simp only [items, collected, workerItems, map_append, List.map_cons, List.map_nil,
          Multiset.coe_singleton]
        abel

theorem ledger_receiveStep (s : State) (i : Nat) (r : Request) :
    ledger (receiveStep s i r) = ledger s := by
  rw [receiveStep]
  dsimp only
  split
  · rfl
  · rfl

theorem turns_receive {i : Nat} {r : Request} (found : s.receiving[i]? = some r) :
    Turns s (.receive i) (receiveStep s i r) := by
  obtain ⟨task, task', stands, kept, answered | ⟨worker, chosen, queued⟩⟩ :=
    proReceiveData_cases (rfl : (proReceiveData s.pendingFsync
      (fun worker => (s.queue worker).length) r).2 = _)
  all_goals rw [Turns, ledger_receiveStep]
  · refine ⟨_, _, collected (s.receiving.eraseIdx i) (workerItems s .pro + workerItems s .dpc)
      s.responding s.writing s.frames s.refused, .reject i r task task' stands kept, ?_, ?_⟩
    · rw [items, collected, map_eraseIdx Item.receiving found, collected]
      abel
    · rw [receiveStep]
      simp only [answered, items, collected, workerItems, map_append]
      abel
  · refine ⟨_, _, collected (s.receiving.eraseIdx i)
      (workerItems s worker + workerItems s (otherWorker worker)) s.responding s.writing s.frames
      s.refused, .receive i r task task' stands kept worker chosen, ?_, ?_⟩
    · rw [items_at s worker, collected, map_eraseIdx Item.receiving found, collected]
      abel
    · have queues : (receiveStep s i r).queue =
          Function.update s.queue worker (s.queue worker ++ [task'.asking]) := by
        simp only [receiveStep, queued]
      have runs : (receiveStep s i r).running =
          Function.update s.running worker (s.running worker) := by
        simp only [receiveStep, queued]
        exact (Function.update_eq_self worker s.running).symm
      rw [items_updated queues runs]
      simp only [receiveStep, queued, collected, workerItems, map_append, List.map_cons,
        List.map_nil, Multiset.coe_singleton]
      abel

theorem turns_take {worker : Worker} {task : Task} {rest : List Task}
    (idle : s.running worker = none) (waiting : s.queue worker = task :: rest) :
    Turns s (.take worker) (takeStep s worker task rest) := by
  refine ⟨_, _, collected s.receiving
    ((rest.map (Item.queued worker) : Multiset Item) + workerItems s (otherWorker worker))
    s.responding s.writing s.frames s.refused, .take worker task (by rw [waiting]; rfl), ?_, ?_⟩
  · rw [items_at s worker, workerItems, idle, waiting, List.map_cons, ← Multiset.cons_coe,
      ← Multiset.singleton_add]
    simp only [collected, Option.toList_none, List.map_nil, Multiset.coe_nil, add_zero]
    abel
  · rw [items_updated (s := s) (t := takeStep s worker task rest) rfl rfl, map_toList_some]
    simp only [takeStep, collected]
    abel

/-- While a task is executed, the rest of the items is what it was. -/
theorem items_running {worker : Worker} {e : Execution} (running : s.running worker = some e) :
    items s = {.running worker e} + collected s.receiving
      (((s.queue worker).map (Item.queued worker) : Multiset Item) +
        workerItems s (otherWorker worker)) s.responding s.writing s.frames s.refused := by
  rw [items_at s worker, workerItems, running, map_toList_some, collected, collected]
  abel

theorem turns_handle {worker : Worker} {calls : Callees} {e : Execution} {handler : Handler}
    {jrp : Jrp} {rest : List Jrp} (running : s.running worker = some e)
    (handled : e.task.handler = some handler) (todo : e.todo = jrp :: rest) :
    Turns s (.handle worker calls) (handleStep s worker e handler
      (handler.call calls e.task.options jrp e.reply)) := by
  refine ⟨_, _, _, .handle worker calls e handler jrp rest running handled todo,
    items_running running, ?_⟩
  rw [items_updated (s := s) (t := handleStep s worker e handler _)
    (Function.update_eq_self worker s.queue).symm rfl, map_toList_some]
  simp only [handleStep, appendRequest, collected, map_append, calledBy]
  abel

theorem turns_finish {worker : Worker} {e : Execution} (running : s.running worker = some e)
    (done : e.todo = []) : Turns s (.finish worker) (finishStep s worker e) := by
  refine ⟨_, _, _, .finish worker e done, items_running running, ?_⟩
  rw [items_updated (s := s) (t := finishStep s worker e)
    (Function.update_eq_self worker s.queue).symm rfl]
  simp only [finishStep, collected, map_append, Option.toList_none, List.map_nil, Multiset.coe_nil,
    add_zero]
  abel

theorem turns_respond {i : Nat} {r : Response} (found : s.responding[i]? = some r) :
    Turns s (.respond i) (respondStep s i r) := by
  have before : items s = {.responding r} + collected s.receiving
      (workerItems s .pro + workerItems s .dpc) (s.responding.eraseIdx i) s.writing s.frames
      s.refused := by
    rw [items, collected, map_eraseIdx Item.responding found, collected]
    abel
  rw [respondStep]
  dsimp only
  split
  · rename_i closed
    exact ⟨_, _, _, .lost i r closed, before, (zero_add _).symm⟩
  · rename_i w isOpen
    refine ⟨_, _, _, .respond i r w isOpen, before, ?_⟩
    simp only [items, collected, workerItems, map_append, List.map_cons, List.map_nil,
      Multiset.coe_singleton]
    abel

theorem turns_write {i : Nat} {r : Response} (txn : Txn) (found : s.writing[i]? = some r) :
    Turns s (.write i txn) (writeStep s i r txn) := by
  have before : items s = {.writing r} + collected s.receiving
      (workerItems s .pro + workerItems s .dpc) s.responding (s.writing.eraseIdx i) s.frames
      s.refused := by
    rw [items, collected, map_eraseIdx Item.writing found, collected]
    abel
  rw [writeStep]
  dsimp only
  split
  · rename_i closed
    exact ⟨_, _, _, .drop i r txn closed, before, (zero_add _).symm⟩
  · split
    · rename_i refused
      refine ⟨_, _, _, .busy i r txn refused, before, ?_⟩
      simp only [items, collected, workerItems, map_append, List.map_cons, List.map_nil,
        Multiset.coe_singleton]
      abel
    · rename_i fifo taken
      refine ⟨_, _, _, .write i r txn (by rw [taken]; exact Option.some_ne_none fifo), before, ?_⟩
      simp only [items, collected, workerItems, map_append, List.map_cons, List.map_nil,
        Multiset.coe_singleton]
      abel

/-- Every step is a turn. -/
theorem step_turns (h : step s a = some t) : Turns s a t := by
  cases a with
  | accept link =>
    rw [step] at h
    split at h
    · cases h
    · rename_i fresh
      obtain rfl := Option.some.inj h
      exact turns_still (.accept link fresh) rfl
  | close link =>
    obtain ⟨w, -, rfl⟩ := Option.map_eq_some_iff.mp h
    exact turns_still (.close _ link rfl) rfl
  | arrive link data =>
    obtain ⟨w, isOpen, rfl⟩ := Option.map_eq_some_iff.mp h
    exact turns_arrive isOpen
  | flush =>
    obtain rfl := Option.some.inj h
    refine turns_append rfl fun r made => ?_
    obtain rfl := proAppendRequest_some made
    exact .own _ _ rfl rfl rfl (Or.inl rfl)
  | setProperty text =>
    obtain rfl := Option.some.inj h
    refine turns_append rfl fun r made => ?_
    obtain rfl := proAppendRequest_some made
    exact .own _ _ rfl rfl rfl (Or.inr rfl)
  | receive i =>
    obtain ⟨r, found, rfl⟩ := Option.map_eq_some_iff.mp h
    exact turns_receive found
  | take worker =>
    rw [step] at h
    split at h
    · rename_i idle waiting
      split at h
      · cases h
      · obtain rfl := Option.some.inj h
        exact turns_take idle waiting
    · cases h
  | handle worker calls =>
    rw [step] at h
    split at h
    · cases h
    · rename_i e running
      split at h
      · rename_i handled todo
        split at h
        · cases h
        · obtain rfl := Option.some.inj h
          exact turns_handle running handled todo
      · cases h
  | finish worker =>
    rw [step] at h
    split at h
    · cases h
    · rename_i e running
      split at h
      · cases h
      · rename_i done
        obtain rfl := Option.some.inj h
        exact turns_finish running (not_not.mp (not_or.mp done).1)
  | respond i =>
    obtain ⟨r, found, rfl⟩ := Option.map_eq_some_iff.mp h
    exact turns_respond found
  | write i txn =>
    obtain ⟨r, found, rfl⟩ := Option.map_eq_some_iff.mp h
    exact turns_write txn found
  | post link txn =>
    obtain ⟨w, -, rfl⟩ := Option.map_eq_some_iff.mp h
    exact turns_still (.stay _ rfl) rfl
  | pop link =>
    obtain ⟨w, -, popped⟩ := Option.bind_eq_some_iff.mp h
    split at popped
    · cases popped
    · obtain rfl := Option.some.inj popped
      exact turns_still (.stay _ rfl) rfl

/-- What every turn passes on from the items that it takes holds of all items. -/
theorem step_items {P : Item → Prop}
    (passes : ∀ taken given books, Turn s a taken given books → (∀ x ∈ taken, P x) →
      ∀ x ∈ given, P x) (h : step s a = some t) (all : ∀ x ∈ items s, P x) :
    ∀ x ∈ items t, P x := by
  obtain ⟨taken, given, rest, turn, before, after⟩ := step_turns h
  intro x mem
  rw [after] at mem
  rcases Multiset.mem_add.mp mem with isNew | old
  · refine passes taken given _ turn (fun y mem => all y ?_) x isNew
    exact before ▸ Multiset.mem_add.mpr (Or.inl mem)
  · exact all x (before ▸ Multiset.mem_add.mpr (Or.inr old))

end Steps

end Pipeline
