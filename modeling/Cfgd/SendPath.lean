import Cfgd.CText
import Cfgd.Transition

/-!
# The send path of a link

One thread calls `tcp_write`, the thread of the write pool runs `_wp_exec` for the tasks of
the link. A step is a critical section, a `send` or an `io_modify`; the latter succeeds
always, and `send` fails with `EINTR` and `EAGAIN` only. `fifo_queue` keeps the lock of the
queue while it calls `io_modify`, `fifo_pop` has released it.
-/

namespace SendPath

open CText

def ebusy : Int := 16
def einval : Int := 22
def tcpMaximumPacketSize : Nat := 50 * 2 ^ 20
def maximumFifoSize : Int := 100

/-! ## A call as a whole -/

/-- `struct tx_fifo` without its list. -/
structure TxFifo where
  size : Int
  txOverflow : Bool
  deriving DecidableEq

/-- What `tcp_txn` comes to. `failed` is also for what goes wrong before it: no memory, or a
connection that is not established any more. -/
inductive Txn where
  | whole
  | again
  | failed
  deriving DecidableEq

namespace TxFifo

/-- `fifo_init`. -/
def init : TxFifo := ⟨0, false⟩

/-- `fifo_queue`, which fails with `EBUSY`. -/
def queue (fifo : TxFifo) : Option TxFifo :=
  if maximumFifoSize ≤ fifo.size then none else some ⟨fifo.size + 1, true⟩

/-- `fifo_pop` of a queue that is not empty. -/
def pop (fifo : TxFifo) : TxFifo :=
  ⟨fifo.size - 1, if fifo.size - 1 = 0 then false else fifo.txOverflow⟩

end TxFifo

/-- `tcp_write` of a packet of a legal size, as if nothing came between its steps. A call
that fails forgets the packet and leaves the link as it is. -/
def tcpWrite (fifo : TxFifo) : Txn → Option TxFifo
  | .whole => if fifo.txOverflow then fifo.queue else some fifo
  | .again => fifo.queue
  | .failed => none

/-! ## Its steps -/

/-- `struct tx_node`, with a number in place of its address. `wcb` is the length of `data`. -/
structure TxNode where
  number : Nat
  data : Bytes
  offset : Nat
deriving DecidableEq

namespace TxNode

/-- The bytes that the kernel has not taken. -/
def rest (node : TxNode) : Bytes := node.data.drop node.offset

/-- The bytes that it has. -/
def taken (node : TxNode) : Bytes := node.data.take node.offset

def Whole (node : TxNode) : Prop := node.data.length ≤ node.offset

instance (node : TxNode) : Decidable node.Whole := inferInstanceAs (Decidable (_ ≤ _))

end TxNode

/-- Where the thread is that calls `tcp_write`. -/
inductive Caller where
  | idle
  /-- Before `fifo_tx_overflow`. -/
  | checking (node : TxNode)
  /-- In the loop of `tcp_txn`. -/
  | sending (node : TxNode)
  /-- Before `fifo_queue`. -/
  | queueing (node : TxNode)
  /-- With the lock: the node is in the list, `io_modify` comes next. -/
  | registering (node : TxNode)
  /-- With the lock, after `io_modify`. -/
  | registered (node : TxNode)
deriving DecidableEq

/-- Where the thread of the pool is. -/
inductive Pool where
  | idle
  /-- Before `fifo_top`. -/
  | running
  /-- In the loop of `tcp_txn`, with the node of that number. -/
  | sending (number : Nat)
  /-- Before `fifo_pop`. -/
  | popping
  /-- In `fifo_pop`, the lock released: `io_modify` comes next. -/
  | cancelling
  /-- Before `_wp_add_task`. -/
  | adding
deriving DecidableEq

/-- `returned` lists the packets of the calls that have ended, with what they returned. -/
structure State where
  caller : Caller
  pool : Pool
  /-- `fifo.head`. -/
  fifo : List TxNode
  size : Int
  txOverflow : Bool
  epollout : Bool
  /-- The tasks of the link in the list of the pool. -/
  tasks : Nat
  kernel : Bytes
  calls : Nat
  returned : List (Bytes × Int)
deriving DecidableEq

inductive SendResult where
  | accepted (wcb : Nat)
  | interrupted
  | wouldBlock
deriving DecidableEq

inductive Act where
  /-- `tcp_write`, up to the node: what the builder and the serializer make. -/
  | write (head body : Bytes)
  | checkOverflow
  | callerSend (result : SendResult)
  | callerSent
  | queue
  | register
  | unlock
  /-- `_iorun` handles a writable event of the link. -/
  | event
  | take
  | top
  | poolSend (result : SendResult)
  | poolSent
  | pop
  | cancel
  | add
deriving DecidableEq

section Steps
variable (s : State)

def Caller.holdsLock : Caller → Prop
  | .registering _ | .registered _ => True
  | _ => False

instance (caller : Caller) : Decidable caller.holdsLock := by
  cases caller <;> unfold Caller.holdsLock <;> infer_instance

/-- The call ends. -/
def State.returns (data : Bytes) (status : Int) : State :=
  { s with caller := .idle, returned := s.returned ++ [(data, status)] }

/-! ## The caller -/

def write (head body : Bytes) : Option State :=
  match s.caller with
  | .idle =>
    if body.length = 0 ∨ tcpMaximumPacketSize < body.length then
      some (s.returns (head ++ body) (-einval))
    else some { s with caller := .checking ⟨s.calls, head ++ body, 0⟩, calls := s.calls + 1 }
  | _ => none

def checkOverflow : Option State :=
  match s.caller with
  | .checking node =>
    some { s with caller := if s.txOverflow then .queueing node else .sending node }
  | _ => none

def callerSend (result : SendResult) : Option State :=
  match s.caller with
  | .sending node =>
    if node.Whole then none
    else match result with
      | .accepted wcb =>
        if 0 < wcb ∧ wcb ≤ node.rest.length then
          some { s with
            caller := .sending { node with offset := node.offset + wcb }
            kernel := s.kernel ++ node.rest.take wcb }
        else none
      | .interrupted => some s
      | .wouldBlock => some { s with caller := .queueing node }
  | _ => none

/-- The loop of `tcp_txn` ends, and so does the call. -/
def callerSent : Option State :=
  match s.caller with
  | .sending node => if node.Whole then some (s.returns node.data 0) else none
  | _ => none

/-- `fifo_queue`, up to its `io_modify` if there is one. -/
def queue : Option State :=
  match s.caller with
  | .queueing node =>
    if maximumFifoSize ≤ s.size then some (s.returns node.data (-ebusy))
    else
      let s : State := { s with fifo := s.fifo ++ [node] }
      if s.txOverflow then some ({ s with size := s.size + 1 }.returns node.data 0)
      else some { s with caller := .registering node }
  | _ => none

/-- `io_modify (ncb, EPOLLIN | EPOLLOUT)`. -/
def register : Option State :=
  match s.caller with
  | .registering node => some { s with caller := .registered node, epollout := true }
  | _ => none

/-- The rest of `fifo_queue`. -/
def unlock : Option State :=
  match s.caller with
  | .registered node =>
    some ({ s with txOverflow := true, size := s.size + 1 }.returns node.data 0)
  | _ => none

/-! ## The pool -/

/-- `wp_queued`. The event may have been reported by the kernel some time ago. -/
def event : Option State := some { s with tasks := s.tasks + 1 }

/-- `_wp_get_task` and the start of `_wp_exec`. -/
def take : Option State :=
  match s.pool with
  | .idle => if s.tasks = 0 then none else some { s with tasks := s.tasks - 1, pool := .running }
  | _ => none

/-- `fifo_top`. Without an item the task is dropped. -/
def top : Option State :=
  match s.pool with
  | .running =>
    if s.caller.holdsLock then none
    else match s.fifo with
      | [] => some { s with pool := .idle }
      | node :: _ => some { s with pool := .sending node.number }
  | _ => none

def State.node (number : Nat) : Option TxNode := s.fifo.find? fun node => node.number = number

/-- The node of the list that the pool sends is written in place. -/
def advance (fifo : List TxNode) (number wcb : Nat) : List TxNode :=
  fifo.map fun node =>
    if node.number = number then { node with offset := node.offset + wcb } else node

/-- On `EAGAIN` the task is dropped. -/
def poolSend (result : SendResult) : Option State :=
  match s.pool with
  | .sending number => match s.node number with
    | none => none
    | some node =>
      if node.Whole then none
      else match result with
        | .accepted wcb =>
          if 0 < wcb ∧ wcb ≤ node.rest.length then
            some { s with
              fifo := advance s.fifo number wcb
              kernel := s.kernel ++ node.rest.take wcb }
          else none
        | .interrupted => some s
        | .wouldBlock => some { s with pool := .idle }
  | _ => none

def poolSent : Option State :=
  match s.pool with
  | .sending number => match s.node number with
    | none => none
    | some node => if node.Whole then some { s with pool := .popping } else none
  | _ => none

/-- `fifo_pop`, up to its `io_modify` if there is one. -/
def pop : Option State :=
  match s.pool with
  | .popping =>
    if s.caller.holdsLock then none
    else match s.fifo with
      | [] => some { s with pool := .idle }
      | _ :: rest =>
        let s : State := { s with fifo := rest, size := s.size - 1 }
        if s.size = 0 ∧ s.txOverflow = true then
          some { s with txOverflow := false, pool := .cancelling }
        else some { s with pool := .adding }
  | _ => none

/-- `io_modify (ncb, EPOLLIN)`. -/
def cancel : Option State :=
  match s.pool with
  | .cancelling => some { s with epollout := false, pool := .adding }
  | _ => none

/-- `_wp_add_task`. -/
def add : Option State :=
  match s.pool with
  | .adding => some { s with tasks := s.tasks + 1, pool := .idle }
  | _ => none

end Steps

def step (s : State) : Act → Option State
  | .write head body => write s head body
  | .checkOverflow => checkOverflow s
  | .callerSend result => callerSend s result
  | .callerSent => callerSent s
  | .queue => queue s
  | .register => register s
  | .unlock => unlock s
  | .event => event s
  | .take => take s
  | .top => top s
  | .poolSend result => poolSend s result
  | .poolSent => poolSent s
  | .pop => pop s
  | .cancel => cancel s
  | .add => add s

/-- An established link after `fifo_init`. -/
def initial : State where
  caller := .idle
  pool := .idle
  fifo := []
  size := 0
  txOverflow := false
  epollout := false
  tasks := 0
  kernel := []
  calls := 0
  returned := []

/-! ## What a step does -/

/-- The outcomes of the actions, with what they depend on. -/
inductive Change (s : State) : Act → State → Prop where
  | refused {head body : Bytes} (idle : s.caller = .idle) :
    Change s (.write head body) (s.returns (head ++ body) (-einval))
  | called {head body : Bytes} (idle : s.caller = .idle) :
    Change s (.write head body)
      { s with caller := .checking ⟨s.calls, head ++ body, 0⟩, calls := s.calls + 1 }
  | overflow {node : TxNode} (here : s.caller = .checking node) (flag : s.txOverflow = true) :
    Change s .checkOverflow { s with caller := .queueing node }
  | direct {node : TxNode} (here : s.caller = .checking node) (flag : s.txOverflow = false) :
    Change s .checkOverflow { s with caller := .sending node }
  | callerAccepted {node : TxNode} {wcb : Nat} (here : s.caller = .sending node)
    (some_ : 0 < wcb) (bound : wcb ≤ node.rest.length) :
    Change s (.callerSend (.accepted wcb)) { s with
      caller := .sending { node with offset := node.offset + wcb }
      kernel := s.kernel ++ node.rest.take wcb }
  | callerInterrupted : Change s (.callerSend .interrupted) s
  | callerBlocked {node : TxNode} (here : s.caller = .sending node) (part : ¬ node.Whole) :
    Change s (.callerSend .wouldBlock) { s with caller := .queueing node }
  | callerSent {node : TxNode} (here : s.caller = .sending node) (whole : node.Whole) :
    Change s .callerSent (s.returns node.data 0)
  | full {node : TxNode} (here : s.caller = .queueing node) (many : maximumFifoSize ≤ s.size) :
    Change s .queue (s.returns node.data (-ebusy))
  | queued {node : TxNode} (here : s.caller = .queueing node) (room : s.size < maximumFifoSize)
    (flag : s.txOverflow = true) :
    Change s .queue
      ({ s with fifo := s.fifo ++ [node], size := s.size + 1 }.returns node.data 0)
  | locked {node : TxNode} (here : s.caller = .queueing node) (room : s.size < maximumFifoSize)
    (flag : s.txOverflow = false) :
    Change s .queue { s with fifo := s.fifo ++ [node], caller := .registering node }
  | register {node : TxNode} (here : s.caller = .registering node) :
    Change s .register { s with caller := .registered node, epollout := true }
  | unlock {node : TxNode} (here : s.caller = .registered node) :
    Change s .unlock ({ s with txOverflow := true, size := s.size + 1 }.returns node.data 0)
  | event : Change s .event { s with tasks := s.tasks + 1 }
  | take (idle : s.pool = .idle) (pending : s.tasks ≠ 0) :
    Change s .take { s with tasks := s.tasks - 1, pool := .running }
  | topNone (here : s.pool = .running) (free : ¬ s.caller.holdsLock) (empty : s.fifo = []) :
    Change s .top { s with pool := .idle }
  | topSome {node : TxNode} {rest : List TxNode} (here : s.pool = .running)
    (free : ¬ s.caller.holdsLock) (front : s.fifo = node :: rest) :
    Change s .top { s with pool := .sending node.number }
  | poolAccepted {number wcb : Nat} {node : TxNode} (here : s.pool = .sending number)
    (found : s.node number = some node) (some_ : 0 < wcb) (bound : wcb ≤ node.rest.length) :
    Change s (.poolSend (.accepted wcb)) { s with
      fifo := advance s.fifo number wcb
      kernel := s.kernel ++ node.rest.take wcb }
  | poolInterrupted : Change s (.poolSend .interrupted) s
  | poolBlocked {number : Nat} (here : s.pool = .sending number) :
    Change s (.poolSend .wouldBlock) { s with pool := .idle }
  | poolSent {number : Nat} {node : TxNode} (here : s.pool = .sending number)
    (found : s.node number = some node) (whole : node.Whole) :
    Change s .poolSent { s with pool := .popping }
  | popNone (here : s.pool = .popping) (free : ¬ s.caller.holdsLock) (empty : s.fifo = []) :
    Change s .pop { s with pool := .idle }
  | popLast {node : TxNode} {rest : List TxNode} (here : s.pool = .popping)
    (free : ¬ s.caller.holdsLock) (front : s.fifo = node :: rest) (last : s.size - 1 = 0)
    (flag : s.txOverflow = true) :
    Change s .pop
      { s with fifo := rest, size := s.size - 1, txOverflow := false, pool := .cancelling }
  | popMore {node : TxNode} {rest : List TxNode} (here : s.pool = .popping)
    (free : ¬ s.caller.holdsLock) (front : s.fifo = node :: rest)
    (more : ¬ (s.size - 1 = 0 ∧ s.txOverflow = true)) :
    Change s .pop { s with fifo := rest, size := s.size - 1, pool := .adding }
  | cancel (here : s.pool = .cancelling) :
    Change s .cancel { s with epollout := false, pool := .adding }
  | add (here : s.pool = .adding) : Change s .add { s with tasks := s.tasks + 1, pool := .idle }

section Changes
variable {s t : State}

theorem change_write {head body : Bytes} (h : write s head body = some t) :
    Change s (.write head body) t := by
  unfold write at h
  split at h
  · rename_i idle
    split at h
    · cases h
      exact .refused idle
    · cases h
      exact .called idle
  · cases h

theorem change_checkOverflow (h : checkOverflow s = some t) : Change s .checkOverflow t := by
  unfold checkOverflow at h
  split at h
  · rename_i node here
    by_cases flag : s.txOverflow = true
    · rw [if_pos flag] at h
      cases h
      exact .overflow here flag
    · rw [if_neg flag] at h
      cases h
      exact .direct here (Bool.eq_false_iff.mpr flag)
  · cases h

theorem change_callerSend {result : SendResult} (h : callerSend s result = some t) :
    Change s (.callerSend result) t := by
  unfold callerSend at h
  split at h
  · rename_i node here
    split at h
    · cases h
    · rename_i part
      cases result with
      | accepted wcb =>
        dsimp only at h
        split at h
        · rename_i bounds
          cases h
          exact .callerAccepted here bounds.1 bounds.2
        · cases h
      | interrupted =>
        cases h
        exact .callerInterrupted
      | wouldBlock =>
        cases h
        exact .callerBlocked here part
  · cases h

theorem change_callerSent (h : callerSent s = some t) : Change s .callerSent t := by
  unfold callerSent at h
  split at h
  · rename_i node here
    split at h
    · rename_i whole
      cases h
      exact .callerSent here whole
    · cases h
  · cases h

theorem change_queue (h : queue s = some t) : Change s .queue t := by
  unfold queue at h
  split at h
  · rename_i node here
    split at h
    · rename_i many
      cases h
      exact .full here many
    · rename_i few
      have room : s.size < maximumFifoSize := Int.not_le.mp few
      dsimp only at h
      by_cases flag : s.txOverflow = true
      · rw [if_pos flag] at h
        cases h
        exact .queued here room flag
      · rw [if_neg flag] at h
        cases h
        exact .locked here room (Bool.eq_false_iff.mpr flag)
  · cases h

theorem change_register (h : register s = some t) : Change s .register t := by
  unfold register at h
  split at h
  · rename_i node here
    cases h
    exact .register here
  · cases h

theorem change_unlock (h : unlock s = some t) : Change s .unlock t := by
  unfold unlock at h
  split at h
  · rename_i node here
    cases h
    exact .unlock here
  · cases h

theorem change_take (h : take s = some t) : Change s .take t := by
  unfold take at h
  split at h
  · rename_i idle
    split at h
    · cases h
    · rename_i pending
      cases h
      exact .take idle pending
  · cases h

theorem change_top (h : top s = some t) : Change s .top t := by
  unfold top at h
  split at h
  · rename_i here
    split at h
    · cases h
    · rename_i free
      split at h
      · rename_i empty
        cases h
        exact .topNone here free empty
      · rename_i node rest front
        cases h
        exact .topSome here free front
  · cases h

theorem change_poolSend {result : SendResult} (h : poolSend s result = some t) :
    Change s (.poolSend result) t := by
  unfold poolSend at h
  split at h
  · rename_i number here
    split at h
    · cases h
    · rename_i node found
      split at h
      · cases h
      · cases result with
        | accepted wcb =>
          dsimp only at h
          split at h
          · rename_i bounds
            cases h
            exact .poolAccepted here found bounds.1 bounds.2
          · cases h
        | interrupted =>
          cases h
          exact .poolInterrupted
        | wouldBlock =>
          cases h
          exact .poolBlocked here
  · cases h

theorem change_poolSent (h : poolSent s = some t) : Change s .poolSent t := by
  unfold poolSent at h
  split at h
  · rename_i number here
    split at h
    · cases h
    · rename_i node found
      split at h
      · rename_i whole
        cases h
        exact .poolSent here found whole
      · cases h
  · cases h

theorem change_pop (h : pop s = some t) : Change s .pop t := by
  unfold pop at h
  split at h
  · rename_i here
    split at h
    · cases h
    · rename_i free
      split at h
      · rename_i empty
        cases h
        exact .popNone here free empty
      · rename_i node rest front
        dsimp only at h
        split at h
        · rename_i last
          cases h
          exact .popLast here free front last.1 last.2
        · rename_i more
          cases h
          exact .popMore here free front more
  · cases h

theorem change_cancel (h : cancel s = some t) : Change s .cancel t := by
  unfold cancel at h
  split at h
  · rename_i here
    cases h
    exact .cancel here
  · cases h

theorem change_add (h : add s = some t) : Change s .add t := by
  unfold add at h
  split at h
  · rename_i here
    cases h
    exact .add here
  · cases h

/-- Every step is one of them. -/
theorem change_of_step {a : Act} (h : step s a = some t) : Change s a t := by
  cases a with
  | write head body => exact change_write h
  | checkOverflow => exact change_checkOverflow h
  | callerSend result => exact change_callerSend h
  | callerSent => exact change_callerSent h
  | queue => exact change_queue h
  | register => exact change_register h
  | unlock => exact change_unlock h
  | event =>
    cases h
    exact .event
  | take => exact change_take h
  | top => exact change_top h
  | poolSend result => exact change_poolSend h
  | poolSent => exact change_poolSent h
  | pop => exact change_pop h
  | cancel => exact change_cancel h
  | add => exact change_add h

end Changes

end SendPath
