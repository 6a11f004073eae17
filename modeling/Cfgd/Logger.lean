import Cfgd.CList
import Cfgd.CText

/-!
# The asynchronous log

`log_save` counts itself, takes a node off the idle list, fills it and puts it on the busy
list. `log_flush` looks at the head of the busy list, prints it and moves it back to the
idle list. Each locked section and each atomic operation is one step of a call; any number
of calls are under way at once, and between two of their steps any other call may step.
-/

namespace Logger

open CText CList

def maximumLogsaveCount : Nat := 500
def safeLogsaveCount : Int := 100
def warningLogsaveCount : Int := 400
def logModuleNameLen : Nat := 128
def logLevelMaximum : Int := 5

inductive Warning where
  | safe
  | danger
  deriving DecidableEq, Repr

/-- What a node stores beside its link. -/
structure Entry where
  name : Bytes
  level : Int
  target : Int
  timestamp : Nat
  logstr : Bytes
  deriving DecidableEq, Repr

/-- The arguments of `log_save`. The `format` is given as the text that
`_format_log_string` makes of it, and `name` is the module. -/
structure Order where
  name : Option Bytes
  level : Int
  target : Int
  timestamp : Nat
  format : Option Bytes
  deriving DecidableEq, Repr

/-- The heads of the two lists, and the nodes of `misc_memory`. -/
inductive Cell where
  | idle
  | busy
  | node (i : Nat)
  deriving DecidableEq, Repr

/-- A call of `log_save` or of `log_flush`, in front of its next section. -/
inductive Call where
  | counting (order : Order) (text : Bytes)
  | uncounting
  | checking (order : Order) (text : Bytes)
  | alarming (order : Order) (text : Bytes)
  | taking (order : Order) (text : Bytes)
  | filling (node : Cell) (order : Order) (text : Bytes)
  | adding (node : Cell)
  | peeking
  | printing (node : Cell)
  | recycling (node : Cell)
  | discounting
  | relieving
  | calming
  | returned
  deriving DecidableEq, Repr

/-- `_log_async` with the nodes and the calls. The records that went onto the busy list and
those that were printed are kept in order; the code does not keep them. -/
structure State where
  pending : Int
  warning : Warning
  links : Links Cell
  entry : Cell → Entry
  calls : List Call
  saved : List Entry
  printed : List Entry

inductive Act where
  | logSave (order : Order)
  | logFlush
  | advance (call : Nat)
  deriving DecidableEq, Repr

/-! ## The sections -/

def blank : Entry := ⟨[], 0, 0, 0, []⟩

def nodes : List Cell := (List.range maximumLogsaveCount).map .node

/-- The two lists with these nodes on the idle list. -/
def initLists (nodes : List Cell) : Links Cell :=
  nodes.foldl (fun links node => listAddTail links node .idle)
    (initListHead (initListHead ⟨id, id⟩ .idle) .busy)

/-- `_init_log_async_pattern`. -/
def initLogAsyncPattern : State where
  pending := 0
  warning := .safe
  links := initLists nodes
  entry := fun _ => blank
  calls := []
  saved := []
  printed := []

/-- `_get_log_cache`. -/
def getLogCache (links : Links Cell) : Option Cell × Links Cell :=
  if listEmpty links .idle then (none, links)
  else (some (listFirst links .idle), listDelInit links (listFirst links .idle))

/-- `_recycle_log_cache`. -/
def recycleLogCache (links : Links Cell) (node : Cell) : Links Cell :=
  listAddTail (listDelInit links node) node .idle

def crtStrcpy (size : Nat) (src : Bytes) : Bytes := src.take (size - 1)

/-- What `log_save` writes into its node. A node keeps its old module name when the name of
the program is unknown. -/
def fill (pename : Option Bytes) (old : Entry) (order : Order) (text : Bytes) : Entry where
  name := match order.name, pename with
    | some name, _ => crtStrcpy logModuleNameLen name
    | none, some name => crtStrcpy logModuleNameLen name
    | none, none => old.name
  level := order.level
  target := order.target
  timestamp := order.timestamp
  logstr := text

section Steps
variable (pename : Option Bytes)

/-- The next section of a call, with the call that stands after it. -/
def perform (s : State) : Call → Call × State
  | .counting order text =>
    let pending := s.pending + 1
    (if pending ≥ maximumLogsaveCount then .uncounting
      else if pending ≥ warningLogsaveCount then .checking order text
      else .taking order text,
      { s with pending := pending })
  | .uncounting => (.returned, { s with pending := s.pending - 1 })
  | .checking order text =>
    (if s.warning = .safe then .alarming order text else .taking order text, s)
  | .alarming order text => (.taking order text, { s with warning := .danger })
  | .taking order text =>
    match getLogCache s.links with
    | (none, _) => (.returned, s)
    | (some node, links) => (.filling node order text, { s with links := links })
  | .filling node order text =>
    (.adding node, { s with
      entry := Function.update s.entry node (fill pename (s.entry node) order text) })
  | .adding node =>
    (.returned, { s with
      links := listAddTail s.links node .busy
      saved := s.saved ++ [s.entry node] })
  | .peeking =>
    (if listEmpty s.links .busy then .returned else .printing (listFirst s.links .busy), s)
  | .printing node => (.recycling node, { s with printed := s.printed ++ [s.entry node] })
  | .recycling node => (.discounting, { s with links := recycleLogCache s.links node })
  | .discounting =>
    (if s.pending - 1 < safeLogsaveCount then .relieving else .peeking,
      { s with pending := s.pending - 1 })
  | .relieving => (if s.warning = .danger then .calming else .peeking, s)
  | .calming => (.peeking, { s with warning := .safe })
  | .returned => (.returned, s)

def advance (s : State) (i : Nat) : State :=
  match s.calls[i]? with
  | none => s
  | some call =>
    let (after, s') := perform pename s call
    { s' with calls := s.calls.set i after }

def step (s : State) : Act → State
  | .logSave order =>
    match order.format with
    | none => s
    | some text =>
      if order.level ≥ logLevelMaximum ∨ order.level < 0 then s
      else { s with calls := s.calls ++ [.counting order text] }
  | .logFlush => { s with calls := s.calls ++ [.peeking] }
  | .advance i => advance pename s i

def run (s : State) (acts : List Act) : State := acts.foldl (step pename) s

theorem run_append (s : State) (first second : List Act) :
    run pename s (first ++ second) = run pename (run pename s first) second :=
  List.foldl_append

end Steps

/-! ## Counts -/

/-- The node that a `log_save` holds. -/
def Call.held : Call → Option Cell
  | .filling node _ _ => some node
  | .adding node => some node
  | _ => none

/-- The node that a `log_flush` found and has not recycled, and whether it is printed. -/
def Call.inHand : Call → Option (Cell × Bool)
  | .printing node => some (node, false)
  | .recycling node => some (node, true)
  | _ => none

/-- Calls between the pending counter and the lists: a `log_save` that has counted itself
and holds no node yet, or a `log_flush` that has recycled a node and not counted it down. -/
def Call.counted : Call → Bool
  | .uncounting => true
  | .checking _ _ => true
  | .alarming _ _ => true
  | .taking _ _ => true
  | .discounting => true
  | _ => false

/-- The calls among these that are going to take a node. -/
def Call.granted : Call → Bool
  | .checking _ _ => true
  | .alarming _ _ => true
  | .taking _ _ => true
  | _ => false

def State.held (s : State) : List Cell := s.calls.filterMap Call.held
def State.inHand (s : State) : List (Cell × Bool) := s.calls.filterMap Call.inHand
def State.counted (s : State) : Nat := s.calls.countP Call.counted
def State.granted (s : State) : Nat := s.calls.countP Call.granted

/-! ## The invariant -/

/-- No `log_flush` looks at the head while another one has a node in hand. -/
def Undisturbed (s : State) : Act → Prop
  | .advance i => s.calls[i]? = some .peeking → s.inHand = []
  | _ => True

def Disciplined (pename : Option Bytes) (s : State) : List Act → Prop
  | [] => True
  | act :: acts => Undisturbed s act ∧ Disciplined pename (step pename s act) acts

instance (s : State) (act : Act) : Decidable (Undisturbed s act) :=
  match act with
  | .advance i => inferInstanceAs (Decidable (s.calls[i]? = some .peeking → s.inHand = []))
  | .logSave _ => .isTrue trivial
  | .logFlush => .isTrue trivial

instance decidableDisciplined (pename : Option Bytes) :
    (s : State) → (acts : List Act) → Decidable (Disciplined pename s acts)
  | _, [] => .isTrue trivial
  | s, act :: acts =>
    have := decidableDisciplined pename (step pename s act) acts
    inferInstanceAs (Decidable (Undisturbed s act ∧ Disciplined pename (step pename s act) acts))

/-- The node in hand is the first one on the busy list; the rest of the list, and the first
node until it is printed, is still to be printed. -/
inductive Hand : List Cell → List (Cell × Bool) → List Cell → Prop
  | free (busy : List Cell) : Hand busy [] busy
  | printing (first : Cell) (rest : List Cell) :
      Hand (first :: rest) [(first, false)] (first :: rest)
  | recycling (first : Cell) (rest : List Cell) : Hand (first :: rest) [(first, true)] rest

structure Reached (s : State) (idle busy unprinted : List Cell) : Prop where
  idleRing : Ring s.links .idle idle
  busyRing : Ring s.links .busy busy
  nodes : (idle ++ busy ++ s.held).Perm nodes
  hand : Hand busy s.inHand unprinted
  saved : s.saved = s.printed ++ unprinted.map s.entry
  pending : s.pending = busy.length + s.held.length + s.counted
  room : busy.length + s.held.length + s.granted < maximumLogsaveCount

theorem nodup_nodes : nodes.Nodup :=
  List.nodup_range.map fun _ _ same => Cell.node.inj same

theorem node_of_mem {cell : Cell} (mem : cell ∈ nodes) : ∃ i, cell = .node i :=
  have ⟨i, _, same⟩ := List.mem_map.mp mem
  ⟨i, same.symm⟩

theorem call_at {calls : List Call} {i : Nat} {call : Call} (here : calls[i]? = some call) :
    ∃ before later, i = before.length ∧ calls = before ++ call :: later ∧
      ∀ after, calls.set i after = before ++ after :: later := by
  obtain ⟨bound, same⟩ := List.getElem?_eq_some_iff.mp here
  refine ⟨calls.take i, calls.drop (i + 1), ?_, ?_, fun after => ?_⟩
  · rw [List.length_take, Nat.min_eq_left (Nat.le_of_lt bound)]
  · rw [← same, List.getElem_cons_drop, List.take_append_drop]
  · rw [List.set_eq_take_append_cons_drop, if_pos bound]

section Counts
variable {s : State} {before later : List Call} {call : Call}

theorem held_eq (calls : s.calls = before ++ call :: later) :
    s.held = before.filterMap Call.held ++ (call.held.toList ++ later.filterMap Call.held) := by
  rw [State.held, calls, List.filterMap_append, List.filterMap_cons]
  cases call.held <;> rfl

theorem inHand_eq (calls : s.calls = before ++ call :: later) :
    s.inHand =
      before.filterMap Call.inHand ++ (call.inHand.toList ++ later.filterMap Call.inHand) := by
  rw [State.inHand, calls, List.filterMap_append, List.filterMap_cons]
  cases call.inHand <;> rfl

theorem counted_eq (calls : s.calls = before ++ call :: later) :
    s.counted = before.countP Call.counted + later.countP Call.counted + call.counted.toNat := by
  rw [State.counted, calls, List.countP_append, List.countP_cons]
  cases call.counted with
  | false => simp
  | true =>
    simp
    omega

theorem granted_eq (calls : s.calls = before ++ call :: later) :
    s.granted = before.countP Call.granted + later.countP Call.granted + call.granted.toNat := by
  rw [State.granted, calls, List.countP_append, List.countP_cons]
  cases call.granted with
  | false => simp
  | true =>
    simp
    omega

theorem granted_le_counted (s : State) : s.granted ≤ s.counted :=
  List.countP_mono_left fun call _ => by cases call <;> simp [Call.granted, Call.counted]

end Counts

/-- The rings after the nodes were put on the idle list one by one. -/
theorem ring_foldl (new : List Cell) {links : Links Cell} {idle : List Cell}
    (idleRing : Ring links .idle idle) (busyRing : Ring links .busy [])
    (distinct : (.idle :: idle ++ new).Nodup) (notBusy : .busy ∉ .idle :: idle ++ new) :
    Ring (new.foldl (fun links node => listAddTail links node .idle) links) .idle (idle ++ new) ∧
      Ring (new.foldl (fun links node => listAddTail links node .idle) links) .busy [] := by
  induction new generalizing links idle with
  | nil => exact ⟨(List.append_nil idle).symm ▸ idleRing, busyRing⟩
  | cons node rest ih =>
    have fresh : node ∉ .idle :: idle := fun mem =>
      (List.nodup_append.mp distinct).2.2 node mem node List.mem_cons_self rfl
    have busyApart : ∀ a ∈ [Cell.busy], a ∉ .idle :: idle := fun a mem inIdle =>
      notBusy (List.mem_append_left _ (List.mem_singleton.mp mem ▸ inIdle))
    have freshBusy : node ∉ [Cell.busy] := fun mem =>
      notBusy (List.mem_append_right _ (List.mem_singleton.mp mem ▸ List.mem_cons_self))
    have shift : idle ++ node :: rest = idle ++ [node] ++ rest := by
      rw [List.append_assoc, List.singleton_append]
    rw [List.cons_append, shift, ← List.cons_append] at distinct notBusy
    rw [shift, List.foldl_cons]
    exact ih (idleRing.addTail fresh) (idleRing.addTail_other busyRing busyApart freshBusy)
      distinct notBusy

theorem ring_initLists {nodes : List Cell} (distinct : nodes.Nodup)
    (apart : ∀ cell ∈ nodes, cell ≠ .idle ∧ cell ≠ .busy) :
    Ring (initLists nodes) .idle nodes ∧ Ring (initLists nodes) .busy [] := by
  have distinct' : ([Cell.idle] ++ nodes).Nodup := by
    rw [List.singleton_append, List.nodup_cons]
    exact ⟨fun mem => (apart _ mem).1 rfl, distinct⟩
  have notBusy : Cell.busy ∉ [Cell.idle] ++ nodes := by
    rw [List.singleton_append, List.mem_cons, not_or]
    exact ⟨Cell.noConfusion, fun mem => (apart _ mem).2 rfl⟩
  exact ring_foldl nodes
    (ring_initListHead_of_ne (ring_initListHead ⟨id, id⟩ Cell.idle) (by decide))
    (ring_initListHead _ Cell.busy) distinct' notBusy

theorem reached_init : Reached initLogAsyncPattern nodes [] [] := by
  have rings := ring_initLists nodup_nodes fun cell mem => by
    obtain ⟨i, rfl⟩ := node_of_mem mem
    exact ⟨Cell.noConfusion, Cell.noConfusion⟩
  have noCalls : initLogAsyncPattern.calls = [] := rfl
  have links : initLogAsyncPattern.links = initLists nodes := by rw [initLogAsyncPattern]
  rw [← links] at rings
  refine ⟨rings.1, rings.2, ?_, Hand.free [], rfl, ?_, ?_⟩
  · have none : initLogAsyncPattern.held = [] := rfl
    have alone : ∀ l : List Cell, (l ++ [] ++ []).Perm l := fun l => by
      rw [List.append_nil, List.append_nil]
    exact none ▸ alone nodes
  · rw [State.held, State.counted, noCalls]
    rfl
  · exact Nat.zero_lt_succ 499

section Sections
variable {s s' : State} {idle busy unprinted : List Cell} {before later : List Call}
  {call after : Call}

theorem Reached.lists (reach : Reached s idle busy unprinted) :
    idle.length + busy.length + s.held.length = maximumLogsaveCount := by
  have count := reach.nodes.length_eq
  rw [List.length_append, List.length_append, Logger.nodes, List.length_map,
    List.length_range] at count
  exact count

theorem Reached.distinct (reach : Reached s idle busy unprinted) :
    (idle ++ busy ++ s.held).Nodup :=
  reach.nodes.nodup_iff.mpr nodup_nodes

theorem Reached.node (reach : Reached s idle busy unprinted) {cell : Cell}
    (mem : cell ∈ idle ++ busy ++ s.held) : cell ≠ .idle ∧ cell ≠ .busy := by
  obtain ⟨i, rfl⟩ := node_of_mem (reach.nodes.mem_iff.mp mem)
  exact ⟨Cell.noConfusion, Cell.noConfusion⟩

/-- The two lists have no cell in common. -/
theorem Reached.apart (reach : Reached s idle busy unprinted) :
    ∀ cell ∈ Cell.busy :: busy, cell ∉ Cell.idle :: idle := by
  intro cell mem mem'
  rcases List.mem_cons.mp mem with rfl | mem
  · rcases List.mem_cons.mp mem' with same | mem'
    · exact Cell.noConfusion same
    · exact (reach.node (List.mem_append_left _ (List.mem_append_left _ mem'))).2 rfl
  · have inBusy := List.mem_append_left s.held (List.mem_append_right idle mem)
    rcases List.mem_cons.mp mem' with rfl | mem'
    · exact (reach.node inBusy).1 rfl
    · exact (List.nodup_append.mp (List.nodup_append.mp reach.distinct).1).2.2 cell mem' cell mem
        rfl

theorem Reached.apart' (reach : Reached s idle busy unprinted) :
    ∀ cell ∈ Cell.idle :: idle, cell ∉ Cell.busy :: busy :=
  fun cell mem mem' => reach.apart cell mem' mem

/-- What the section of one call has to keep. The nodes only move between the lists and the
call, and the counter moves with them. -/
theorem Reached.change (reach : Reached s idle busy unprinted)
    {idle' busy' unprinted' : List Cell}
    (calls : s.calls = before ++ call :: later) (calls' : s'.calls = before ++ after :: later)
    (idleRing : Ring s'.links .idle idle') (busyRing : Ring s'.links .busy busy')
    (moved : (idle' ++ busy' ++ after.held.toList).Perm (idle ++ busy ++ call.held.toList))
    (hand : Hand busy' s'.inHand unprinted')
    (saved : s'.saved = s'.printed ++ unprinted'.map s'.entry)
    (pending : s'.pending + busy.length + call.held.toList.length + call.counted.toNat =
      s.pending + busy'.length + after.held.toList.length + after.counted.toNat)
    (room : busy'.length + after.held.toList.length + after.granted.toNat ≤
      busy.length + call.held.toList.length + call.granted.toNat ∨
      s'.pending < maximumLogsaveCount) :
    Reached s' idle' busy' unprinted' := by
  have held := held_eq calls
  have held' := held_eq calls'
  have count : s'.pending = busy'.length + s'.held.length + s'.counted := by
    have was := reach.pending
    rw [held, counted_eq calls, List.length_append, List.length_append] at was
    rw [held', counted_eq calls', List.length_append, List.length_append]
    omega
  refine ⟨idleRing, busyRing, ?_, hand, saved, count, ?_⟩
  · refine List.Perm.trans (List.perm_iff_count.mpr fun cell => ?_) reach.nodes
    have same := List.perm_iff_count.mp moved cell
    simp only [held, held', List.count_append] at same ⊢
    omega
  · rcases room with room | room
    · have was := reach.room
      rw [held, granted_eq calls, List.length_append, List.length_append] at was
      rw [held', granted_eq calls', List.length_append, List.length_append]
      omega
    · have few := granted_le_counted s'
      omega

/-- A section that leaves the lists, the nodes and the records as they are. -/
theorem Reached.bookkeep (reach : Reached s idle busy unprinted)
    (calls : s.calls = before ++ call :: later) (calls' : s'.calls = before ++ after :: later)
    (held : after.held = call.held) (inHand : after.inHand = call.inHand)
    (links : s'.links = s.links) (entry : s'.entry = s.entry) (saved : s'.saved = s.saved)
    (printed : s'.printed = s.printed)
    (pending : s'.pending + call.counted.toNat = s.pending + after.counted.toNat)
    (room : after.granted.toNat ≤ call.granted.toNat ∨ s'.pending < maximumLogsaveCount) :
    Reached s' idle busy unprinted := by
  have sameHand : s'.inHand = s.inHand := by rw [inHand_eq calls, inHand_eq calls', inHand]
  refine reach.change calls calls' (links ▸ reach.idleRing) (links ▸ reach.busyRing)
    (held ▸ List.Perm.refl _) (sameHand ▸ reach.hand) ?_ ?_ ?_
  · rw [saved, printed, entry]
    exact reach.saved
  · rw [held]
    omega
  · rw [held]
    omega

/-- `_get_log_cache` for a call that was let through finds a node. -/
theorem Reached.take (reach : Reached s idle busy unprinted) {order : Order} {text : Bytes}
    (calls : s.calls = before ++ .taking order text :: later) :
    ∃ first rest, getLogCache s.links = (some first, listDelInit s.links first) ∧
      Reached { s with
        links := listDelInit s.links first
        calls := before ++ .filling first order text :: later } rest busy unprinted := by
  have lists := reach.lists
  have room := reach.room
  rw [granted_eq calls] at room
  obtain ⟨first, rest, rfl⟩ : ∃ first rest, idle = first :: rest := by
    cases idle with
    | nil => rw [List.length_nil] at lists; omega
    | cons first rest => exact ⟨first, rest, rfl⟩
  have head : listFirst s.links .idle = first := reach.idleRing.next_eq
  have filled : listEmpty s.links .idle = false := by
    rw [← Bool.not_eq_true, reach.idleRing.listEmpty_iff]
    exact List.cons_ne_nil first rest
  refine ⟨first, rest, ?_, reach.change calls rfl reach.idleRing.delInit
    (reach.idleRing.delInit_other reach.busyRing reach.apart) ?_ ?_ reach.saved ?_ (.inl ?_)⟩
  · rw [getLogCache, filled, head]
    rfl
  · refine List.perm_iff_count.mpr fun cell => ?_
    simp only [Call.held, Option.toList, List.count_append, List.count_cons, List.count_nil]
    omega
  · have hand := reach.hand
    rw [inHand_eq calls] at hand
    exact (inHand_eq (s := { s with
      links := listDelInit s.links first
      calls := before ++ .filling first order text :: later }) rfl) ▸ hand
  · exact (Int.add_right_comm _ _ _)
  · exact Nat.le_refl _

/-- A node that a call holds is on neither list. -/
theorem Reached.held_fresh (reach : Reached s idle busy unprinted) {node : Cell}
    (calls : s.calls = before ++ call :: later) (held : call.held = some node) :
    node ∉ .idle :: idle ∧ node ∉ .busy :: busy := by
  have mem : node ∈ s.held := by
    rw [held_eq calls, held]
    exact List.mem_append_right _ List.mem_cons_self
  have isNode := reach.node (List.mem_append_right (idle ++ busy) mem)
  have apart := (List.nodup_append.mp reach.distinct).2.2
  constructor
  · intro inIdle
    rcases List.mem_cons.mp inIdle with same | inIdle
    · exact isNode.1 same
    · exact apart node (List.mem_append_left busy inIdle) node mem rfl
  · intro inBusy
    rcases List.mem_cons.mp inBusy with same | inBusy
    · exact isNode.2 same
    · exact apart node (List.mem_append_right idle inBusy) node mem rfl

theorem Hand.subset {hands : List (Cell × Bool)} (hand : Hand busy hands unprinted) :
    unprinted ⊆ busy := by
  cases hand with
  | free => exact List.Subset.refl busy
  | printing first rest => exact List.Subset.refl _
  | recycling first rest => exact List.subset_cons_self first _

theorem Hand.concat {hands : List (Cell × Bool)} (hand : Hand busy hands unprinted)
    (node : Cell) : Hand (busy ++ [node]) hands (unprinted ++ [node]) := by
  cases hand with
  | free => exact .free (busy ++ [node])
  | printing first rest => exact .printing first (rest ++ [node])
  | recycling first rest => exact .recycling first (unprinted ++ [node])

/-- Filling a node that is held changes no record of the busy list. -/
theorem Reached.fill (reach : Reached s idle busy unprinted) {node : Cell} {order : Order}
    {text : Bytes} (calls : s.calls = before ++ .filling node order text :: later)
    (entry : Entry) :
    Reached { s with
      entry := Function.update s.entry node entry
      calls := before ++ .adding node :: later } idle busy unprinted := by
  have fresh := (reach.held_fresh calls rfl).2
  have hand := reach.hand
  have sub := hand.subset
  rw [inHand_eq calls] at hand
  refine reach.change calls rfl reach.idleRing reach.busyRing (List.Perm.refl _) ?_ ?_ rfl
    (.inl (Nat.le_refl _))
  · exact (inHand_eq (s := { s with
      entry := Function.update s.entry node entry
      calls := before ++ .adding node :: later }) rfl) ▸ hand
  · have same : unprinted.map (Function.update s.entry node entry) = unprinted.map s.entry :=
      List.map_congr_left fun cell mem => Function.update_of_ne
        (fun here : cell = node => fresh (here ▸ List.mem_cons_of_mem .busy (sub mem))) _ _
    exact reach.saved.trans (congrArg (s.printed ++ ·) same.symm)

/-- A filled node goes behind the busy list, and its record is one more to print. -/
theorem Reached.add (reach : Reached s idle busy unprinted) {node : Cell}
    (calls : s.calls = before ++ .adding node :: later) :
    Reached { s with
      links := listAddTail s.links node .busy
      saved := s.saved ++ [s.entry node]
      calls := before ++ .returned :: later } idle (busy ++ [node]) (unprinted ++ [node]) := by
  have fresh := reach.held_fresh calls rfl
  have hand := reach.hand.concat node
  rw [inHand_eq calls] at hand
  refine reach.change calls rfl (reach.busyRing.addTail_other reach.idleRing reach.apart' fresh.1)
    (reach.busyRing.addTail fresh.2) ?_ ?_ ?_ ?_ (.inl ?_)
  · refine List.perm_iff_count.mpr fun cell => ?_
    simp only [Call.held, Option.toList, List.count_append, List.count_nil]
    omega
  · exact (inHand_eq (s := { s with
      links := listAddTail s.links node .busy
      saved := s.saved ++ [s.entry node]
      calls := before ++ .returned :: later }) rfl) ▸ hand
  · have was := reach.saved
    show s.saved ++ [s.entry node] = s.printed ++ (unprinted ++ [node]).map s.entry
    rw [was, List.map_append, List.append_assoc]
    rfl
  · rw [List.length_append]
    simp only [Call.held, Option.toList, Call.counted, List.length_cons, List.length_nil]
    omega
  · rw [List.length_append]
    exact Nat.le_refl _

/-- The first node of the busy list is found when none is in hand. -/
theorem Reached.peek (reach : Reached s idle busy unprinted)
    (calls : s.calls = before ++ .peeking :: later) (free : s.inHand = []) :
    Reached { s with
      calls := before ++
        (if listEmpty s.links .busy then .returned else .printing (listFirst s.links .busy))
          :: later } idle busy unprinted := by
  have hand := reach.hand
  have noneBefore := free
  rw [inHand_eq calls, List.append_eq_nil_iff, List.append_eq_nil_iff] at noneBefore
  rw [free] at hand
  cases hand
  cases busy with
  | nil =>
    rw [if_pos (reach.busyRing.listEmpty_iff.mpr rfl)]
    refine reach.bookkeep calls rfl rfl rfl rfl rfl rfl rfl rfl (.inl (Nat.le_refl _))
  | cons first rest =>
    have head : listFirst s.links .busy = first := reach.busyRing.next_eq
    have filled : ¬ listEmpty s.links .busy := fun none =>
      List.cons_ne_nil first rest (reach.busyRing.listEmpty_iff.mp none)
    rw [if_neg filled, head]
    refine reach.change calls rfl reach.idleRing reach.busyRing (List.Perm.refl _) ?_ reach.saved
      rfl (.inl (Nat.le_refl _))
    rw [inHand_eq (s := { s with calls := before ++ .printing first :: later }) rfl,
      noneBefore.1, noneBefore.2.2]
    exact .printing first rest

/-- The other calls have no node in hand when this one has. -/
theorem Reached.only (reach : Reached s idle busy unprinted) {node : Cell} {shown : Bool}
    (calls : s.calls = before ++ call :: later) (inHand : call.inHand = some (node, shown)) :
    before.filterMap Call.inHand = [] ∧ later.filterMap Call.inHand = [] ∧
      ∃ rest, busy = node :: rest ∧
        unprinted = if shown then rest else node :: rest := by
  have hand := reach.hand
  have whole := inHand_eq calls
  rw [inHand] at whole
  generalize s.inHand = hands at hand whole
  have one : hands = [(node, shown)] ∧ before.filterMap Call.inHand = [] ∧
      later.filterMap Call.inHand = [] := by
    have few : hands.length ≤ 1 := by
      cases hand with
      | free => exact Nat.zero_le 1
      | printing => exact Nat.le_refl 1
      | recycling => exact Nat.le_refl 1
    rw [whole, List.length_append, List.length_append, Option.toList, List.length_singleton] at few
    have none : before.filterMap Call.inHand = [] := List.eq_nil_of_length_eq_zero (by omega)
    have none' : later.filterMap Call.inHand = [] := List.eq_nil_of_length_eq_zero (by omega)
    rw [none, none'] at whole
    exact ⟨whole, none, none'⟩
  refine ⟨one.2.1, one.2.2, ?_⟩
  rw [one.1] at hand
  cases hand with
  | printing first rest => exact ⟨rest, rfl, rfl⟩
  | recycling first rest => exact ⟨unprinted, rfl, rfl⟩

theorem Reached.print (reach : Reached s idle busy unprinted) {node : Cell}
    (calls : s.calls = before ++ .printing node :: later) :
    ∃ rest, Reached { s with
      printed := s.printed ++ [s.entry node]
      calls := before ++ .recycling node :: later } idle busy rest := by
  obtain ⟨none, none', rest, rfl, rfl⟩ := reach.only calls rfl
  refine ⟨rest, reach.change calls rfl reach.idleRing reach.busyRing (List.Perm.refl _) ?_ ?_ rfl
    (.inl (Nat.le_refl _))⟩
  · rw [inHand_eq (s := { s with
      printed := s.printed ++ [s.entry node]
      calls := before ++ .recycling node :: later }) rfl, none, none']
    exact .recycling node rest
  · refine reach.saved.trans ?_
    exact (List.append_assoc s.printed [s.entry node] (rest.map s.entry)).symm

theorem Reached.recycle (reach : Reached s idle busy unprinted) {node : Cell}
    (calls : s.calls = before ++ .recycling node :: later) :
    ∃ rest, busy = node :: rest ∧ Reached { s with
      links := recycleLogCache s.links node
      calls := before ++ .discounting :: later } (idle ++ [node]) rest rest := by
  obtain ⟨none, none', rest, rfl, whole⟩ := reach.only calls rfl
  obtain rfl : rest = unprinted := whole.symm
  have idleRing := reach.busyRing.delInit_other reach.idleRing reach.apart'
  have fresh : node ∉ .idle :: idle := reach.apart node (List.mem_cons_of_mem _ List.mem_cons_self)
  have gone : node ∉ .busy :: rest := by
    obtain ⟨notHead, distinct⟩ := List.nodup_cons.mp reach.busyRing.distinct
    intro mem
    rcases List.mem_cons.mp mem with rfl | mem
    · exact notHead List.mem_cons_self
    · exact (List.nodup_cons.mp distinct).1 mem
  have apart : ∀ cell ∈ Cell.busy :: rest, cell ∉ Cell.idle :: idle := fun cell mem =>
    reach.apart cell (by
      rcases List.mem_cons.mp mem with rfl | mem
      · exact List.mem_cons_self
      · exact List.mem_cons_of_mem _ (List.mem_cons_of_mem _ mem))
  refine ⟨rest, rfl, reach.change calls rfl (idleRing.addTail fresh)
    (idleRing.addTail_other reach.busyRing.delInit apart gone) ?_ ?_ reach.saved ?_ (.inl ?_)⟩
  · refine List.perm_iff_count.mpr fun cell => ?_
    simp only [Call.held, Option.toList, List.count_append, List.count_cons, List.count_nil]
    omega
  · rw [inHand_eq (s := { s with
      links := recycleLogCache s.links node
      calls := before ++ .discounting :: later }) rfl, none, none']
    exact .free rest
  · simp only [Call.held, Option.toList, Call.counted, List.length_cons, List.length_nil,
      Bool.toNat_true, Bool.toNat_false]
    omega
  · exact Nat.le_succ _

end Sections

section Runs
variable (pename : Option Bytes) {s : State} {i : Nat} {idle busy unprinted : List Cell}

theorem advance_eq {call : Call} (here : s.calls[i]? = some call) :
    advance pename s i =
      { (perform pename s call).2 with calls := s.calls.set i (perform pename s call).1 } := by
  rw [advance, here]

theorem advance_none (here : s.calls[i]? = none) : advance pename s i = s := by
  rw [advance, here]

/-- What one section keeps, by the call that steps. -/
theorem Reached.advance (reach : Reached s idle busy unprinted)
    (undisturbed : Undisturbed s (.advance i)) :
    ∃ idle' busy' unprinted', Reached (advance pename s i) idle' busy' unprinted' := by
  cases here : s.calls[i]? with
  | none => exact ⟨idle, busy, unprinted, (advance_none pename here).symm ▸ reach⟩
  | some call =>
    obtain ⟨before, later, _, calls, set⟩ := call_at here
    rw [advance_eq pename here, set]
    cases call with
    | counting order text =>
      have more := Int.add_zero (s.pending + 1)
      refine ⟨idle, busy, unprinted, ?_⟩
      dsimp only [perform]
      split_ifs with many danger
      · exact reach.bookkeep calls rfl rfl rfl rfl rfl rfl rfl more (.inl (Nat.le_refl 0))
      · exact reach.bookkeep calls rfl rfl rfl rfl rfl rfl rfl more (.inr (Int.not_le.mp many))
      · exact reach.bookkeep calls rfl rfl rfl rfl rfl rfl rfl more (.inr (Int.not_le.mp many))
    | uncounting =>
      have less := (Int.sub_add_cancel s.pending 1).trans (Int.add_zero s.pending).symm
      exact ⟨idle, busy, unprinted,
        reach.bookkeep calls rfl rfl rfl rfl rfl rfl rfl less (.inl (Nat.le_refl 0))⟩
    | checking order text =>
      refine ⟨idle, busy, unprinted, ?_⟩
      dsimp only [perform]
      split_ifs
      · exact reach.bookkeep calls rfl rfl rfl rfl rfl rfl rfl rfl (.inl (Nat.le_refl 1))
      · exact reach.bookkeep calls rfl rfl rfl rfl rfl rfl rfl rfl (.inl (Nat.le_refl 1))
    | alarming order text =>
      exact ⟨idle, busy, unprinted,
        reach.bookkeep calls rfl rfl rfl rfl rfl rfl rfl rfl (.inl (Nat.le_refl 1))⟩
    | taking order text =>
      obtain ⟨first, rest, found, taken⟩ := reach.take calls
      refine ⟨rest, busy, unprinted, ?_⟩
      dsimp only [perform]
      rw [found]
      exact taken
    | filling node order text => exact ⟨idle, busy, unprinted, reach.fill calls _⟩
    | adding node => exact ⟨idle, busy ++ [node], unprinted ++ [node], reach.add calls⟩
    | peeking => exact ⟨idle, busy, unprinted, reach.peek calls (undisturbed here)⟩
    | printing node =>
      obtain ⟨rest, shown⟩ := reach.print calls
      exact ⟨idle, busy, rest, shown⟩
    | recycling node =>
      obtain ⟨rest, _, recycled⟩ := reach.recycle calls
      exact ⟨idle ++ [node], rest, rest, recycled⟩
    | discounting =>
      have less := (Int.sub_add_cancel s.pending 1).trans (Int.add_zero s.pending).symm
      refine ⟨idle, busy, unprinted, ?_⟩
      dsimp only [perform]
      split_ifs
      · exact reach.bookkeep calls rfl rfl rfl rfl rfl rfl rfl less (.inl (Nat.le_refl 0))
      · exact reach.bookkeep calls rfl rfl rfl rfl rfl rfl rfl less (.inl (Nat.le_refl 0))
    | relieving =>
      refine ⟨idle, busy, unprinted, ?_⟩
      dsimp only [perform]
      split_ifs
      · exact reach.bookkeep calls rfl rfl rfl rfl rfl rfl rfl rfl (.inl (Nat.le_refl 0))
      · exact reach.bookkeep calls rfl rfl rfl rfl rfl rfl rfl rfl (.inl (Nat.le_refl 0))
    | calming =>
      exact ⟨idle, busy, unprinted,
        reach.bookkeep calls rfl rfl rfl rfl rfl rfl rfl rfl (.inl (Nat.le_refl 0))⟩
    | returned =>
      exact ⟨idle, busy, unprinted,
        reach.bookkeep calls rfl rfl rfl rfl rfl rfl rfl rfl (.inl (Nat.le_refl 0))⟩

/-- A call that begins holds nothing. -/
theorem Reached.begin (reach : Reached s idle busy unprinted) (call : Call)
    (held : call.held = none) (inHand : call.inHand = none) (counted : call.counted = false)
    (granted : call.granted = false) :
    Reached { s with calls := s.calls ++ [call] } idle busy unprinted := by
  have heldAfter : State.held { s with calls := s.calls ++ [call] } = s.held := by
    rw [State.held, List.filterMap_append, List.filterMap_cons, held]
    exact List.append_nil _
  have handAfter : State.inHand { s with calls := s.calls ++ [call] } = s.inHand := by
    rw [State.inHand, List.filterMap_append, List.filterMap_cons, inHand]
    exact List.append_nil _
  have countedAfter : State.counted { s with calls := s.calls ++ [call] } = s.counted := by
    rw [State.counted, List.countP_append, List.countP_cons, counted]
    rfl
  have grantedAfter : State.granted { s with calls := s.calls ++ [call] } = s.granted := by
    rw [State.granted, List.countP_append, List.countP_cons, granted]
    rfl
  exact ⟨reach.idleRing, reach.busyRing, heldAfter.symm ▸ reach.nodes, handAfter.symm ▸ reach.hand,
    reach.saved, by rw [heldAfter, countedAfter]; exact reach.pending,
    by rw [heldAfter, grantedAfter]; exact reach.room⟩

theorem Reached.step (reach : Reached s idle busy unprinted) {act : Act}
    (undisturbed : Undisturbed s act) :
    ∃ idle' busy' unprinted', Reached (step pename s act) idle' busy' unprinted' := by
  cases act with
  | logSave order =>
    dsimp only [Logger.step]
    cases order.format with
    | none => exact ⟨idle, busy, unprinted, reach⟩
    | some text =>
      dsimp only
      split_ifs
      · exact ⟨idle, busy, unprinted, reach⟩
      · exact ⟨idle, busy, unprinted, reach.begin _ rfl rfl rfl rfl⟩
  | logFlush => exact ⟨idle, busy, unprinted, reach.begin _ rfl rfl rfl rfl⟩
  | advance i => exact reach.advance pename undisturbed

theorem Reached.run (reach : Reached s idle busy unprinted) {acts : List Act}
    (disciplined : Disciplined pename s acts) :
    ∃ idle' busy' unprinted', Reached (run pename s acts) idle' busy' unprinted' := by
  induction acts generalizing s idle busy unprinted with
  | nil => exact ⟨idle, busy, unprinted, reach⟩
  | cons act acts ih =>
    obtain ⟨idle', busy', unprinted', reach'⟩ := reach.step pename disciplined.1
    exact ih reach' disciplined.2

end Runs

/-! ## A flush on its own -/

section Turns
variable {pename : Option Bytes} {s : State} {i : Nat}

/-- From `s` the call `i` gets to `s'` while no other call steps. -/
def Turns (pename : Option Bytes) (i : Nat) (s s' : State) : Prop :=
  ∃ n, run pename s (List.replicate n (.advance i)) = s'

theorem Turns.refl (s : State) : Turns pename i s s := ⟨0, rfl⟩

theorem Turns.head {s' s'' : State} (once : Logger.advance pename s i = s')
    (turns : Turns pename i s' s'') : Turns pename i s s'' := by
  obtain ⟨n, rfl⟩ := turns
  exact ⟨n + 1, once ▸ rfl⟩

theorem Turns.trans {s' s'' : State} (first : Turns pename i s s')
    (second : Turns pename i s' s'') : Turns pename i s s'' := by
  obtain ⟨n, rfl⟩ := first
  obtain ⟨m, rfl⟩ := second
  refine ⟨n + m, ?_⟩
  rw [List.replicate_add, run_append]

end Turns

section Drains
variable (pename : Option Bytes) {s : State} {idle busy unprinted : List Cell}
  {before later : List Call}

theorem advance_split {call : Call} (calls : s.calls = before ++ call :: later) :
    Logger.advance pename s before.length =
      { (perform pename s call).2 with
        calls := before ++ (perform pename s call).1 :: later } := by
  have here : s.calls[before.length]? = some call := by
    rw [calls, List.getElem?_append_right (Nat.le_refl _), Nat.sub_self]
    rfl
  rw [advance_eq pename here, calls, List.set_append_right _ _ (Nat.le_refl _), Nat.sub_self]
  rfl

/-- After a node was recycled its flush counts it down and comes back to its loop. -/
theorem Reached.settle (reach : Reached s idle busy unprinted)
    (calls : s.calls = before ++ .discounting :: later) :
    ∃ s', Turns pename before.length s s' ∧ Reached s' idle busy unprinted ∧
      s'.calls = before ++ .peeking :: later ∧ s'.saved = s.saved := by
  have less := (Int.sub_add_cancel s.pending 1).trans (Int.add_zero s.pending).symm
  have counted := advance_split pename calls
  by_cases low : s.pending - 1 < safeLogsaveCount
  · rw [perform, if_pos low] at counted
    have there := advance_split pename (s := { s with
      pending := s.pending - 1, calls := before ++ .relieving :: later }) rfl
    by_cases danger : s.warning = .danger
    · rw [perform, if_pos danger] at there
      exact ⟨_, .head counted (.head there (.head (advance_split pename rfl) (.refl _))),
        reach.bookkeep calls rfl rfl rfl rfl rfl rfl rfl less (.inl (Nat.le_refl 0)), rfl, rfl⟩
    · rw [perform, if_neg danger] at there
      exact ⟨_, .head counted (.head there (.refl _)),
        reach.bookkeep calls rfl rfl rfl rfl rfl rfl rfl less (.inl (Nat.le_refl 0)), rfl, rfl⟩
  · rw [perform, if_neg low] at counted
    exact ⟨_, .head counted (.refl _),
      reach.bookkeep calls rfl rfl rfl rfl rfl rfl rfl less (.inl (Nat.le_refl 0)), rfl, rfl⟩

/-- One round of the loop of `log_flush`. -/
theorem Reached.round {first : Cell} {rest : List Cell}
    (reach : Reached s idle (first :: rest) unprinted)
    (calls : s.calls = before ++ .peeking :: later) (free : s.inHand = []) :
    ∃ s' idle', Turns pename before.length s s' ∧ Reached s' idle' rest rest ∧
      s'.calls = before ++ .peeking :: later ∧ s'.inHand = [] ∧ s'.saved = s.saved := by
  have peeked := reach.peek calls free
  have head : listFirst s.links .busy = first := reach.busyRing.next_eq
  have filled : ¬ listEmpty s.links .busy := fun none =>
    List.cons_ne_nil first rest (reach.busyRing.listEmpty_iff.mp none)
  have found := advance_split pename calls
  dsimp only [perform] at found
  rw [if_neg filled, head] at peeked found
  obtain ⟨_, printed⟩ := peeked.print rfl
  obtain ⟨_, whole, recycled⟩ := printed.recycle rfl
  cases whole
  obtain ⟨s', turns, reached, calls', saved⟩ := recycled.settle pename rfl
  refine ⟨s', _,
    .head found (.head (advance_split pename rfl) (.head (advance_split pename rfl) turns)),
    reached, calls', ?_, saved⟩
  rw [inHand_eq calls, List.append_eq_nil_iff, List.append_eq_nil_iff] at free
  rw [inHand_eq calls', free.1, free.2.2]
  rfl

/-- A flush that nothing disturbs returns, and then every record has been printed. -/
theorem Reached.drain (reach : Reached s idle busy unprinted)
    (calls : s.calls = before ++ .peeking :: later) (free : s.inHand = []) :
    ∃ s', Turns pename before.length s s' ∧ s'.calls = before ++ .returned :: later ∧
      s'.printed = s.saved ∧ s'.saved = s.saved := by
  induction busy generalizing s idle unprinted with
  | nil =>
    have found := advance_split pename calls
    dsimp only [perform] at found
    rw [if_pos (reach.busyRing.listEmpty_iff.mpr rfl)] at found
    refine ⟨_, .head found (.refl _), rfl, ?_, rfl⟩
    have saved := reach.saved
    rw [List.subset_nil.mp reach.hand.subset, List.map_nil, List.append_nil] at saved
    exact saved.symm
  | cons first rest ih =>
    obtain ⟨s₁, _, turns, reached, calls₁, free₁, saved₁⟩ := reach.round pename calls free
    obtain ⟨s', turns', returned, printed, saved⟩ := ih reached calls₁ free₁
    exact ⟨s', turns.trans turns', returned, printed.trans saved₁, saved.trans saved₁⟩

end Drains

/-! ## The counters and the records in every run -/

/-- The records are printed in the order in which they were saved, and a flush that is not
disturbed prints all that are left. Every node is on the idle list, on the busy list or held
by a `log_save`, and the counter is the number of nodes that are not idle and of calls
between the counter and the lists. -/
structure Sound (pename : Option Bytes) (s : State) : Prop where
  once : ∃ waiting, s.saved = s.printed ++ waiting
  shown : listEmpty s.links .busy → s.printed = s.saved
  drains : ∀ i, s.calls[i]? = some .peeking → s.inHand = [] →
    ∃ s', Turns pename i s s' ∧ s'.calls[i]? = some .returned ∧
      s'.printed = s.saved ∧ s'.saved = s.saved
  lists : ∃ idle busy, Ring s.links .idle idle ∧ Ring s.links .busy busy ∧
    (idle ++ busy ++ s.held).Perm nodes ∧
    idle.length + busy.length + s.held.length = maximumLogsaveCount ∧
    s.pending = (busy.length + s.held.length : Nat) + s.counted
  nonneg : 0 ≤ s.pending

theorem Reached.sound {s : State} {idle busy unprinted : List Cell} (pename : Option Bytes)
    (reach : Reached s idle busy unprinted) : Sound pename s := by
  refine ⟨⟨_, reach.saved⟩, fun none => ?_, fun i here free => ?_,
    ⟨idle, busy, reach.idleRing, reach.busyRing, reach.nodes, reach.lists, ?_⟩, ?_⟩
  · have saved := reach.saved
    obtain rfl := reach.busyRing.listEmpty_iff.mp none
    rw [List.subset_nil.mp reach.hand.subset, List.map_nil, List.append_nil] at saved
    exact saved.symm
  · obtain ⟨before, later, rfl, calls, _⟩ := call_at here
    obtain ⟨s', turns, returned, printed, saved⟩ := reach.drain pename calls free
    refine ⟨s', turns, ?_, printed, saved⟩
    rw [returned, List.getElem?_append_right (Nat.le_refl _), Nat.sub_self]
    rfl
  · rw [reach.pending, Int.natCast_add]
  · rw [reach.pending]
    omega

/-- In every run in which no flush looks at the busy list while another one has its head in
hand. -/
theorem sound_run (pename : Option Bytes) (acts : List Act)
    (disciplined : Disciplined pename initLogAsyncPattern acts) :
    Sound pename (run pename initLogAsyncPattern acts) := by
  obtain ⟨_, _, _, reach⟩ := reached_init.run pename disciplined
  exact reach.sound pename

def greeting : Order := ⟨some [], 0, 0, 0, some [104, 105]⟩

def farewell : Order := ⟨some [], 0, 0, 0, some [98, 121, 101]⟩

/-- Two records are saved side by side, and a flush prints both. -/
def savedAndPrinted : List Act :=
  [.logSave greeting, .logSave farewell, .logFlush] ++
    [0, 1, 0, 1, 0, 1, 1, 0].map .advance ++ (List.replicate 11 2).map .advance

theorem sound_run_printed :
    Disciplined none initLogAsyncPattern savedAndPrinted ∧
      Sound none (run none initLogAsyncPattern savedAndPrinted) ∧
      ((run none initLogAsyncPattern savedAndPrinted).printed.map Entry.logstr) =
        [[98, 121, 101], [104, 105]] ∧
      (run none initLogAsyncPattern savedAndPrinted).calls = [.returned, .returned, .returned] := by
  have disciplined : Disciplined none initLogAsyncPattern savedAndPrinted := by decide +kernel
  exact ⟨disciplined, sound_run none _ disciplined, by decide +kernel, by decide +kernel⟩

/-! ## Two flushes at once -/

/-- Two flushes that look at the busy list one after the other print its head twice. -/
theorem print_twice (pename : Option Bytes) {s : State} {i j : Nat} {first : Cell}
    {rest : List Cell} (ring : Ring s.links .busy (first :: rest))
    (here : s.calls[i]? = some .peeking) (there : s.calls[j]? = some .peeking) (two : i ≠ j) :
    (run pename s [.advance i, .advance j, .advance i, .advance j]).printed =
        s.printed ++ [s.entry first, s.entry first] ∧
      (run pename s [.advance i, .advance j, .advance i, .advance j]).saved = s.saved := by
  have head : listFirst s.links .busy = first := ring.next_eq
  have filled : ¬ listEmpty s.links .busy := fun none =>
    List.cons_ne_nil first rest (ring.listEmpty_iff.mp none)
  have peeked : perform pename s .peeking = (.printing first, s) := by
    rw [perform, if_neg filled, head]
  let s₁ : State := { s with calls := s.calls.set i (.printing first) }
  let s₂ : State := { s₁ with calls := s₁.calls.set j (.printing first) }
  let s₃ : State :=
    { s₂ with printed := s.printed ++ [s.entry first], calls := s₂.calls.set i (.recycling first) }
  have e₁ : advance pename s i = s₁ := by rw [advance_eq pename here, peeked]
  have there₁ : s₁.calls[j]? = some .peeking := (List.getElem?_set_ne two).trans there
  have peeked₁ : perform pename s₁ .peeking = (.printing first, s₁) := by
    rw [perform, if_neg filled, head]
  have e₂ : advance pename s₁ j = s₂ := by rw [advance_eq pename there₁, peeked₁]
  have here₂ : s₂.calls[i]? = some (.printing first) :=
    (List.getElem?_set_ne two.symm).trans
      (List.getElem?_set_self (List.getElem?_eq_some_iff.mp here).1)
  have there₂ : s₂.calls[j]? = some (.printing first) :=
    List.getElem?_set_self (List.getElem?_eq_some_iff.mp there₁).1
  have e₃ : advance pename s₂ i = s₃ := advance_eq pename here₂
  have there₃ : s₃.calls[j]? = some (.printing first) :=
    (List.getElem?_set_ne two).trans there₂
  have whole : run pename s [.advance i, .advance j, .advance i, .advance j] =
      { s₃ with
        printed := s.printed ++ [s.entry first] ++ [s.entry first]
        calls := s₃.calls.set j (.recycling first) } :=
    calc run pename s [.advance i, .advance j, .advance i, .advance j]
        = advance pename (advance pename (advance pename (advance pename s i) j) i) j := rfl
      _ = advance pename s₃ j := by rw [e₁, e₂, e₃]
      _ = _ := advance_eq pename there₃
  rw [whole]
  exact ⟨List.append_assoc _ _ _, rfl⟩

/-- What the counters and the records were meant to satisfy in every state, whatever calls
are under way. -/
structure Settled (s : State) : Prop where
  once : ∀ record, s.printed.count record ≤ s.saved.count record
  lists : ∀ idle busy, Ring s.links .idle idle → Ring s.links .busy busy →
    idle.length + busy.length + s.held.length = maximumLogsaveCount
  pending : ∀ idle, Ring s.links .idle idle → s.pending + idle.length = maximumLogsaveCount
  nonneg : 0 ≤ s.pending

theorem count_alone (pename : Option Bytes) {s : State} (rest : s.pending = 0) (order : Order)
    (text : Bytes) :
    advance pename { s with calls := [.counting order text] } 0 =
      { s with pending := s.pending + 1, calls := [.taking order text] } := by
  let s₀ : State := { s with calls := [.counting order text] }
  have few : ¬ s.pending + 1 ≥ maximumLogsaveCount := by rw [rest]; decide
  have calm : ¬ s.pending + 1 ≥ warningLogsaveCount := by rw [rest]; decide
  have counted := advance_split pename (show s₀.calls = [] ++ .counting order text :: [] from rfl)
  dsimp only [perform, s₀] at counted
  rwa [if_neg few, if_neg calm] at counted

/-- A call of `log_save` on its own, before which the log is at rest, saves its record. -/
theorem save_alone (pename : Option Bytes) {s : State} {idle : List Cell}
    (reach : Reached s idle [] []) (rest : s.pending = 0) (calls : s.calls = []) (order : Order)
    (text : Bytes) :
    ∃ first idle', ∃ s' : State,
      run pename { s with calls := [.counting order text] } (List.replicate 4 (.advance 0)) = s' ∧
      Reached s' idle' [first] [first] ∧ s'.calls = [.returned] ∧ s'.printed = s.printed ∧
      s'.saved = s.saved ++ [s'.entry first] := by
  let s₀ : State := { s with calls := [.counting order text] }
  let s₁ : State := { s with pending := s.pending + 1, calls := [.taking order text] }
  have calls₀ : s₀.calls = [] ++ .counting order text :: [] := rfl
  have calls₁ : s₁.calls = [] ++ .taking order text :: [] := rfl
  have few : ¬ s.pending + 1 ≥ maximumLogsaveCount := by rw [rest]; decide
  have reach₀ : Reached s₀ idle [] [] := by
    have begun := reach.begin (.counting order text) rfl rfl rfl rfl
    rwa [calls] at begun
  have e₀ : advance pename s₀ 0 = s₁ := count_alone pename rest order text
  have reach₁ : Reached s₁ idle [] [] := reach₀.bookkeep calls₀ calls₁ rfl rfl rfl rfl rfl rfl
    (Int.add_zero _) (.inr (Int.not_le.mp few))
  obtain ⟨first, idle', found, reach₂⟩ := reach₁.take calls₁
  let s₂ : State := { s₁ with
    links := listDelInit s.links first, calls := [.filling first order text] }
  let s₃ : State := { s₂ with
    entry := Function.update s.entry first (fill pename (s.entry first) order text)
    calls := [.adding first] }
  let s₄ : State := { s₃ with
    links := listAddTail s₃.links first .busy
    saved := s.saved ++ [s₃.entry first]
    calls := [.returned] }
  have e₁ : advance pename s₁ 0 = s₂ := by
    have taken := advance_split pename calls₁
    dsimp only [perform] at taken
    rwa [found] at taken
  have calls₂ : s₂.calls = [] ++ .filling first order text :: [] := rfl
  have calls₃ : s₃.calls = [] ++ .adding first :: [] := rfl
  have e₂ : advance pename s₂ 0 = s₃ := advance_split pename calls₂
  have e₃ : advance pename s₃ 0 = s₄ := advance_split pename calls₃
  have reach₃ : Reached s₃ idle' [] [] := reach₂.fill (s := s₂) calls₂ _
  have reach₄ : Reached s₄ idle' [first] [first] := reach₃.add calls₃
  refine ⟨first, idle', s₄, ?_, reach₄, rfl, rfl, rfl⟩
  calc run pename s₀ (List.replicate 4 (.advance 0))
      = advance pename (advance pename (advance pename (advance pename s₀ 0) 0) 0) 0 := rfl
    _ = s₄ := by rw [e₀, e₁, e₂, e₃]

section Unsettled
variable {s : State} {idle : List Cell}

theorem save_greeting (calls : s.calls = []) (acts : List Act) :
    run none s (.logSave greeting :: acts) =
      run none { s with calls := [.counting greeting [104, 105]] } acts := by
  have begun : step none s (.logSave greeting) =
      { s with calls := s.calls ++ [.counting greeting [104, 105]] } := rfl
  rw [calls] at begun
  exact congrArg (run none · acts) begun

/-- While a call stands between the counter and the lists the two differ. -/
theorem count_not_settled (reach : Reached s idle [] []) (rest : s.pending = 0)
    (calls : s.calls = []) : ¬ Settled (run none s [.logSave greeting, .advance 0]) := by
  intro settled
  have lists := reach.lists
  have once : run none s [.logSave greeting, .advance 0] =
      { s with pending := s.pending + 1, calls := [.taking greeting [104, 105]] } := by
    rw [save_greeting calls]
    exact count_alone none rest greeting [104, 105]
  rw [once] at settled
  have wrong := settled.pending idle reach.idleRing
  rw [State.held, calls, List.filterMap_nil, List.length_nil] at lists
  dsimp only at wrong
  omega

/-- Two flushes at once print a record twice. -/
theorem twice_not_settled (reach : Reached s idle [] []) (rest : s.pending = 0)
    (calls : s.calls = []) (fresh : s.printed = []) (unsaved : s.saved = []) :
    ¬ Settled (run none s (.logSave greeting :: (List.replicate 4 (.advance 0) ++
      [.logFlush, .logFlush, .advance 1, .advance 2, .advance 1, .advance 2]))) := by
  obtain ⟨first, idle, s₁, saves, reached, calls₁, printed, saved⟩ :=
    save_alone none reach rest calls greeting [104, 105]
  let s₂ : State := { s₁ with calls := [.returned, .peeking, .peeking] }
  have begun : step none (step none s₁ .logFlush) .logFlush = s₂ := by
    rw [step, step, calls₁]
    rfl
  have twice := print_twice none (s := s₂) (i := 1) (j := 2) reached.busyRing rfl rfl (by decide)
  have whole : run none s (.logSave greeting :: (List.replicate 4 (.advance 0) ++
      [.logFlush, .logFlush, .advance 1, .advance 2, .advance 1, .advance 2])) =
      run none s₂ [.advance 1, .advance 2, .advance 1, .advance 2] := by
    rw [save_greeting calls, run_append, saves, ← begun]
    rfl
  intro settled
  rw [whole] at settled
  have once := settled.once (s₁.entry first)
  have shownTwice : s₂.printed ++ [s₂.entry first, s₂.entry first] =
      [s₁.entry first, s₁.entry first] := by
    show s₁.printed ++ _ = _
    rw [printed, fresh]
    rfl
  have savedOnce : s₂.saved = [s₁.entry first] := by
    show s₁.saved = _
    rw [saved, unsaved]
    rfl
  rw [twice.1, twice.2, shownTwice, savedOnce, List.count_cons_self, List.count_cons_self] at once
  exact Nat.not_succ_le_self _ once

end Unsettled

theorem not_settled :
    ¬ Settled (run none initLogAsyncPattern [.logSave greeting, .advance 0]) ∧
      ¬ Settled (run none initLogAsyncPattern (.logSave greeting ::
        (List.replicate 4 (.advance 0) ++
          [.logFlush, .logFlush, .advance 1, .advance 2, .advance 1, .advance 2]))) :=
  ⟨count_not_settled reached_init rfl rfl, twice_not_settled reached_init rfl rfl rfl rfl⟩

end Logger
