import Cfgd.SendPath
import Mathlib.Data.List.Nodup

/-!
# The order of the bytes on a link

The kernel gets the packets of the successful calls in the order of the calls, without a
gap, whether a packet is sent directly, in part, or from the queue.
-/

namespace SendOrder

open CText SendPath Transition

/-- The packets of the calls that returned success. -/
def reported (s : State) : List Bytes :=
  (s.returned.filter fun call => call.2 = 0).map Prod.fst

/-- The bytes of the call in progress that are with the kernel or in the queue. -/
def begun : Caller → Bytes
  | .sending node | .queueing node => node.taken
  | .registering node | .registered node => node.data
  | _ => []

/-- The packet of the call in progress, once a byte of it is. -/
def underWay : Caller → List Bytes
  | .sending node | .queueing node => if node.taken = [] then [] else [node.data]
  | .registering node | .registered node => [node.data]
  | _ => []

/-- The bytes that the kernel has still to get from the queue. -/
def waiting (fifo : List TxNode) : Bytes := (fifo.map TxNode.rest).flatten

/-! ## The queue -/

/-- The flag and the size, when the lock is free and when the caller has it. -/
structure Counted (s : State) : Prop where
  free : ¬ s.caller.holdsLock → s.size = s.fifo.length ∧ (s.txOverflow = true ↔ 0 < s.size)
  locked : s.caller.holdsLock → s.fifo.length = 1 ∧ s.size = 0 ∧ s.txOverflow = false
  bound : s.size ≤ maximumFifoSize

section Counted
variable {s t : State}

theorem counted_initial : Counted initial := by
  constructor
  · exact fun _ => ⟨rfl, by decide⟩
  · exact fun locked => locked.elim
  · decide

theorem Counted.same (counted : Counted s) (lock : t.caller.holdsLock ↔ s.caller.holdsLock)
    (length : t.fifo.length = s.fifo.length) (size : t.size = s.size)
    (flag : t.txOverflow = s.txOverflow) : Counted t := by
  constructor
  · intro free
    rw [size, length, flag]
    exact counted.free fun locked => free (lock.mpr locked)
  · intro locked
    rw [size, length, flag]
    exact counted.locked (lock.mp locked)
  · rw [size]
    exact counted.bound

/-- Steps of a caller that has not got the lock and does not take it. -/
theorem Counted.moved (counted : Counted s) {caller : Caller} (free : ¬ s.caller.holdsLock)
    (stays : ¬ caller.holdsLock) (calls : Nat) (kernel : Bytes) (returned : List (Bytes × Int)) :
    Counted { s with caller := caller, calls := calls, kernel := kernel, returned := returned } :=
  counted.same (iff_of_false stays free) rfl rfl rfl

theorem length_advance (fifo : List TxNode) (number wcb : Nat) :
    (advance fifo number wcb).length = fifo.length := List.length_map _

theorem free_of_caller {caller : Caller} (here : s.caller = caller) (free : ¬ caller.holdsLock) :
    ¬ s.caller.holdsLock := here ▸ free

theorem counted_step {a : Act} (counted : Counted s) (change : Change s a t) : Counted t := by
  have sizes : maximumFifoSize = 100 := rfl
  cases change with
  | refused idle | called idle =>
    exact counted.moved (free_of_caller idle id) id _ _ _
  | overflow here | direct here | callerAccepted here | callerBlocked here | callerSent here
  | full here =>
    exact counted.moved (free_of_caller here id) id _ _ _
  | queued here room flag =>
    obtain ⟨size, flagged⟩ := counted.free (free_of_caller here id)
    constructor
    · intro _
      have positive := flagged.mp flag
      constructor
      · change s.size + 1 = ((s.fifo ++ _).length : Int)
        rw [List.length_append, List.length_singleton]
        omega
      · change s.txOverflow = true ↔ 0 < s.size + 1
        exact iff_of_true flag (by omega)
    · exact fun locked => locked.elim
    · change s.size + 1 ≤ maximumFifoSize
      omega
  | locked here room flag =>
    obtain ⟨size, flagged⟩ := counted.free (free_of_caller here id)
    have none_ : ¬ 0 < s.size := fun positive => by simp [flagged.mpr positive] at flag
    constructor
    · exact fun free => absurd trivial free
    · intro _
      refine ⟨?_, ?_, flag⟩
      · change (s.fifo ++ _).length = 1
        rw [List.length_append, List.length_singleton]
        omega
      · change s.size = 0
        omega
    · exact counted.bound
  | register here =>
    exact counted.same (by rw [here]; exact Iff.rfl) rfl rfl rfl
  | unlock here =>
    obtain ⟨length, size, -⟩ := counted.locked (by rw [here]; trivial)
    constructor
    · intro _
      constructor
      · change s.size + 1 = (s.fifo.length : Int)
        omega
      · change true = true ↔ 0 < s.size + 1
        exact iff_of_true rfl (by omega)
    · exact fun locked => locked.elim
    · change s.size + 1 ≤ maximumFifoSize
      omega
  | poolAccepted => exact counted.same Iff.rfl (length_advance _ _ _) rfl rfl
  | @popLast _ rest _ free front last =>
    obtain ⟨size, -⟩ := counted.free free
    rw [front, List.length_cons] at size
    constructor
    · intro _
      constructor
      · change s.size - 1 = (rest.length : Int)
        push_cast at size
        omega
      · change false = true ↔ 0 < s.size - 1
        exact iff_of_false Bool.false_ne_true (by omega)
    · exact fun locked => absurd locked free
    · have bound := counted.bound
      change s.size - 1 ≤ maximumFifoSize
      omega
  | @popMore _ rest _ free front more =>
    obtain ⟨size, flagged⟩ := counted.free free
    rw [front, List.length_cons] at size
    push_cast at size
    have flag : s.txOverflow = true := flagged.mpr (by omega)
    have left : s.size - 1 ≠ 0 := fun last => more ⟨last, flag⟩
    constructor
    · intro _
      constructor
      · change s.size - 1 = (rest.length : Int)
        omega
      · change s.txOverflow = true ↔ 0 < s.size - 1
        exact iff_of_true flag (by omega)
    · exact fun locked => absurd locked free
    · have bound := counted.bound
      change s.size - 1 ≤ maximumFifoSize
      omega
  | callerInterrupted | poolInterrupted => exact counted
  | _ => exact counted.same Iff.rfl rfl rfl rfl

end Counted

/-! ## The nodes -/

/-- The node of the caller is not in the queue. -/
def Apart (s : State) (node : TxNode) : Prop :=
  node.number < s.calls ∧ ∀ other ∈ s.fifo, other.number ≠ node.number

/-- A packet is sent directly, or queued in part, with an empty queue only. -/
def CallerPlace (s : State) : Prop :=
  match s.caller with
  | .checking node => node.offset = 0 ∧ Apart s node
  | .sending node => s.fifo = [] ∧ Apart s node
  | .queueing node => (node.taken ≠ [] → s.fifo = []) ∧ Apart s node
  | _ => True

/-- The pool sends the node at the front, and takes it out when it is sent whole. -/
def PoolPlace (fifo : List TxNode) : Pool → Prop
  | .sending number => ∃ node rest, fifo = node :: rest ∧ node.number = number
  | .popping => ∃ node rest, fifo = node :: rest ∧ node.Whole
  | _ => True

structure Placed (s : State) : Prop where
  caller : CallerPlace s
  pool : PoolPlace s.fifo s.pool
  nodup : (s.fifo.map TxNode.number).Nodup
  below : ∀ node ∈ s.fifo, node.number < s.calls

section Placed
variable {s t : State}

theorem placed_initial : Placed initial :=
  ⟨trivial, trivial, List.nodup_nil, fun _ mem => absurd mem List.not_mem_nil⟩

theorem poolPlace_append {fifo : List TxNode} {pool : Pool} (place : PoolPlace fifo pool)
    (node : TxNode) : PoolPlace (fifo ++ [node]) pool := by
  cases pool with
  | sending number =>
    obtain ⟨front, rest, rfl, same⟩ := place
    exact ⟨front, rest ++ [node], rfl, same⟩
  | popping =>
    obtain ⟨front, rest, rfl, whole⟩ := place
    exact ⟨front, rest ++ [node], rfl, whole⟩
  | _ => trivial

/-- The node that the pool finds by its number is the one at the front. -/
theorem front_of_sending (placed : Placed s) {number : Nat} {node : TxNode}
    (here : s.pool = .sending number) (found : s.node number = some node) :
    ∃ rest, s.fifo = node :: rest ∧ node.number = number ∧
      ∀ wcb, advance s.fifo number wcb = { node with offset := node.offset + wcb } :: rest := by
  have place := placed.pool
  rw [here] at place
  obtain ⟨front, rest, list, same⟩ := place
  have first : s.node number = some front := by
    rw [State.node, list]
    exact List.find?_cons_of_pos (by simpa using same)
  obtain rfl : front = node := Option.some.inj (first.symm.trans found)
  have others : ∀ other ∈ rest, other.number ≠ number := by
    intro other mem equal
    have nodup := placed.nodup
    rw [list, List.map_cons, List.nodup_cons, same, ← equal] at nodup
    exact nodup.1 (List.mem_map_of_mem mem)
  refine ⟨rest, list, same, fun wcb => ?_⟩
  rw [list, advance, List.map_cons, if_pos same]
  congr 1
  conv_rhs => rw [← List.map_id rest]
  apply List.map_congr_left
  intro other mem
  exact if_neg (others other mem)

theorem Placed.moved (placed : Placed s) {caller : Caller} {calls : Nat}
    (place : CallerPlace { s with caller := caller, calls := calls }) (more : s.calls ≤ calls)
    (kernel : Bytes) (returned : List (Bytes × Int)) (epollout : Bool) :
    Placed { s with
      caller := caller
      calls := calls
      kernel := kernel
      returned := returned
      epollout := epollout } :=
  ⟨place, placed.pool, placed.nodup, fun node mem =>
    Nat.lt_of_lt_of_le (placed.below node mem) more⟩

/-- Steps of the pool that leave the queue. -/
theorem Placed.pooled (placed : Placed s) {pool : Pool} (place : PoolPlace s.fifo pool)
    (tasks : Nat) (epollout : Bool) :
    Placed { s with pool := pool, tasks := tasks, epollout := epollout } :=
  ⟨placed.caller, place, placed.nodup, placed.below⟩

/-- The queue gets the node of the caller. -/
theorem Placed.appended (placed : Placed s) {node : TxNode} (here : s.caller = .queueing node) :
    PoolPlace (s.fifo ++ [node]) s.pool ∧ ((s.fifo ++ [node]).map TxNode.number).Nodup ∧
      ∀ other ∈ s.fifo ++ [node], other.number < s.calls := by
  have place := placed.caller
  unfold CallerPlace at place
  rw [here] at place
  obtain ⟨-, new, apart⟩ := place
  refine ⟨poolPlace_append placed.pool node, ?_, ?_⟩
  · rw [List.map_append, List.nodup_append]
    refine ⟨placed.nodup, List.nodup_singleton _, ?_⟩
    intro number mem other last
    obtain ⟨old, among, rfl⟩ := List.mem_map.mp mem
    obtain rfl := List.mem_singleton.mp last
    exact apart old among
  · intro other mem
    rcases List.mem_append.mp mem with old | last
    · exact placed.below other old
    · obtain rfl := List.mem_singleton.mp last
      exact new

/-- The queue loses its front. -/
theorem Placed.popped (placed : Placed s) {node : TxNode} {rest : List TxNode}
    (front : s.fifo = node :: rest) (pool : Pool) (place : PoolPlace rest pool) (size : Int)
    (flag : Bool) :
    Placed { s with fifo := rest, size := size, txOverflow := flag, pool := pool } := by
  obtain ⟨caller, -, nodup, below⟩ := placed
  have kept : ∀ other ∈ rest, other ∈ s.fifo := by
    intro other mem
    rw [front]
    exact List.mem_cons_of_mem _ mem
  refine ⟨?_, place, ?_, fun other mem => below other (kept other mem)⟩
  · unfold CallerPlace at caller ⊢
    dsimp only
    split
    · rename_i held here
      rw [here] at caller
      exact ⟨caller.1, caller.2.1, fun other mem => caller.2.2 other (kept other mem)⟩
    · rename_i held here
      rw [here, front] at caller
      exact absurd caller.1 (List.cons_ne_nil _ _)
    · rename_i held here
      rw [here] at caller
      refine ⟨fun part => ?_, caller.2.1, fun other mem => caller.2.2 other (kept other mem)⟩
      rw [front] at caller
      exact absurd (caller.1 part) (List.cons_ne_nil _ _)
    · trivial
  · rw [front, List.map_cons, List.nodup_cons] at nodup
    exact nodup.2

theorem callerPlace_of (placed : Placed s) {caller : Caller} (here : s.caller = caller) :
    CallerPlace { s with caller := caller } := by
  subst here
  exact placed.caller

theorem taken_eq_nil {node : TxNode} (start : node.offset = 0) : node.taken = [] := by
  rw [TxNode.taken, start, List.take_zero]

theorem placed_step {a : Act} (counted : Counted s) (placed : Placed s) (change : Change s a t) :
    Placed t := by
  cases change with
  | refused | callerSent | full =>
    apply placed.moved
    · trivial
    · exact Nat.le_refl _
  | called =>
    apply placed.moved
    · exact ⟨rfl, Nat.lt_succ_self _, fun other mem => Nat.ne_of_lt (placed.below other mem)⟩
    · exact Nat.le_succ _
  | overflow here =>
    obtain ⟨start, apart⟩ := callerPlace_of placed here
    apply placed.moved
    · exact ⟨fun part => absurd (taken_eq_nil start) part, apart⟩
    · exact Nat.le_refl _
  | direct here flag =>
    obtain ⟨-, apart⟩ := callerPlace_of placed here
    obtain ⟨size, flagged⟩ := counted.free (free_of_caller here id)
    have empty : s.fifo = [] := by
      by_contra some_
      have positive := List.length_pos_of_ne_nil some_
      have raised := flagged.mpr (by omega)
      rw [flag] at raised
      exact absurd raised Bool.false_ne_true
    apply placed.moved
    · exact ⟨empty, apart⟩
    · exact Nat.le_refl _
  | callerAccepted here =>
    obtain ⟨empty, apart⟩ := callerPlace_of placed here
    apply placed.moved
    · exact ⟨empty, apart⟩
    · exact Nat.le_refl _
  | callerBlocked here =>
    obtain ⟨empty, apart⟩ := callerPlace_of placed here
    apply placed.moved
    · exact ⟨fun _ => empty, apart⟩
    · exact Nat.le_refl _
  | queued here =>
    obtain ⟨pool, nodup, below⟩ := placed.appended here
    exact ⟨trivial, pool, nodup, below⟩
  | locked here =>
    obtain ⟨pool, nodup, below⟩ := placed.appended here
    exact ⟨trivial, pool, nodup, below⟩
  | register =>
    apply placed.moved
    · trivial
    · exact Nat.le_refl _
  | unlock =>
    exact ⟨trivial, placed.pool, placed.nodup, placed.below⟩
  | event => exact ⟨placed.caller, placed.pool, placed.nodup, placed.below⟩
  | take | topNone | poolBlocked | popNone | cancel | add =>
    apply placed.pooled
    trivial
  | topSome _ _ front =>
    apply placed.pooled
    exact ⟨_, _, front, rfl⟩
  | @poolAccepted number wcb node here found =>
    obtain ⟨rest, list, same, advanced⟩ := front_of_sending placed here found
    have numbers : (advance s.fifo number wcb).map TxNode.number = s.fifo.map TxNode.number := by
      rw [advanced wcb, list]
      rfl
    have among : ∀ other ∈ advance s.fifo number wcb, ∃ old ∈ s.fifo,
        old.number = other.number := by
      intro other mem
      have named : other.number ∈ (advance s.fifo number wcb).map TxNode.number :=
        List.mem_map_of_mem mem
      rw [numbers] at named
      exact List.mem_map.mp named
    have apart : ∀ {carried : TxNode}, Apart s carried →
        ∀ other ∈ advance s.fifo number wcb, other.number ≠ carried.number := by
      intro carried new other mem
      obtain ⟨old, before, equal⟩ := among other mem
      exact equal ▸ new.2 old before
    refine ⟨?_, ?_, ?_, ?_⟩
    · have place := placed.caller
      unfold CallerPlace at place ⊢
      dsimp only
      split
      · rename_i carried there
        rw [there] at place
        exact ⟨place.1, place.2.1, apart place.2⟩
      · rename_i carried there
        rw [there, list] at place
        exact absurd place.1 (List.cons_ne_nil _ _)
      · rename_i carried there
        rw [there] at place
        refine ⟨fun part => ?_, place.2.1, apart place.2⟩
        rw [list] at place
        exact absurd (place.1 part) (List.cons_ne_nil _ _)
      · trivial
    · change PoolPlace (advance s.fifo number wcb) s.pool
      rw [here]
      exact ⟨_, _, advanced wcb, same⟩
    · change ((advance s.fifo number wcb).map TxNode.number).Nodup
      rw [numbers]
      exact placed.nodup
    · intro other mem
      obtain ⟨old, before, equal⟩ := among other mem
      exact equal ▸ placed.below old before
  | poolSent here found whole =>
    obtain ⟨rest, list, -⟩ := front_of_sending placed here found
    apply placed.pooled
    exact ⟨_, rest, list, whole⟩
  | popLast _ _ front | popMore _ _ front =>
    apply placed.popped front
    trivial
  | callerInterrupted | poolInterrupted => exact placed

end Placed

/-! ## The bytes -/

/-- What the kernel has and what waits is what was reported and what is under way. -/
def Accounted (s : State) : Prop :=
  s.kernel ++ waiting s.fifo = (reported s).flatten ++ begun s.caller

section Accounted
variable {s t : State}

theorem accounted_initial : Accounted initial := rfl

theorem waiting_append (fifo : List TxNode) (node : TxNode) :
    waiting (fifo ++ [node]) = waiting fifo ++ node.rest := by
  rw [waiting, List.map_append, List.flatten_append]
  simp only [List.map_cons, List.map_nil, List.flatten_cons, List.flatten_nil, List.append_nil]
  rfl

theorem waiting_cons (node : TxNode) (rest : List TxNode) :
    waiting (node :: rest) = node.rest ++ waiting rest := rfl

theorem taken_append_rest (node : TxNode) : node.taken ++ node.rest = node.data :=
  List.take_append_drop _ _

theorem taken_accepted (node : TxNode) (wcb : Nat) :
    ({ node with offset := node.offset + wcb } : TxNode).taken =
      node.taken ++ node.rest.take wcb := List.take_add

theorem rest_accepted (node : TxNode) (wcb : Nat) :
    ({ node with offset := node.offset + wcb } : TxNode).rest = node.rest.drop wcb :=
  (List.drop_drop).symm

theorem taken_of_whole {node : TxNode} (whole : node.Whole) : node.taken = node.data :=
  List.take_of_length_le whole

theorem rest_of_whole {node : TxNode} (whole : node.Whole) : node.rest = [] :=
  List.drop_of_length_le whole

theorem reported_success (s : State) (data : Bytes) :
    reported (s.returns data 0) = reported s ++ [data] := by
  simp [reported, State.returns]

theorem reported_failure (s : State) (data : Bytes) {status : Int} (failed : status ≠ 0) :
    reported (s.returns data status) = reported s := by
  simp [reported, State.returns, failed]

theorem accounted_step {a : Act} (counted : Counted s) (placed : Placed s)
    (accounted : Accounted s) (change : Change s a t) : Accounted t := by
  unfold Accounted at accounted ⊢
  cases change with
  | refused idle =>
    rw [reported_failure s _ (by decide)]
    rwa [idle] at accounted
  | called idle =>
    rwa [idle] at accounted
  | overflow here | direct here =>
    obtain ⟨start, -⟩ := callerPlace_of placed here
    rw [here] at accounted
    change _ = _ ++ TxNode.taken _
    rwa [taken_eq_nil start]
  | @callerAccepted node wcb here =>
    obtain ⟨empty, -⟩ := callerPlace_of placed here
    rw [here, empty] at accounted
    change (s.kernel ++ node.rest.take wcb) ++ waiting s.fifo =
      (reported s).flatten ++ TxNode.taken { node with offset := node.offset + wcb }
    calc (s.kernel ++ node.rest.take wcb) ++ waiting s.fifo
        = (s.kernel ++ waiting []) ++ node.rest.take wcb := by
          rw [empty]
          exact (List.append_nil _).trans (congrArg (· ++ _) (List.append_nil _).symm)
      _ = ((reported s).flatten ++ node.taken) ++ node.rest.take wcb := by rw [accounted]; rfl
      _ = _ := by rw [taken_accepted, List.append_assoc]
  | callerBlocked here =>
    rwa [here] at accounted
  | callerSent here whole =>
    rw [here] at accounted
    rw [reported_success, List.flatten_append, List.flatten_singleton]
    change _ = (_ ++ _) ++ []
    rw [List.append_nil, ← taken_of_whole whole]
    exact accounted
  | @full node here many =>
    obtain ⟨part, -⟩ := callerPlace_of placed here
    obtain ⟨size, -⟩ := counted.free (free_of_caller here id)
    have limit : maximumFifoSize = 100 := rfl
    have untaken : node.taken = [] := by
      by_contra some_
      have empty : s.fifo = [] := part some_
      rw [empty, List.length_nil] at size
      push_cast at size
      omega
    rw [here] at accounted
    rw [reported_failure s _ (by decide)]
    change _ = _ ++ TxNode.taken _ at accounted
    rwa [untaken] at accounted
  | @queued node here =>
    rw [here] at accounted
    rw [reported_success, List.flatten_append, List.flatten_singleton]
    change s.kernel ++ waiting (s.fifo ++ [node]) = ((reported s).flatten ++ node.data) ++ []
    rw [waiting_append, ← List.append_assoc, accounted, List.append_nil, List.append_assoc]
    exact congrArg (_ ++ ·) (taken_append_rest node)
  | @locked node here =>
    rw [here] at accounted
    change s.kernel ++ waiting (s.fifo ++ [node]) = (reported s).flatten ++ node.data
    rw [waiting_append, ← List.append_assoc, accounted, List.append_assoc]
    exact congrArg (_ ++ ·) (taken_append_rest node)
  | register here =>
    rwa [here] at accounted
  | unlock here =>
    rw [here] at accounted
    rw [reported_success, List.flatten_append, List.flatten_singleton]
    change _ = (_ ++ _) ++ []
    rw [List.append_nil]
    exact accounted
  | @poolAccepted number wcb node here found =>
    obtain ⟨rest, list, -, advanced⟩ := front_of_sending placed here found
    rw [list, waiting_cons] at accounted
    change (s.kernel ++ node.rest.take wcb) ++ waiting (advance s.fifo number wcb) = _
    rw [advanced, waiting_cons, rest_accepted, List.append_assoc,
      ← List.append_assoc (List.take _ _), List.take_append_drop]
    exact accounted
  | popLast here _ front | popMore here _ front =>
    have place := placed.pool
    rw [here] at place
    obtain ⟨node, rest, list, whole⟩ := place
    rw [front] at list
    cases list
    rw [front, waiting_cons, rest_of_whole whole, List.nil_append] at accounted
    exact accounted
  | _ => exact accounted

/-! ## The run -/

structure Orderly (s : State) : Prop where
  counted : Counted s
  placed : Placed s
  accounted : Accounted s

theorem orderly_initial : Orderly initial := ⟨counted_initial, placed_initial, accounted_initial⟩

theorem orderly_step (s : State) (a : Act) (t : State) (orderly : Orderly s)
    (h : step s a = some t) : Orderly t := by
  obtain ⟨counted, placed, accounted⟩ := orderly
  have change := change_of_step h
  exact ⟨counted_step counted change, placed_step counted placed change,
    accounted_step counted placed accounted change⟩

theorem begun_within (caller : Caller) : begun caller <+: (underWay caller).flatten := by
  cases caller with
  | sending node | queueing node =>
    rw [underWay]
    split
    · rename_i untaken
      rw [begun, untaken]
      exact List.nil_prefix
    · rw [List.flatten_singleton]
      exact List.take_prefix _ _
  | registering node | registered node => exact (List.flatten_singleton ▸ List.prefix_rfl)
  | _ => exact List.nil_prefix

theorem kernel_within (orderly : Orderly s) :
    s.kernel <+: (reported s ++ underWay s.caller).flatten := by
  rw [List.flatten_append]
  have begins : s.kernel <+: (reported s).flatten ++ begun s.caller :=
    ⟨waiting s.fifo, orderly.accounted⟩
  exact begins.trans (List.prefix_append_right_inj _ |>.mpr (begun_within s.caller))

/-- A call that has got something to the kernel returns success. -/
theorem reported_of_ended (orderly : Orderly s) {a : Act} (h : step s a = some t)
    (begins : underWay s.caller ≠ []) (ends : t.caller = .idle) :
    reported t = reported s ++ underWay s.caller := by
  have change := change_of_step h
  have active : s.caller ≠ .idle := by
    intro idle
    rw [idle] at begins
    exact begins rfl
  have whole : ∀ {node : TxNode}, underWay (.queueing node) ≠ [] →
      underWay (.queueing node) = [node.data] := by
    intro node some_
    rw [underWay] at some_ ⊢
    split
    · rename_i untaken
      exact absurd (if_pos untaken) some_
    · rfl
  cases change with
  | refused idle | called idle => exact absurd idle active
  | callerSent here =>
    rw [here] at begins ⊢
    rw [reported_success]
    exact congrArg (_ ++ ·) (whole begins).symm
  | @full node here many =>
    obtain ⟨part, -⟩ := callerPlace_of orderly.placed here
    obtain ⟨size, -⟩ := orderly.counted.free (free_of_caller here id)
    have limit : maximumFifoSize = 100 := rfl
    have untaken : node.taken ≠ [] := by
      intro none_
      rw [here] at begins
      exact begins (if_pos none_)
    have empty : s.fifo = [] := part untaken
    rw [empty, List.length_nil] at size
    push_cast at size
    omega
  | queued here =>
    rw [here] at begins ⊢
    rw [reported_success]
    exact congrArg (_ ++ ·) (whole begins).symm
  | unlock here =>
    rw [here, reported_success]
    rfl
  | callerInterrupted | poolInterrupted => exact absurd ends active
  | _ => first | exact absurd ends active | cases ends

theorem kernel_grows {a : Act} (change : Change s a t) : s.kernel <+: t.kernel := by
  cases change with
  | callerAccepted => exact List.prefix_append _ _
  | poolAccepted => exact List.prefix_append _ _
  | _ => exact List.prefix_rfl

/-- At every moment the kernel has a prefix of the packets of the successful calls, with
that of the call in progress if it has begun, which can then end in success only; at the
end of the last call the packets reported by then cover every earlier moment. The queue
counts right whenever its lock is free. -/
theorem send_order (acts : List Act) :
    Always step (fun s =>
      s.kernel <+: (reported s ++ underWay s.caller).flatten ∧
      (∀ a t, step s a = some t → underWay s.caller ≠ [] → t.caller = .idle →
        reported t = reported s ++ underWay s.caller) ∧
      (¬ s.caller.holdsLock →
        (s.txOverflow = true ↔ 0 < s.size) ∧ s.size = s.fifo.length) ∧
      s.size ≤ maximumFifoSize) initial acts ∧
    ∀ t, run step initial acts = some t → t.caller = .idle →
      Always step (fun s => s.kernel <+: (reported t).flatten) initial acts := by
  have orderly := always_of_kept orderly_step orderly_initial acts
  constructor
  · refine always_mono ?_ orderly
    intro s here
    refine ⟨kernel_within here, fun a t h => reported_of_ended here h, ?_, here.counted.bound⟩
    intro free
    obtain ⟨size, flagged⟩ := here.counted.free free
    exact ⟨flagged, size⟩
  · intro t ends idle
    have last := kernel_within (always_end orderly ends)
    rw [idle] at last
    change t.kernel <+: (reported t ++ []).flatten at last
    rw [List.append_nil] at last
    have before : Always step (fun s => s.kernel <+: t.kernel) initial acts := by
      refine (@always_before State Act step (fun s t => s.kernel <+: t.kernel)
        (fun _ => List.prefix_rfl) List.IsPrefix.trans ?_ _ _ _ ends).2
      exact fun s a t h => kernel_grows (change_of_step h)
    exact always_mono (fun s early => early.trans last) before

end Accounted

end SendOrder
