import Mathlib.Data.List.Nodup
import Mathlib.Data.Option.Basic
import Cfgd.BinaryHeap
import Cfgd.Transition

/-!
# Worker threads on a priority queue

`priority_task_thread` and `priority_task_thread_pool`: posters push under
`task_locker_`, a worker holds the lock from its test of the queue to the wait or to
the pop. The two handlers differ in the guard of the wait loop and nowhere else, so
the guard is the parameter of the step. Each stretch between two lock boundaries is
one step; a wake-up needs no notification, since condition variables wake spuriously.
-/

namespace PriorityTask

open Transition

universe u

/-- `priority_task`; `serial` tells apart what `new` returns to different posts. -/
structure Task (T : Type u) where
  serial : Nat
  priority : Int32
  task : T
  deriving DecidableEq

variable {T : Type u}

/-- `priority_task::operator<` -/
def Task.less (left right : Task T) : Bool := decide (left.priority < right.priority)

def pointerCompatibleCompare : Option (Task T) → Option (Task T) → Bool
  | _, none => false
  | none, some _ => true
  | some left, some right => left.less right

theorem compare_weak : BinaryHeap.StrictWeak (@pointerCompatibleCompare T) where
  asymm := by
    intro a b h
    cases a with
    | none => cases b <;> rfl
    | some l =>
      cases b with
      | none => cases h
      | some r =>
        have lt : l.priority < r.priority := of_decide_eq_true h
        exact decide_eq_false fun gt => Int32.lt_irrefl (Int32.lt_trans lt gt)
  not_less_trans := by
    intro a b c hab hbc
    cases c with
    | none => cases a <;> rfl
    | some r =>
      cases b with
      | none => cases hbc
      | some m =>
        cases a with
        | none => cases hab
        | some l =>
          have ml := Int32.not_lt.mp (of_decide_eq_false hab)
          have rm := Int32.not_lt.mp (of_decide_eq_false hbc)
          exact decide_eq_false (Int32.not_lt.mpr (Int32.le_trans rm ml))

/-- Where a thread stands in its handler. -/
inductive Worker (T : Type u) where
  | loop
  | lock
  | wait
  | run (ptr : Option (Task T))
  | returned
  -- it took the top of an empty queue: from there on the behaviour is undefined
  | astray
  deriving DecidableEq

/-- What `top` gave a worker, and the queue it looked at. -/
structure Take (T : Type u) where
  taskQue : List (Option (Task T))
  ptr : Option (Option (Task T))
  deriving DecidableEq

/-- The queue's vector, `join_` and the threads; then what has happened so far. -/
structure State (T : Type u) where
  taskQue : List (Option (Task T))
  join : Int
  workers : List (Worker T)
  posted : List (Task T)
  taken : List (Take T)
  ran : List (Task T)

inductive Action (T : Type u) where
  | post (tsk : T) (priority : Int32)
  | join
  | worker (i : Nat)

def start (T : Type u) (cnt : Nat) : State T :=
  ⟨[], -1, List.replicate cnt .loop, [], [], []⟩

def State.goes (s : State T) (i : Nat) (w : Worker T) : State T :=
  { s with workers := s.workers.set i w }

/-- `top` and `pop`. -/
def State.take (s : State T) (i : Nat) : State T :=
  { s with
    taskQue := BinaryHeap.pop pointerCompatibleCompare s.taskQue
    workers := s.workers.set i
      (match BinaryHeap.top s.taskQue with
        | none => .astray
        | some ptr => .run ptr)
    taken := s.taken ++ [⟨s.taskQue, BinaryHeap.top s.taskQue⟩] }

def State.post (s : State T) (tsk : T) (priority : Int32) : State T :=
  let ptask : Task T := ⟨s.posted.length, priority, tsk⟩
  { s with
    taskQue := BinaryHeap.push pointerCompatibleCompare s.taskQue (some ptask)
    posted := s.posted ++ [ptask] }

/-- The test of the wait loop, with the lock held: `while (waits) wait`. -/
def State.look (waits : List (Option (Task T)) → Bool) (s : State T) (i : Nat) : State T :=
  if waits s.taskQue then s.goes i .wait else s.take i

/-- `on_task` and `delete`, for a pointer that is not null. -/
def State.work (s : State T) (i : Nat) (ptr : Option (Task T)) : State T :=
  { s with workers := s.workers.set i .loop, ran := s.ran ++ ptr.toList }

def step (waits : List (Option (Task T)) → Bool) (s : State T) : Action T → Option (State T)
  | .post tsk priority => some (s.post tsk priority)
  | .join => some { s with join := 1 }
  | .worker i =>
    match s.workers[i]? with
    | some .loop => some (s.goes i (if s.join < 0 then .lock else .returned))
    | some .lock => some (s.look waits i)
    -- the thread wakes up with the lock, and `join_` comes before the queue
    | some .wait => some (if 0 < s.join then s.goes i .returned else s.look waits i)
    | some (.run ptr) => some (s.work i ptr)
    | _ => none

/-- `th_handler` waits while there are tasks. -/
def priorityTaskThread : State T → Action T → Option (State T) :=
  step fun taskQue => !taskQue.isEmpty

/-- `pool_handler` waits while there are none. -/
def priorityTaskThreadPool : State T → Action T → Option (State T) :=
  step fun taskQue => taskQue.isEmpty

/-- What `top` gave is a task of the queue, and no task there has a higher priority. -/
def Take.Greatest (t : Take T) : Prop :=
  ∃ task, t.ptr = some (some task) ∧ some task ∈ t.taskQue ∧
    ∀ other, some other ∈ t.taskQue → other.priority ≤ task.priority

structure Safe (s : State T) : Prop where
  taken_nonempty : ∀ t ∈ s.taken, t.taskQue ≠ []
  ran_posted : ∀ task ∈ s.ran, task ∈ s.posted
  ran_once : s.ran.Nodup
  taken_greatest : ∀ t ∈ s.taken, t.Greatest

/-- What a worker can do, from each of its places. -/
theorem worker_cases {waits : List (Option (Task T)) → Bool} {s t : State T} {i : Nat}
    (h : step waits s (.worker i) = some t) :
    (s.workers[i]? = some .loop ∧ t = s.goes i (if s.join < 0 then .lock else .returned)) ∨
    (s.workers[i]? = some .lock ∧ t = s.look waits i) ∨
    (s.workers[i]? = some .wait ∧
      t = if 0 < s.join then s.goes i .returned else s.look waits i) ∨
    (∃ ptr, s.workers[i]? = some (.run ptr) ∧ t = s.work i ptr) := by
  cases at_i : s.workers[i]? with
  | none => simp [step, at_i] at h
  | some w =>
    cases w <;> simp [step, at_i] at h ⊢ <;> exact h.symm

section Thread

/-- Waiting while there are tasks, a worker never gets hold of one. -/
structure Idle (s : State T) : Prop where
  queued : s.taskQue.length = s.posted.length
  waits_for_posted : .wait ∈ s.workers → s.posted ≠ []
  holds_nothing : ∀ ptr, .run ptr ∉ s.workers
  ran_nothing : s.ran = []
  took_nothing : ∀ t ∈ s.taken, t.taskQue = []

theorem idle_start (cnt : Nat) : Idle (start T cnt) where
  queued := rfl
  waits_for_posted := fun h => nomatch List.eq_of_mem_replicate h
  holds_nothing := fun _ h => nomatch List.eq_of_mem_replicate h
  ran_nothing := rfl
  took_nothing := fun _ h => nomatch h

/-- A worker that only changes its place. -/
theorem Idle.goes {s : State T} (idle : Idle s) (i : Nat) {w : Worker T}
    (waits : w = .wait → s.posted ≠ []) (holds : ∀ ptr, w ≠ .run ptr) : Idle (s.goes i w) where
  queued := idle.queued
  waits_for_posted := by
    intro h
    rcases List.mem_or_eq_of_mem_set h with before | here
    · exact idle.waits_for_posted before
    · exact waits here.symm
  holds_nothing := by
    intro ptr h
    rcases List.mem_or_eq_of_mem_set h with before | here
    · exact idle.holds_nothing ptr before
    · exact holds ptr here.symm
  ran_nothing := idle.ran_nothing
  took_nothing := idle.took_nothing

/-- The queue is as long as the list of posts, so it is the empty one that is taken from. -/
theorem Idle.look_eq {s : State T} (idle : Idle s) (i : Nat) :
    s.look (fun taskQue => !taskQue.isEmpty) i =
      if s.posted = [] then { s.goes i .astray with taken := s.taken ++ [⟨[], none⟩] }
      else s.goes i .wait := by
  unfold State.look
  cases hq : s.taskQue with
  | nil =>
    have none_posted : s.posted = [] := by
      rw [← List.length_eq_zero_iff, ← idle.queued, hq]
      rfl
    rw [if_pos none_posted]
    unfold State.take State.goes
    rw [hq]
    rfl
  | cons x rest =>
    have some_posted : s.posted ≠ [] := by
      rw [← List.length_pos_iff, ← idle.queued, hq]
      exact Nat.succ_pos rest.length
    rw [if_neg some_posted]
    rfl

theorem Idle.look {s : State T} (idle : Idle s) (i : Nat) :
    Idle (s.look (fun taskQue => !taskQue.isEmpty) i) := by
  rw [idle.look_eq]
  split
  · have astray := idle.goes i (w := .astray) (fun h => nomatch h) (fun _ h => nomatch h)
    refine ⟨astray.queued, astray.waits_for_posted, astray.holds_nothing,
      astray.ran_nothing, ?_⟩
    intro t member
    rcases List.mem_append.mp member with before | here
    · exact idle.took_nothing t before
    · rw [List.mem_singleton.mp here]
  · rename_i posted
    exact idle.goes i (fun _ => posted) (fun _ h => nomatch h)

theorem idle_step {s t : State T} {a : Action T} (idle : Idle s)
    (h : priorityTaskThread s a = some t) : Idle t := by
  cases a with
  | post tsk priority =>
    obtain rfl := Option.some.inj h
    refine ⟨?_, ?_, idle.holds_nothing, idle.ran_nothing, idle.took_nothing⟩
    · have longer := (BinaryHeap.push_perm pointerCompatibleCompare s.taskQue
        (some ⟨s.posted.length, priority, tsk⟩)).length_eq
      simp only [State.post, longer, List.length_cons, List.length_append, List.length_nil,
        idle.queued]
    · intro _
      exact List.append_ne_nil_of_right_ne_nil _ (List.cons_ne_nil _ _)
  | join =>
    obtain rfl := Option.some.inj h
    exact ⟨idle.queued, idle.waits_for_posted, idle.holds_nothing, idle.ran_nothing,
      idle.took_nothing⟩
  | worker i =>
    obtain ⟨_, rfl⟩ | ⟨_, rfl⟩ | ⟨_, rfl⟩ | ⟨ptr, running, _⟩ := worker_cases h
    · split
      · exact idle.goes i (fun h => nomatch h) (fun _ h => nomatch h)
      · exact idle.goes i (fun h => nomatch h) (fun _ h => nomatch h)
    · exact idle.look i
    · split
      · exact idle.goes i (fun h => nomatch h) (fun _ h => nomatch h)
      · exact idle.look i
    · exact absurd (List.mem_of_getElem? running) (idle.holds_nothing ptr)

/-- Such a worker is safe for as long as it took nothing at all. -/
theorem Idle.safe_iff_untaken {s : State T} (idle : Idle s) : Safe s ↔ s.taken = [] := by
  constructor
  · intro safe
    refine List.eq_nil_iff_forall_not_mem.mpr fun t member => ?_
    exact safe.taken_nonempty t member (idle.took_nothing t member)
  · intro none_taken
    refine ⟨?_, ?_, ?_, ?_⟩
    · rw [none_taken]
      exact fun _ h => nomatch h
    · rw [idle.ran_nothing]
      exact fun _ h => nomatch h
    · rw [idle.ran_nothing]
      exact List.nodup_nil
    · rw [none_taken]
      exact fun _ h => nomatch h

/-- Something has been posted before the worker comes from the test of `join_` to the lock. -/
def PostedFirst (s : State T) : Action T → Prop
  | .worker i => s.workers[i]? = some .lock → s.posted ≠ []
  | _ => True

theorem Idle.look_taken {s : State T} (idle : Idle s) (none_taken : s.taken = []) (i : Nat) :
    (s.look (fun taskQue => !taskQue.isEmpty) i).taken = [] ↔ s.posted ≠ [] := by
  rw [idle.look_eq]
  split
  · simp [*]
  · simp [State.goes, *]

/-- A step takes something exactly when it looks before the first post. -/
theorem idle_step_safe {s t : State T} {a : Action T} (idle : Idle s) (safe : Safe s)
    (h : priorityTaskThread s a = some t) : Safe t ↔ PostedFirst s a := by
  rw [(idle_step idle h).safe_iff_untaken]
  have none_taken := idle.safe_iff_untaken.mp safe
  cases a with
  | post tsk priority =>
    obtain rfl := Option.some.inj h
    exact ⟨fun _ => trivial, fun _ => none_taken⟩
  | join =>
    obtain rfl := Option.some.inj h
    exact ⟨fun _ => trivial, fun _ => none_taken⟩
  | worker i =>
    unfold PostedFirst
    obtain ⟨place, rfl⟩ | ⟨place, rfl⟩ | ⟨place, rfl⟩ | ⟨ptr, running, _⟩ := worker_cases h
    · exact ⟨fun _ lock => (nomatch place.symm.trans lock), fun _ => none_taken⟩
    · exact (idle.look_taken none_taken i).trans ⟨fun posted _ => posted, fun ok => ok place⟩
    · have posted := idle.waits_for_posted (List.mem_of_getElem? place)
      refine ⟨fun _ _ => posted, fun _ => ?_⟩
      split
      · exact none_taken
      · exact (idle.look_taken none_taken i).mpr posted
    · exact absurd (List.mem_of_getElem? running) (idle.holds_nothing ptr)

/-- A run of the thread is safe exactly when the worker never comes to the lock before
the first post. -/
theorem priority_task_thread_safe (acts : List (Action T)) (s : State T)
    (h : run priorityTaskThread (start T 1) acts = some s) :
    Always priorityTaskThread Safe (start T 1) acts ↔
      Along priorityTaskThread PostedFirst (start T 1) acts := by
  have idle := idle_start (T := T) 1
  exact always_iff_along_within (fun _ _ _ => idle_step) (fun _ _ _ => idle_step_safe)
    idle (idle.safe_iff_untaken.mpr rfl) h

/-- A task is posted, and the worker waits until it is joined. -/
theorem priority_task_thread_safe_waiting :
    Always priorityTaskThread Safe (start Unit 1)
      [.post () 5, .worker 0, .worker 0, .join, .worker 0] := by
  refine (priority_task_thread_safe _ ⟨[some ⟨0, 5, ()⟩], 1, [.returned], [⟨0, 5, ()⟩], [], []⟩
    ?_).mpr ?_
  · simp [run, priorityTaskThread, step, start, State.post, State.look, State.goes,
      BinaryHeap.push, BinaryHeap.climb]
  · simp [Along, PostedFirst, priorityTaskThread, step, start, State.post, State.look,
      State.goes, BinaryHeap.push, BinaryHeap.climb]

/-- A worker that comes to the lock before the first post takes from the empty queue. -/
theorem priority_task_thread_takes_empty :
    ¬ ∀ acts : List (Action Unit), Always priorityTaskThread Safe (start Unit 1) acts := by
  intro safe
  have last := always_end (safe [.worker 0, .worker 0]) rfl
  exact last.taken_nonempty ⟨[], none⟩ (by decide) rfl

end Thread

section Pool

/-- The pointers that the workers have taken and not yet worked off. -/
def Worker.hand : Worker T → Option (Option (Task T))
  | .run ptr => some ptr
  | _ => none

theorem hands_set {ws : List (Worker T)} {i : Nat} {w : Worker T} (at_i : ws[i]? = some w)
    (w' : Worker T) : (w.hand.toList ++ (ws.set i w').filterMap Worker.hand).Perm
      (w'.hand.toList ++ ws.filterMap Worker.hand) := by
  obtain ⟨inside, rfl⟩ := List.getElem?_eq_some_iff.mp at_i
  have toList : ∀ v : Worker T, [v].filterMap Worker.hand = v.hand.toList := by
    intro v
    cases v <;> rfl
  have before : ws = ws.take i ++ [ws[i]] ++ ws.drop (i + 1) := by
    rw [List.append_assoc, List.singleton_append, List.getElem_cons_drop, List.take_append_drop]
  have after : ws.set i w' = ws.take i ++ [w'] ++ ws.drop (i + 1) := by
    rw [List.set_eq_take_append_cons_drop, if_pos inside, List.append_assoc,
      List.singleton_append]
  rw [after]
  conv => rhs; rw [before]
  simp only [List.filterMap_append, toList]
  classical
  refine List.perm_iff_count.mpr fun x => ?_
  simp only [List.count_append]
  omega

/-- Every task that was posted is in one place: queued, in a worker's hand or done. -/
structure Orderly (s : State T) : Prop where
  ordered : BinaryHeap.Ordered pointerCompatibleCompare s.taskQue
  placed : (s.taskQue ++ s.workers.filterMap Worker.hand ++ s.ran.map some).Perm
    (s.posted.map some)
  serials : s.posted.map Task.serial = List.range s.posted.length
  taken_nonempty : ∀ t ∈ s.taken, t.taskQue ≠ []
  taken_greatest : ∀ t ∈ s.taken, t.Greatest

theorem Orderly.safe {s : State T} (orderly : Orderly s) : Safe s where
  taken_nonempty := orderly.taken_nonempty
  taken_greatest := orderly.taken_greatest
  ran_posted := by
    intro task ran
    have member : some task ∈ s.posted.map some :=
      orderly.placed.subset (List.mem_append_right _ (List.mem_map_of_mem ran))
    exact (List.mem_map_of_injective (Option.some_injective _)).mp member
  ran_once := by
    have posted_once : s.posted.Nodup :=
      List.Nodup.of_map Task.serial (orderly.serials ▸ List.nodup_range)
    have all_once := orderly.placed.nodup_iff.mpr
      (posted_once.map (Option.some_injective _))
    exact List.Nodup.of_map some (List.Nodup.of_append_right all_once)

theorem orderly_start (cnt : Nat) : Orderly (start T cnt) where
  ordered := fun _ _ _ h => nomatch h
  placed := by
    have empty : (List.replicate cnt (Worker.loop : Worker T)).filterMap Worker.hand = [] :=
      List.filterMap_eq_nil_iff.mpr fun w member => by
        rw [List.eq_of_mem_replicate member]
        rfl
    simp [start, empty]
  serials := rfl
  taken_nonempty := fun _ h => nomatch h
  taken_greatest := fun _ h => nomatch h

/-- A worker with nothing in hand that only changes its place. -/
theorem Orderly.goes {s : State T} (orderly : Orderly s) {i : Nat} {w w' : Worker T}
    (at_i : s.workers[i]? = some w) (free : w.hand = none) (free' : w'.hand = none) :
    Orderly (s.goes i w') where
  ordered := orderly.ordered
  placed := by
    have same := hands_set at_i w'
    rw [free, free'] at same
    exact ((same.append_left s.taskQue).append_right _).trans orderly.placed
  serials := orderly.serials
  taken_nonempty := orderly.taken_nonempty
  taken_greatest := orderly.taken_greatest

theorem Orderly.post {s : State T} (orderly : Orderly s) (tsk : T) (priority : Int32) :
    Orderly (s.post tsk priority) where
  ordered := BinaryHeap.push_ordered compare_weak orderly.ordered _
  placed := by
    have pushed := BinaryHeap.push_perm pointerCompatibleCompare s.taskQue
      (some ⟨s.posted.length, priority, tsk⟩)
    have placed := orderly.placed
    classical
    refine List.perm_iff_count.mpr fun x => ?_
    have pushed_x := List.perm_iff_count.mp pushed x
    have placed_x := List.perm_iff_count.mp placed x
    simp only [State.post, List.count_append, List.map_append, List.map_cons, List.map_nil,
      List.count_cons, List.count_nil] at pushed_x placed_x ⊢
    omega
  serials := by
    simp only [State.post, List.map_append, List.map_cons, List.map_nil, orderly.serials,
      List.length_append, List.length_singleton, List.range_succ]
  taken_nonempty := orderly.taken_nonempty
  taken_greatest := orderly.taken_greatest

/-- Taking from a queue that is not empty. -/
theorem Orderly.take {s : State T} (orderly : Orderly s) {i : Nat} {w : Worker T}
    (at_i : s.workers[i]? = some w) (free : w.hand = none) (nonempty : s.taskQue ≠ []) :
    Orderly (s.take i) := by
  obtain ⟨ptr, first⟩ : ∃ ptr, BinaryHeap.top s.taskQue = some ptr :=
    ⟨_, List.head?_eq_some_head nonempty⟩
  have queued : ptr ∈ s.taskQue := List.mem_of_head? first
  obtain ⟨task, rfl⟩ : ∃ task, ptr = some task := by
    have member := orderly.placed.subset
      (List.mem_append_left _ (List.mem_append_left _ queued))
    obtain ⟨task, _, rfl⟩ := List.mem_map.mp member
    exact ⟨task, rfl⟩
  have greatest : Take.Greatest ⟨s.taskQue, BinaryHeap.top s.taskQue⟩ := by
    refine ⟨task, first, queued, fun other member => ?_⟩
    have not_less := BinaryHeap.top_greatest compare_weak orderly.ordered first _ member
    exact Int32.not_lt.mp (of_decide_eq_false not_less)
  refine ⟨BinaryHeap.pop_ordered compare_weak orderly.ordered, ?_, orderly.serials, ?_, ?_⟩
  · have popped := BinaryHeap.pop_perm pointerCompatibleCompare first
    have hands := hands_set at_i (.run (some task))
    have placed := orderly.placed
    rw [free] at hands
    unfold State.take
    rw [first]
    classical
    refine List.perm_iff_count.mpr fun x => ?_
    have popped_x := List.perm_iff_count.mp popped x
    have hands_x := List.perm_iff_count.mp hands x
    have placed_x := List.perm_iff_count.mp placed x
    simp only [Worker.hand, Option.toList, List.count_append, List.count_cons,
      List.count_nil] at popped_x hands_x placed_x ⊢
    omega
  · exact List.forall_mem_append.mpr
      ⟨orderly.taken_nonempty, List.forall_mem_singleton.mpr nonempty⟩
  · exact List.forall_mem_append.mpr
      ⟨orderly.taken_greatest, List.forall_mem_singleton.mpr greatest⟩

theorem Orderly.look {s : State T} (orderly : Orderly s) {i : Nat} {w : Worker T}
    (at_i : s.workers[i]? = some w) (free : w.hand = none) :
    Orderly (s.look (fun taskQue => taskQue.isEmpty) i) := by
  unfold State.look
  split
  · exact orderly.goes at_i free rfl
  · rename_i tasks
    exact orderly.take at_i free (fun none => tasks (List.isEmpty_iff.mpr none))

/-- A task in hand is run once and is in the hand no more. -/
theorem Orderly.work {s : State T} (orderly : Orderly s) {i : Nat} {ptr : Option (Task T)}
    (at_i : s.workers[i]? = some (.run ptr)) : Orderly (s.work i ptr) := by
  refine ⟨orderly.ordered, ?_, orderly.serials, orderly.taken_nonempty, orderly.taken_greatest⟩
  have hands := hands_set at_i .loop
  have placed := orderly.placed
  obtain ⟨task, rfl⟩ : ∃ task, ptr = some task := by
    have held : ptr ∈ s.workers.filterMap Worker.hand :=
      List.mem_filterMap.mpr ⟨_, List.mem_of_getElem? at_i, rfl⟩
    have member := placed.subset (List.mem_append_left _ (List.mem_append_right _ held))
    obtain ⟨task, _, rfl⟩ := List.mem_map.mp member
    exact ⟨task, rfl⟩
  classical
  refine List.perm_iff_count.mpr fun x => ?_
  have hands_x := List.perm_iff_count.mp hands x
  have placed_x := List.perm_iff_count.mp placed x
  simp only [State.work, Worker.hand, Option.toList, List.count_append, List.map_append,
    List.map_cons, List.map_nil, List.count_cons, List.count_nil] at hands_x placed_x ⊢
  omega

theorem orderly_step {s t : State T} {a : Action T} (orderly : Orderly s)
    (h : priorityTaskThreadPool s a = some t) : Orderly t := by
  cases a with
  | post tsk priority =>
    obtain rfl := Option.some.inj h
    exact orderly.post tsk priority
  | join =>
    obtain rfl := Option.some.inj h
    exact ⟨orderly.ordered, orderly.placed, orderly.serials, orderly.taken_nonempty,
      orderly.taken_greatest⟩
  | worker i =>
    obtain ⟨place, rfl⟩ | ⟨place, rfl⟩ | ⟨place, rfl⟩ | ⟨ptr, place, rfl⟩ := worker_cases h
    · split
      · exact orderly.goes place rfl rfl
      · exact orderly.goes place rfl rfl
    · exact orderly.look place rfl
    · split
      · exact orderly.goes place rfl rfl
      · exact orderly.look place rfl
    · exact orderly.work place

/-- With the other guard, any number of workers is safe in every run. -/
theorem priority_task_thread_pool_safe (cnt : Nat) (acts : List (Action T)) :
    Always priorityTaskThreadPool Safe (start T cnt) acts :=
  always_mono (fun _ orderly => orderly.safe)
    (always_of_kept (fun _ _ _ => orderly_step) (orderly_start cnt) acts)

end Pool

end PriorityTask
