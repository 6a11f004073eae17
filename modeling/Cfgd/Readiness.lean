import Cfgd.SendOrder

/-!
# Waiting for a writable link

`fifo_pop` cancels the registration for `EPOLLOUT` after it has released the lock. What
`fifo_queue` registers in between is cancelled with it.
-/

namespace Readiness

open SendPath SendOrder Transition

def registered : Caller → Bool
  | .registered _ => true
  | _ => false

/-- The queue is in use again, or about to be, and `EPOLLOUT` registered for it. -/
def registeredAgain (s : State) : Bool := s.txOverflow || registered s.caller

/-- No call is in progress and no task pending. -/
structure Quiescent (s : State) : Prop where
  caller : s.caller = .idle
  pool : s.pool = .idle
  tasks : s.tasks = 0

instance (s : State) : Decidable (Quiescent s) :=
  decidable_of_iff (s.caller = .idle ∧ s.pool = .idle ∧ s.tasks = 0)
    ⟨fun ⟨caller, pool, tasks⟩ => ⟨caller, pool, tasks⟩,
      fun ⟨caller, pool, tasks⟩ => ⟨caller, pool, tasks⟩⟩

/-- At rest, `EPOLLOUT` is registered exactly for a queue with something in it. -/
def Ready (s : State) : Prop := Quiescent s → (s.epollout = true ↔ s.fifo ≠ [])

instance (s : State) : Decidable (Ready s) := inferInstanceAs (Decidable (_ → _))

/-- A cancellation comes before the next registration. -/
def InTime (s : State) (a : Act) : Prop := a = .cancel → registeredAgain s = false

instance (s : State) (a : Act) : Decidable (InTime s a) := inferInstanceAs (Decidable (_ → _))

/-- `EPOLLOUT` is registered for a queue in use, and until the cancellation is made. -/
def Wired (s : State) : Prop :=
  s.epollout = true ↔ registeredAgain s = true ∨ s.pool = .cancelling

variable {s t : State}

theorem wired_initial : Wired initial := iff_of_false Bool.false_ne_true (by decide)

theorem registeredAgain_of_caller {caller : Caller} (here : s.caller = caller)
    (other : registered caller = false) : registeredAgain s = s.txOverflow := by
  rw [registeredAgain, here, other, Bool.or_false]

/-- Steps of a caller that neither has registered nor does. -/
theorem Wired.moved (wired : Wired s) {caller : Caller} (here : s.caller = caller)
    (other : registered caller = false) (same : registeredAgain t = s.txOverflow)
    (pool : t.pool = s.pool) (epollout : t.epollout = s.epollout) : Wired t := by
  unfold Wired
  rw [same, pool, epollout, ← registeredAgain_of_caller here other]
  exact wired

/-- Steps of the pool that cancel nothing. -/
theorem Wired.pooled (wired : Wired s) {pool : Pool} (here : s.pool = pool)
    (other : pool ≠ .cancelling) (after : t.pool ≠ .cancelling)
    (same : registeredAgain t = registeredAgain s) (epollout : t.epollout = s.epollout) :
    Wired t := by
  unfold Wired at wired ⊢
  rw [same, epollout, wired, here]
  simp only [other, after, or_false]

theorem wired_step {a : Act} (wired : Wired s) (inTime : InTime s a) (change : Change s a t) :
    Wired t := by
  cases change with
  | refused idle | called idle => exact wired.moved idle rfl (Bool.or_false _) rfl rfl
  | overflow here | direct here | callerAccepted here | callerBlocked here | callerSent here
  | full here | queued here | locked here =>
    exact wired.moved here rfl (Bool.or_false _) rfl rfl
  | register => exact iff_of_true rfl (Or.inl (Bool.or_true _))
  | unlock here =>
    have again : registeredAgain s = true := by
      rw [registeredAgain, here]
      exact Bool.or_true _
    have out : s.epollout = true := wired.mpr (Or.inl again)
    exact iff_of_true out (Or.inl rfl)
  | popLast _ _ _ _ flag =>
    have again : registeredAgain s = true := by
      rw [registeredAgain, flag]
      rfl
    have out : s.epollout = true := wired.mpr (Or.inl again)
    exact iff_of_true out (Or.inr rfl)
  | cancel =>
    refine iff_of_false Bool.false_ne_true ?_
    rintro (again | cancelling)
    · have early : registeredAgain s = false := inTime rfl
      exact Bool.false_ne_true (early.symm.trans again)
    · cases cancelling
  | take here | topNone here | topSome here | poolBlocked here | poolSent here | popNone here
  | popMore here | add here =>
    exact wired.pooled here (by nofun) (by nofun) rfl rfl
  | event | poolAccepted | callerInterrupted | poolInterrupted => exact wired

theorem ready_of_wired (counted : Counted s) (wired : Wired s) : Ready s := by
  intro quiescent
  have free : ¬ s.caller.holdsLock := by
    rw [quiescent.caller]
    exact id
  obtain ⟨size, flagged⟩ := counted.free free
  have registered_ := registeredAgain_of_caller quiescent.caller rfl
  rw [Wired, registered_, quiescent.pool] at wired
  constructor
  · intro out
    have flag := (wired.mp out).resolve_right (by nofun)
    have positive := flagged.mp flag
    apply List.ne_nil_of_length_pos
    omega
  · intro some_
    have positive := List.length_pos_of_ne_nil some_
    apply wired.mpr
    exact Or.inl (flagged.mpr (by omega))

/-- As long as every cancellation comes before the next registration, no packet is left in
the queue without a wake-up. -/
theorem ready_of_inTime {acts : List Act} (inTime : Along step InTime initial acts) :
    Always step Ready initial acts := by
  have preserved : ∀ s a t, Orderly s ∧ Wired s → InTime s a → step s a = some t →
      Orderly t ∧ Wired t := by
    rintro s a t ⟨orderly, wired⟩ early h
    exact ⟨orderly_step s a t orderly h, wired_step wired early (change_of_step h)⟩
  refine always_mono ?_ (always_of_along preserved ⟨orderly_initial, wired_initial⟩ inTime)
  rintro s ⟨orderly, wired⟩
  exact ready_of_wired orderly.counted wired

/-- A packet is queued, and sent when the link is writable. -/
def queuedRun : List Act :=
  [.write [] [1], .checkOverflow, .callerSend .wouldBlock, .queue, .register, .unlock,
    .event, .take, .top, .poolSend (.accepted 1), .poolSent, .pop, .cancel, .add,
    .take, .top]

theorem ready_of_inTime_queuedRun : (run step initial queuedRun).isSome ∧
    Always step Ready initial queuedRun :=
  ⟨by decide, ready_of_inTime (by decide)⟩

/-- The next packet is queued just before the cancellation and then meets a link that is
not writable. -/
def overriddenRun : List Act :=
  [.write [] [1], .checkOverflow, .callerSend .wouldBlock, .queue, .register, .unlock,
    .event, .take, .top, .poolSend (.accepted 1), .poolSent, .pop,
    .write [] [2], .checkOverflow, .callerSend .wouldBlock, .queue, .register, .unlock,
    .cancel, .add, .take, .top, .poolSend .wouldBlock]

theorem not_always_ready : ¬ ∀ acts, Always step Ready initial acts := by
  intro always
  exact absurd (always overriddenRun) (by decide)

end Readiness
