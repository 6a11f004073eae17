import Cfgd.LinkWindow

/-!
# The stages that only the server starts

`fs_sync` hands over to `fs_fsync`, and `fs_recover_checkpoint` to
`pro_recover_checkpoint`, by requests that go through the same table of titles as those
of the clients. An fsync request with a link is turned away. A `recover2` request is not.
-/

namespace Stages

open CText Request Response Handlers TaskTable Exchange Transition Pipeline LinkWindow

/-- The request was appended by a call of that handler with that effect. -/
def MadeBy (calls : List Call) (cause : Cause) (handler : Handler) (effect : Effect) : Prop :=
  ∃ j c, cause = .call j ∧ calls[j]? = some c ∧ c.handler = handler ∧ c.effect = effect

/-- What a handler needs before it: for `fs_fsync` a call of `fs_sync` that asked for it,
for `pro_recover_checkpoint` one of `fs_recover_checkpoint` that put a checkpoint in place. -/
def Due (calls : List Call) (handler : Handler) (cause : Cause) : Prop :=
  (handler = .fsFsync → MadeBy calls cause .fsSync .appendFsync) ∧
    (handler = .proRecoverCheckpoint →
      MadeBy calls cause .fsRecoverCheckpoint (.appendRecover true))

/-- Every call of an internal stage is due to a call before it. -/
def Justified (s : State) : Prop :=
  ∀ i call, s.calls[i]? = some call → Due (s.calls.take i) call.handler call.cause

/-- No client sends the title of the second half of a recovery, and a checkpoint in the
swap file gets into the place of the database. -/
def Ordinary (s : State) : Act → Prop
  | .arrive _ data => ∀ head ∈ rtAnalyzeReqHead data, head.title ≠ recover2
  | .handle worker calls => ∀ e ∈ s.running worker,
      e.task.handler = some .fsRecoverCheckpoint → calls.moved = true →
      (List.range 3).any calls.rename = true
  | _ => True

instance (s : State) : ∀ a, Decidable (Ordinary s a)
  | .arrive _ data => inferInstanceAs (Decidable (∀ head ∈ rtAnalyzeReqHead data, _))
  | .handle worker _ => inferInstanceAs (Decidable (∀ e ∈ s.running worker, _))
  | .accept _ => .isTrue trivial
  | .close _ => .isTrue trivial
  | .flush => .isTrue trivial
  | .setProperty _ => .isTrue trivial
  | .receive _ => .isTrue trivial
  | .take _ => .isTrue trivial
  | .finish _ => .isTrue trivial
  | .respond _ => .isTrue trivial
  | .write _ _ => .isTrue trivial
  | .post _ _ => .isTrue trivial
  | .pop _ => .isTrue trivial

/-! ## What the items carry -/

/-- The handler that a request can still get is due. -/
def Traced (calls : List Call) : Item → Prop
  | .receiving r =>
    (r.title = fsync → r.link = none → Due calls .fsFsync r.history.cause) ∧
      (r.title = recover2 → Due calls .proRecoverCheckpoint r.history.cause)
  | .queued _ task => ∀ handler, task.handler = some handler → Due calls handler task.history.cause
  | .running _ e =>
    ∀ handler, e.task.handler = some handler → Due calls handler e.task.history.cause
  | _ => True

section Turns
variable {calls more : List Call}

theorem MadeBy.append {cause : Cause} {handler : Handler} {effect : Effect}
    (h : MadeBy calls cause handler effect) (more : List Call) :
    MadeBy (calls ++ more) cause handler effect := by
  obtain ⟨j, c, made, found, is⟩ := h
  obtain ⟨inside, -⟩ := List.getElem?_eq_some_iff.mp found
  exact ⟨j, c, made, (List.getElem?_append_left inside).trans found, is⟩

theorem Due.append {handler : Handler} {cause : Cause} (h : Due calls handler cause)
    (more : List Call) : Due (calls ++ more) handler cause :=
  ⟨fun isFsync => (h.1 isFsync).append more, fun isRecover => (h.2 isRecover).append more⟩

theorem Traced.append {x : Item} (h : Traced calls x) (more : List Call) :
    Traced (calls ++ more) x := by
  cases x with
  | receiving r =>
    exact ⟨fun title own => (h.1 title own).append more, fun title => (h.2 title).append more⟩
  | queued worker task => exact fun handler handled => (h handler handled).append more
  | running worker e => exact fun handler handled => (h handler handled).append more
  | responding r => trivial
  | writing r => trivial
  | sent r => trivial
  | refused r => trivial

/-- A handler that is no stage is always due. -/
theorem due_other {handler : Handler} {cause : Cause} (notFsync : handler ≠ .fsFsync)
    (notRecover : handler ≠ .proRecoverCheckpoint) : Due calls handler cause :=
  ⟨fun isFsync => absurd isFsync notFsync, fun isRecover => absurd isRecover notRecover⟩

theorem due_fsync {cause : Cause} (h : MadeBy calls cause .fsSync .appendFsync) :
    Due calls .fsFsync cause :=
  ⟨fun _ => h, fun isRecover => Handler.noConfusion isRecover⟩

theorem due_recover {cause : Cause}
    (h : MadeBy calls cause .fsRecoverCheckpoint (.appendRecover true)) :
    Due calls .proRecoverCheckpoint cause :=
  ⟨fun isFsync => Handler.noConfusion isFsync, fun _ => h⟩

/-- The titles of the table that stand for a stage. -/
theorem stage_title : ∀ c ∈ commands, c.handler ≠ some .fsFsync ∧
    (c.handler = some .proRecoverCheckpoint → c.title = recover2) := by decide

theorem traced_of_chosen {r : Request} {task task' : Task} {worker : Worker}
    (stands : Stands r task) (kept : TaskTable.Kept task task')
    (chosen : Chosen task task'.handler worker) (traced : Traced calls (.receiving r)) :
    Traced calls (.queued worker task'.asking) := by
  intro handler handled
  change Due calls handler task'.history.cause
  rw [kept.history, stands.history]
  have handled : task'.handler = some handler := handled
  generalize task'.handler = found at chosen handled
  cases chosen with
  | fsync title own empty =>
    obtain rfl := Option.some.inj handled
    exact traced.1 (stands.title ▸ title) (stands.link ▸ own)
  | command c mem title size =>
    obtain ⟨notFsync, recovers⟩ := stage_title c mem
    rw [handled] at notFsync recovers
    by_cases isRecover : handler = .proRecoverCheckpoint
    · subst isRecover
      refine traced.2 ?_
      rw [← stands.title, title, recovers rfl]
    · refine due_other ?_ isRecover
      rintro rfl
      exact notFsync rfl

theorem traced_callHandler {worker : Worker} {e : Execution} {handler : Handler} {calls : Callees}
    {before : List Call} {jrp : Jrp} {options : List Jrp}
    (placed : handler = .fsRecoverCheckpoint → calls.moved = true →
      (List.range 3).any calls.rename = true)
    (traced : Traced before (.running worker e)) (call : Call) (handler_eq : call.handler = handler)
    (effect_eq : call.effect = (handler.call calls options jrp e.reply).effect) :
    Traced (before ++ [call]) (.running worker (callHandler worker before.length e
      (handler.call calls options jrp e.reply)).execution) ∧
    ∀ r, (callHandler worker before.length e (handler.call calls options jrp e.reply)).appended =
      some r → Traced (before ++ [call]) (.receiving r) := by
  constructor
  · rcases callHandler_execution worker before.length e
      (handler.call calls options jrp e.reply) with
      same | ⟨_, -, same⟩
    · rw [same]
      exact traced.append [call]
    · rw [same]
      exact traced.append [call]
  · intro r made
    have last : (before ++ [call])[before.length]? = some call := List.getElem?_concat_length
    have starts := handler.call_starts calls options jrp e.reply
    obtain ⟨started, rfl⟩ | ⟨place, started, rfl⟩ := callHandler_appended made
    · rw [started] at starts effect_eq
      have other : fsync ≠ recover2 := by decide
      exact ⟨fun _ _ => due_fsync ⟨_, call, rfl, last, handler_eq.trans starts, effect_eq⟩,
        fun same => absurd same other⟩
    · rw [started] at starts effect_eq
      obtain rfl : handler = .fsRecoverCheckpoint := starts
      have moved : calls.moved = true := by
        by_contra failed
        simp [Handler.call, fsRecoverCheckpoint, failed] at started
      rw [Handler.call, fsRecoverCheckpoint_moved moved, placed rfl moved] at started
      obtain rfl := Effect.appendRecover.inj started
      have other : recover2 ≠ fsync := by decide
      exact ⟨fun same => absurd same other,
        fun _ => due_recover ⟨_, call, rfl, last, handler_eq, effect_eq⟩⟩

/-- A turn traces what it gives, and a stage that it calls is due. -/
theorem turn_traced {s : State} {a : Act} {taken given : Multiset Item} {books : Ledger}
    (turn : Turn s a taken given books) (ok : Ordinary s a)
    (traced : ∀ x ∈ taken, Traced s.calls x) :
    (∀ x ∈ given, Traced books.calls x) ∧
      (books.calls = s.calls ∨ ∃ call, books.calls = s.calls ++ [call] ∧
        Due s.calls call.handler call.cause) := by
  cases turn with
  | stay => exact ⟨fun x mem => absurd mem (Multiset.notMem_zero x), Or.inl rfl⟩
  | accept => exact ⟨fun x mem => absurd mem (Multiset.notMem_zero x), Or.inl rfl⟩
  | close => exact ⟨fun x mem => absurd mem (Multiset.notMem_zero x), Or.inl rfl⟩
  | refuse link data head =>
    refine ⟨fun x mem => ?_, Or.inl rfl⟩
    obtain rfl := Multiset.mem_singleton.mp mem
    trivial
  | arrive link data head w found isOpen room =>
    refine ⟨fun x mem => ?_, Or.inl rfl⟩
    obtain rfl := Multiset.mem_singleton.mp mem
    exact ⟨fun _ own => absurd own (Option.some_ne_none link),
      fun title => absurd title (ok head found)⟩
  | own _ r outside alone thread title =>
    refine ⟨fun x mem => ?_, Or.inl rfl⟩
    obtain rfl := Multiset.mem_singleton.mp mem
    have notFsync : r.title ≠ fsync := by
      rcases title with same | same <;> rw [same] <;> decide
    have notRecover : r.title ≠ recover2 := by
      rcases title with same | same <;> rw [same] <;> decide
    exact ⟨fun same => absurd same notFsync, fun same => absurd same notRecover⟩
  | receive i r task task' stands kept worker chosen =>
    refine ⟨fun x mem => ?_, Or.inl rfl⟩
    obtain rfl := Multiset.mem_singleton.mp mem
    exact traced_of_chosen stands kept chosen (traced _ (Multiset.mem_singleton_self _))
  | reject i r task task' stands kept =>
    refine ⟨fun x mem => ?_, Or.inl rfl⟩
    obtain ⟨response, -, rfl⟩ := List.mem_map.mp (Multiset.mem_coe.mp mem)
    trivial
  | take worker task first =>
    refine ⟨fun x mem => ?_, Or.inl rfl⟩
    obtain rfl := Multiset.mem_singleton.mp mem
    have due := traced _ (Multiset.mem_singleton_self _)
    rwa [Traced, proExecuteTask_task]
  | handle worker calls e handler jrp _ running handled todo =>
    have before := traced _ (Multiset.mem_singleton_self _)
    have placed : handler = .fsRecoverCheckpoint → calls.moved = true →
        (List.range 3).any calls.rename = true := fun recovers =>
      ok e running (recovers ▸ handled)
    obtain ⟨next, appended⟩ := traced_callHandler placed before ⟨handler, e.task.history.cause,
      (handler.call calls e.task.options jrp e.reply).effect⟩ rfl rfl
    refine ⟨fun x mem => ?_, Or.inr ⟨_, rfl, before handler handled⟩⟩
    rcases Multiset.mem_add.mp mem with own | more
    · obtain rfl := Multiset.mem_singleton.mp own
      exact next
    · obtain ⟨r, made, rfl⟩ := List.mem_map.mp (Multiset.mem_coe.mp more)
      exact appended r (Option.mem_toList.mp made)
  | finish worker e done =>
    refine ⟨fun x mem => ?_, Or.inl rfl⟩
    obtain ⟨r, -, rfl⟩ := List.mem_map.mp (Multiset.mem_coe.mp mem)
    trivial
  | respond i r w isOpen =>
    refine ⟨fun x mem => ?_, Or.inl rfl⟩
    obtain rfl := Multiset.mem_singleton.mp mem
    trivial
  | lost => exact ⟨fun x mem => absurd mem (Multiset.notMem_zero x), Or.inl rfl⟩
  | write i r =>
    refine ⟨fun x mem => ?_, Or.inl rfl⟩
    obtain rfl := Multiset.mem_singleton.mp mem
    trivial
  | busy i r =>
    refine ⟨fun x mem => ?_, Or.inl rfl⟩
    obtain rfl := Multiset.mem_singleton.mp mem
    trivial
  | drop => exact ⟨fun x mem => absurd mem (Multiset.notMem_zero x), Or.inl rfl⟩

theorem justified_append {s t : State} {call : Call} (calls : t.calls = s.calls ++ [call])
    (justified : Justified s) (due : Due s.calls call.handler call.cause) : Justified t := by
  intro i other found
  rw [calls] at found ⊢
  rcases WindowAccount.getElem?_append_cases found with before | ⟨rfl, rfl⟩
  · obtain ⟨inside, -⟩ := List.getElem?_eq_some_iff.mp before
    rw [List.take_append_of_le_length inside.le]
    exact justified i other before
  · rwa [List.take_left]

end Turns

/-- What holds in every state of an ordinary run. -/
def Tracked (s : State) : Prop := (∀ x ∈ items s, Traced s.calls x) ∧ Justified s

theorem step_tracked {s t : State} {a : Act} (tracked : Tracked s) (ok : Ordinary s a)
    (h : step s a = some t) : Tracked t := by
  obtain ⟨traced, justified⟩ := tracked
  obtain ⟨taken, given, rest, turn, before, after⟩ := step_turns h
  obtain ⟨gives, calls⟩ := turn_traced turn ok fun x mem =>
    traced x (before ▸ Multiset.mem_add.mpr (Or.inl mem))
  have books : (ledger t).calls = t.calls := rfl
  rw [books] at gives calls
  have old : ∀ x ∈ rest, Traced s.calls x := fun x mem =>
    traced x (before ▸ Multiset.mem_add.mpr (Or.inr mem))
  rcases calls with same | ⟨call, more, due⟩
  · refine ⟨fun x mem => ?_, ?_⟩
    · rw [after] at mem
      rcases Multiset.mem_add.mp mem with isNew | stayed
      · exact gives x isNew
      · rw [same]
        exact old x stayed
    · rw [Justified, same]
      exact justified
  · refine ⟨fun x mem => ?_, justified_append more justified due⟩
    rw [after] at mem
    rcases Multiset.mem_add.mp mem with isNew | stayed
    · exact gives x isNew
    · rw [more]
      exact (old x stayed).append [call]

/-- While no client asks for the second half of a recovery, and every checkpoint that
was moved gets into its place, the internal stages run only for the server's own requests,
and the configuration is reloaded only after a checkpoint was put in place. -/
theorem stages_are_due (acts : List Act) (along : Along step Ordinary start acts) :
    Always step Justified start acts := by
  have nothing : Tracked start :=
    ⟨fun x mem => absurd mem (Multiset.notMem_zero x), fun i call found => nomatch found⟩
  have always := always_of_along (fun _ _ _ => step_tracked) nothing along
  exact always_mono (fun _ tracked => tracked.2) always

def recover2Request : Bytes := recover2 ++ crlf

/-- A client sends the title of the second half, and the configuration is reloaded. -/
theorem stages_not_always_due : ¬ ∀ acts, Always step Justified start acts := by
  intro all
  have ends : ((run step start (served recover2Request .pro [.failing])).bind
      fun t => t.calls[0]?) = some ⟨.proRecoverCheckpoint, .client, .nothing⟩ := by decide
  obtain ⟨t, ran, first⟩ := Option.bind_eq_some_iff.mp ends
  obtain ⟨j, _, made, -⟩ := (always_end (all _) ran 0 _ first).2 rfl
  cases made

/-- A recovery that goes well, in its two tasks. -/
def recovered : List Act :=
  [.accept 1, .arrive 1 (recover ++ crlf ++ ofChars ['x']), .receive 0, .take .dpc,
    .handle .dpc { Callees.failing with moved := true, rename := fun _ => true }, .receive 0,
    .finish .dpc, .take .pro, .handle .pro .failing, .finish .pro]

theorem stages_are_due_recovered : Always step Justified start recovered ∧
    ((run step start recovered).map fun t => t.calls.map Call.handler) =
      some [.fsRecoverCheckpoint, .proRecoverCheckpoint] :=
  ⟨stages_are_due recovered (by decide), by decide⟩

end Stages
