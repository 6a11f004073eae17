import Cfgd.LinkWindow

/-!
# One status for each segment

The client matches the statuses of a response to the segments of its request by their
order. Every handler answers a segment once, but for two cases: a recovery that fails
answers nothing, and a request that no handler serves is answered once for all its
segments.
-/

namespace StatusLines

open CText Request Response Handlers TaskTable Exchange Transition Pipeline LinkWindow

/-- What the answers are about: each segment, or the request itself when it has none. -/
def segmentsOf (segments : List Jrp) : List (Option Jrp) :=
  if segments = [] then [none] else segments.map some

/-- The response has one status for each segment, in their order. -/
structure AnswersEach (segments : List Jrp) (r : TaskTable.Response) : Prop where
  count : (statuses r.reply).length = max 1 segments.length
  about : r.answers.map Prod.fst = segmentsOf segments
  one : ∀ a ∈ r.answers, a.2.length = 1
  statuses : statuses r.reply = r.answers.flatMap Prod.snd

/-- Every response to a request that was queued answers each of its segments, if it fits. -/
def Settled (r : TaskTable.Response) : Prop :=
  ∀ segments, r.history.asked = some segments → Fits r.reply → AnswersEach segments r

def StatusPerSegment (s : State) : Prop :=
  ∀ r ∈ s.responding ++ s.writing ++ s.frames, Settled r

/-- No request with several segments is without a handler, and no recovery fails. -/
def AnswersAll (s : State) : Act → Prop
  | .take worker => ∀ task ∈ (s.queue worker).head?, task.handler = none →
      task.payload.length ≤ 1
  | .handle worker calls => ∀ e ∈ s.running worker,
      e.task.handler = some .fsRecoverCheckpoint → calls.moved = true
  | _ => True

instance (s : State) : ∀ a, Decidable (AnswersAll s a)
  | .take worker => inferInstanceAs (Decidable (∀ task ∈ (s.queue worker).head?, _))
  | .handle worker _ => inferInstanceAs (Decidable (∀ e ∈ s.running worker, _))
  | .accept _ => .isTrue trivial
  | .close _ => .isTrue trivial
  | .arrive _ _ => .isTrue trivial
  | .flush => .isTrue trivial
  | .setProperty _ => .isTrue trivial
  | .receive _ => .isTrue trivial
  | .finish _ => .isTrue trivial
  | .respond _ => .isTrue trivial
  | .write _ _ => .isTrue trivial
  | .post _ _ => .isTrue trivial
  | .pop _ => .isTrue trivial

/-! ## What the items know of their segments -/

/-- A request that is queued for the first time, or the second half of a recovery. -/
def Chained (r : Request) : Prop :=
  r.history.asked = none ∨ ∃ segments, r.history.asked = some segments ∧ segments.length ≤ 1 ∧
    r.title = recover2 ∧ r.payload = some (ofChars ['/'])

structure Asks (task : Task) (segments : List Jrp) : Prop where
  asked : task.history.asked = some segments
  size : max 1 segments.length = max 1 task.payload.length
  recovers : task.handler = some .fsRecoverCheckpoint → segments.length ≤ 1
  own : task.handler = some .fsFsync → task.link = none

/-- The statuses so far belong to the first segments. -/
structure Answering (segments : List Jrp) (e : Execution) : Prop where
  count : e.answers.length + e.todo.length = max 1 segments.length
  about : e.answers.map Prod.fst = (List.range e.answers.length).map fun k => segments[k]?
  one : Fits e.reply → ∀ a ∈ e.answers, a.2.length = 1
  statuses : Fits e.reply → statuses e.reply = e.answers.flatMap Prod.snd

def Known : Item → Prop
  | .receiving r => Chained r
  | .queued _ task => ∃ segments, Asks task segments
  | .running _ e => ∃ segments, Asks e.task segments ∧ (e.task.link ≠ none → Answering segments e)
  | .responding r => Settled r
  | .writing r => Settled r
  | .sent r => Settled r
  | .refused r => Settled r

section Turns

theorem range_segments (segments : List Jrp) :
    (List.range (max 1 segments.length)).map (fun k => segments[k]?) = segmentsOf segments := by
  rw [segmentsOf]
  cases segments with
  | nil => rfl
  | cons jrp rest =>
    rw [if_neg (List.cons_ne_nil jrp rest), List.length_cons, Nat.max_eq_right (by omega)]
    refine List.ext_getElem? fun k => ?_
    rw [List.getElem?_map, List.getElem?_map]
    by_cases inside : k < rest.length + 1
    · rw [List.getElem?_range inside]
      have found := List.getElem?_eq_getElem (l := jrp :: rest) (i := k) inside
      rw [Option.map_some, found]
      rfl
    · rw [List.getElem?_eq_none (by rw [List.length_range]; omega),
        List.getElem?_eq_none (by rw [List.length_cons]; omega)]
      rfl

theorem statuses_responseHead (title dupopt : Bytes) :
    statuses (responseHead title dupopt) = [] := by
  have first : statuses (proAppendResponse [] (.text (title ++ crlf))) = [] := by
    rw [proAppendResponse]
    split <;> rfl
  rw [responseHead]
  split
  · rw [proAppendResponse]
    split
    · exact first
    · rw [statuses_append, first]
      rfl
  · exact first

/-- What an execution has when nothing is left to do. -/
theorem answersEach_of_done {segments : List Jrp} {e : Execution} (answering : Answering segments e)
    (done : e.todo = []) (fits : Fits e.reply) {r : TaskTable.Response} (reply : r.reply = e.reply)
    (answers : r.answers = e.answers) : AnswersEach segments r := by
  have all : e.answers.length = max 1 segments.length := by
    have count := answering.count
    rwa [done, List.length_nil, Nat.add_zero] at count
  have one := answering.one fits
  have each := answering.statuses fits
  refine ⟨?_, ?_, ?_, ?_⟩
  · rw [reply, each, List.length_flatMap, ← all]
    have ones : e.answers.map (fun a => a.2.length) = e.answers.map fun _ => 1 :=
      List.map_congr_left one
    rw [ones]
    simp
  · rw [answers, answering.about, all, range_segments]
  · rwa [answers]
  · rw [reply, answers, each]

theorem answering_proExecuteTask {task : Task} {segments : List Jrp} (asks : Asks task segments)
    (served : task.handler = none → task.payload.length ≤ 1) :
    Answering segments (proExecuteTask task) := by
  have size := asks.size
  have head := statuses_responseHead task.title task.dupopt
  have first : task.history.segment 0 = segments[0]? := by
    rw [History.segment, asks.asked]
    rfl
  have answered : ∀ status, Fits (answer (responseHead task.title task.dupopt) status) →
      statuses (answer (responseHead task.title task.dupopt) status) = [status] := by
    intro status fits
    obtain ⟨-, whole⟩ := proAppendResponse_fits fits
    rw [answer, whole, statuses_append, head]
    rfl
  rw [proExecuteTask]
  split
  · rename_i empty
    rw [empty] at size
    exact ⟨size.symm, rfl, fun _ _ mem => absurd mem List.not_mem_nil, fun _ => head⟩
  · rename_i some
    have filled : 0 < task.payload.length := List.length_pos_iff.mpr some
    refine ⟨?_, rfl, fun _ _ mem => absurd mem List.not_mem_nil, fun _ => head⟩
    change 0 + task.payload.length = max 1 segments.length
    omega
  · rename_i empty
    rw [empty] at size
    refine ⟨size.symm, by simp [first], fun _ _ mem => ?_, fun fits => answered _ fits⟩
    obtain rfl := List.mem_singleton.mp mem
    rfl
  · rename_i none _
    have few := served none
    refine ⟨?_, by simp [first], fun _ _ mem => ?_, fun fits => answered _ fits⟩
    · rw [size, List.length_singleton, List.length_nil]
      omega
    · obtain rfl := List.mem_singleton.mp mem
      rfl

theorem fsFsync_alone : ∀ c ∈ commands, c.handler ≠ some .fsFsync := by decide

theorem recover_one : ∀ c ∈ commands, c.handler = some .fsRecoverCheckpoint → c.size = .one := by
  decide

/-- A task that is queued knows what it was asked. -/
theorem asks_of_chosen {r : Request} {task task' : Task} {worker : Worker} (stands : Stands r task)
    (kept : TaskTable.Kept task task') (chosen : Chosen task task'.handler worker)
    (chained : Chained r) : ∃ segments, Asks task'.asking segments := by
  have own : task'.handler = some .fsFsync → task'.link = none := by
    rw [kept.link]
    generalize task'.handler = handler at chosen
    intro isFsync
    cases chosen with
    | fsync title own empty => exact own
    | command c mem title size => exact absurd isFsync (fsFsync_alone c mem)
  have single : task'.handler = some .fsRecoverCheckpoint → task'.payload.length = 1 := by
    rw [kept.payload]
    generalize task'.handler = handler at chosen
    intro isRecover
    cases chosen with
    | fsync title own empty => cases isRecover
    | command c mem title size =>
      rw [recover_one c mem isRecover] at size
      simpa [Size.accepts] using size
  have size := stands.size
  rw [← kept.payload] at size
  rcases chained with first | ⟨segments, asked, few, -, payload⟩
  · have none : task'.history.asked = none := by rw [kept.history, stands.history, first]
    refine ⟨task'.payload, ?_, rfl, fun recovers => (single recovers).le, own⟩
    change some (task'.history.asked.getD task'.payload) = some task'.payload
    rw [none]
    rfl
  · have one : (buildEffective (ofChars ['/'])).2.length = 1 := by decide
    have some : task'.history.asked = some segments := by rw [kept.history, stands.history, asked]
    rw [payload, Option.getD_some, one] at size
    refine ⟨segments, ?_, ?_, fun _ => few, own⟩
    · change Option.some (task'.history.asked.getD task'.payload) = Option.some segments
      rw [some]
      rfl
    · change max 1 segments.length = max 1 task'.payload.length
      omega

theorem settled_fault {r : Request} {task task' : Task} (stands : Stands r task)
    (kept : TaskTable.Kept task task') (chained : Chained r) {response : TaskTable.Response}
    (made : proCompleteTaskAsFault r.caller task' = some response) : Settled response := by
  rw [proCompleteTaskAsFault] at made
  split at made
  · cases made
  · dsimp only at made
    split at made
    · cases made
    · obtain rfl := Option.some.inj made
      intro segments asked fits
      have history : task'.history = r.history := by rw [kept.history, stands.history]
      rw [history] at asked
      have few : segments.length ≤ 1 := by
        rcases chained with none | ⟨others, some, few, -⟩
        · rw [none] at asked
          cases asked
        · rw [asked] at some
          exact Option.some.inj some ▸ few
      have fatal : statuses (faultReply task'.title task'.dupopt) = [.fatal] := by
        rw [faultReply]
        split <;> rfl
      have first : task'.history.segment 0 = segments[0]? := by
        rw [History.segment, history, asked]
        rfl
      refine ⟨?_, ?_, fun a mem => ?_, ?_⟩
      · rw [fatal, List.length_singleton]
        omega
      · rw [← range_segments, Nat.max_eq_left few, first]
        rfl
      · obtain rfl := List.mem_singleton.mp mem
        rfl
      · rw [fatal]
        rfl

/-- A handler that answers once adds the answer to the segment that comes next. -/
theorem answering_answers {segments : List Jrp} {e : Execution} {jrp : Jrp} {rest : List Jrp}
    {reply : Reply} (asked : e.task.history.asked = some segments)
    (answering : Answering segments e) (todo : e.todo = jrp :: rest)
    (answers : Answers e.reply reply) {task : Task} :
    Answering segments ⟨task, e.todo.tail, reply, e.answers ++
      [(e.task.history.segment e.answers.length, statuses (reply.drop e.reply.length))]⟩ := by
  have next : e.task.history.segment e.answers.length = segments[e.answers.length]? := by
    rw [History.segment, asked]
    rfl
  obtain ⟨status, added⟩ := answers
  have count := answering.count
  rw [todo, List.length_cons] at count
  refine ⟨?_, ?_, ?_, ?_⟩
  · rw [todo, List.length_append, List.length_singleton, List.tail_cons]
    change e.answers.length + 1 + rest.length = max 1 segments.length
    omega
  · rw [List.map_append, answering.about, List.length_append, List.length_singleton,
      List.range_succ, List.map_append, List.map_singleton, List.map_singleton, next]
  · intro fits a mem
    obtain ⟨before, tail, rfl, one⟩ := added fits
    rcases List.mem_append.mp mem with old | last
    · exact answering.one before a old
    · obtain rfl := List.mem_singleton.mp last
      dsimp only
      rw [List.drop_left, one]
      rfl
  · intro fits
    obtain ⟨before, tail, rfl, one⟩ := added fits
    dsimp only
    rw [statuses_append, answering.statuses before, List.flatMap_append, List.drop_left, one]
    rfl

theorem known_callHandler {worker : Worker} (number : Nat) {calls : Callees} (options : List Jrp)
    {e : Execution} {handler : Handler} {jrp : Jrp} {rest : List Jrp}
    (handled : e.task.handler = some handler) (todo : e.todo = jrp :: rest)
    (moved : handler = .fsRecoverCheckpoint → calls.moved = true)
    (known : Known (.running worker e)) :
    Known (.running worker (callHandler worker number e
      (handler.call calls options jrp e.reply)).execution) ∧
    ∀ r, (callHandler worker number e (handler.call calls options jrp e.reply)).appended =
      some r → Known (.receiving r) := by
  obtain ⟨segments, asks, answering⟩ := known
  constructor
  · rcases callHandler_execution worker number e (handler.call calls options jrp e.reply) with
      same | ⟨_, -, same⟩
    · rw [same]
      refine ⟨segments, asks, fun linked => ?_⟩
      have linked : e.task.link ≠ none := linked
      have notFsync : handler ≠ .fsFsync := by
        rintro rfl
        exact linked (asks.own handled)
      have notRecover : handler ≠ .fsRecoverCheckpoint := by
        rintro rfl
        have gone : (callHandler worker number e (Handler.call .fsRecoverCheckpoint calls
            options jrp e.reply)).execution.task.link = none := by
          simp [Handler.call, fsRecoverCheckpoint_moved (moved rfl), callHandler]
        rw [same] at gone
        exact linked gone
      exact answering_answers asks.asked (answering linked) todo
        (handler.call_answers notFsync notRecover calls options jrp e.reply)
    · rw [same]
      exact ⟨segments, ⟨asks.asked, asks.size, asks.recovers, fun _ => rfl⟩,
        fun linked => absurd rfl linked⟩
  · intro r made
    obtain ⟨-, rfl⟩ | ⟨placed, started, rfl⟩ := callHandler_appended made
    · exact Or.inl rfl
    · have starts := handler.call_starts calls options jrp e.reply
      rw [started] at starts
      obtain rfl : handler = .fsRecoverCheckpoint := starts
      exact Or.inr ⟨segments, asks.asked, asks.recovers handled, rfl, rfl⟩

theorem settled_sendResponse {worker : Worker} {e : Execution} (done : e.todo = [])
    (known : Known (.running worker e)) {r : TaskTable.Response}
    (sent : proSendResponse worker e = some r) : Settled r := by
  obtain ⟨segments, asks, answering⟩ := known
  rw [proSendResponse] at sent
  split at sent
  · cases sent
  · rename_i link linked
    split at sent
    · obtain rfl := Option.some.inj sent
      intro others asked fits
      obtain rfl := Option.some.inj (asks.asked.symm.trans asked)
      exact answersEach_of_done (answering (by rw [linked]; exact Option.some_ne_none link)) done
        fits rfl rfl
    · cases sent

theorem turn_known {s : State} {a : Act} {taken given : Multiset Item} {books : Ledger}
    (turn : Turn s a taken given books) (ok : AnswersAll s a) (known : ∀ x ∈ taken, Known x) :
    ∀ x ∈ given, Known x := by
  cases turn with
  | stay => exact fun x mem => absurd mem (Multiset.notMem_zero x)
  | accept => exact fun x mem => absurd mem (Multiset.notMem_zero x)
  | close => exact fun x mem => absurd mem (Multiset.notMem_zero x)
  | refuse link data head =>
    intro x mem
    obtain rfl := Multiset.mem_singleton.mp mem
    exact fun segments asked => nomatch asked
  | arrive link data head w found isOpen room =>
    intro x mem
    obtain rfl := Multiset.mem_singleton.mp mem
    exact Or.inl rfl
  | own _ r outside alone thread =>
    intro x mem
    obtain rfl := Multiset.mem_singleton.mp mem
    exact Or.inl (by rw [thread])
  | receive i r task task' stands kept worker chosen =>
    intro x mem
    obtain rfl := Multiset.mem_singleton.mp mem
    exact asks_of_chosen stands kept chosen (known _ (Multiset.mem_singleton_self _))
  | reject i r task task' stands kept =>
    intro x mem
    obtain ⟨response, made, rfl⟩ := List.mem_map.mp (Multiset.mem_coe.mp mem)
    exact settled_fault stands kept (known _ (Multiset.mem_singleton_self _))
      (Option.mem_toList.mp made)
  | take worker task first =>
    intro x mem
    obtain rfl := Multiset.mem_singleton.mp mem
    obtain ⟨segments, asks⟩ := known _ (Multiset.mem_singleton_self _)
    refine ⟨segments, ?_, fun _ => answering_proExecuteTask asks (ok task first)⟩
    rwa [proExecuteTask_task]
  | handle worker calls e handler jrp _ running handled todo =>
    have moved : handler = .fsRecoverCheckpoint → calls.moved = true := fun recovers =>
      ok e running (recovers ▸ handled)
    obtain ⟨next, appended⟩ := known_callHandler s.calls.length e.task.options handled todo moved
      (known _ (Multiset.mem_singleton_self _))
    intro x mem
    rcases Multiset.mem_add.mp mem with own | more
    · obtain rfl := Multiset.mem_singleton.mp own
      exact next
    · obtain ⟨r, made, rfl⟩ := List.mem_map.mp (Multiset.mem_coe.mp more)
      exact appended r (Option.mem_toList.mp made)
  | finish worker e done =>
    intro x mem
    obtain ⟨r, made, rfl⟩ := List.mem_map.mp (Multiset.mem_coe.mp mem)
    exact settled_sendResponse done (known _ (Multiset.mem_singleton_self _))
      (Option.mem_toList.mp made)
  | respond i r w isOpen =>
    intro x mem
    obtain rfl := Multiset.mem_singleton.mp mem
    exact known (.responding r) (Multiset.mem_singleton_self _)
  | lost => exact fun x mem => absurd mem (Multiset.notMem_zero x)
  | write i r =>
    intro x mem
    obtain rfl := Multiset.mem_singleton.mp mem
    exact known (.writing r) (Multiset.mem_singleton_self _)
  | busy i r =>
    intro x mem
    obtain rfl := Multiset.mem_singleton.mp mem
    exact known (.writing r) (Multiset.mem_singleton_self _)
  | drop => exact fun x mem => absurd mem (Multiset.notMem_zero x)

end Turns

/-! ## Runs -/

theorem statusPerSegment_of_known {s : State} (known : ∀ x ∈ items s, Known x) :
    StatusPerSegment s := by
  intro r mem
  rcases List.mem_append.mp mem with earlier | sent
  · rcases List.mem_append.mp earlier with responding | writing
    · exact known (.responding r) (by simp [items, collected, responding])
    · exact known (.writing r) (by simp [items, collected, writing])
  · exact known (.sent r) (by simp [items, collected, sent])

/-- While no recovery fails and no request without a handler has several segments, every
response that fits has one status for each segment, in their order; and for every request
that was counted one response is handed to `tcp_write`. -/
theorem one_status_per_segment (acts : List Act) (along : Along step AnswersAll start acts) :
    Always step (fun s => StatusPerSegment s ∧ Drains s) start acts := by
  have preserved : ∀ s a t, (∀ x ∈ items s, Known x) ∧ Sound s → AnswersAll s a →
      step s a = some t → (∀ x ∈ items t, Known x) ∧ Sound t := by
    rintro s a t ⟨known, sound⟩ ok next
    exact ⟨step_items (fun _ _ _ turn known => turn_known turn ok known) next known,
      step_sound next sound⟩
  have nothing : ∀ x ∈ items start, Known x := fun x mem => absurd mem (Multiset.notMem_zero x)
  refine always_mono ?_ (always_of_along preserved ⟨nothing, sound_start⟩ along)
  rintro s ⟨known, sound⟩
  exact ⟨statusPerSegment_of_known known, drains_of_sound sound⟩

def recoverRequest : Bytes := TaskTable.recover ++ crlf ++ ofChars ['x']

/-- A recovery from a file that is not there is answered without a status. -/
theorem recover_without_status :
    ¬ ∀ acts, Always step StatusPerSegment start acts := by
  intro all
  have ends : ((run step start (served recoverRequest .dpc [.failing])).bind
      fun t => t.responding.head?) = some ⟨some .dpc, 1, [.text (TaskTable.recover ++ crlf)],
        ⟨some 0, .client, some [⟨[⟨ofChars ['x'], -1, .dir⟩], none, ofChars ['x'], []⟩]⟩,
        [(some ⟨[⟨ofChars ['x'], -1, .dir⟩], none, ofChars ['x'], []⟩, [])]⟩ := by decide
  obtain ⟨t, ran, first⟩ := Option.bind_eq_some_iff.mp ends
  have settled := always_end (all _) ran _
    (List.mem_append_left _ (List.mem_append_left _ (List.mem_of_head? first)))
  have each := settled _ rfl (by decide)
  exact absurd each.count (by decide)

def readRequest : Bytes := TaskTable.read ++ crlf ++ ofChars ['x']

theorem one_status_per_segment_read :
    Always step (fun s => StatusPerSegment s ∧ Drains s) start
        (served readRequest .pro [.failing]) ∧
      (run step start (served readRequest .pro [.failing])).isSome :=
  ⟨one_status_per_segment _ (by decide), by decide⟩

end StatusLines
