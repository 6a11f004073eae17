import Cfgd.Pipeline
import Cfgd.WindowAccount
import Mathlib.Data.Multiset.Bind

/-!
# The window of a link

A request is counted in the window of its link when it comes in, and the window is
lowered when its response is handed over. Between the two it goes through the hands of
several threads, and through two tasks if it asks for a recovery. The account of the
windows follows the items of the machine.
-/

namespace LinkWindow

open CText Request Payload Response Handlers TaskTable Exchange Transition Pipeline
open WindowAccount (Account Booking owedTo unanswered)

/-! ## Requests that are owed -/

/-- The request that a link waits for. -/
def debt : Option Nat → Option Nat → Multiset (Nat × Nat)
  | some link, some ticket => {(link, ticket)}
  | _, _ => 0

def owedBy : Item → Multiset (Nat × Nat)
  | .receiving r => debt r.link r.history.ticket
  | .queued _ task => debt task.link task.history.ticket
  | .running _ e => debt e.task.link e.task.history.ticket
  | .responding r => debt (some r.link) r.history.ticket
  | .writing _ => 0
  | .sent _ => 0
  | .refused _ => 0

def answeredBy : Item → Multiset (Nat × Nat)
  | .writing r => debt (some r.link) r.history.ticket
  | .sent r => debt (some r.link) r.history.ticket
  | .refused r => debt (some r.link) r.history.ticket
  | _ => 0

def accountOf (books : Ledger) (all : Multiset Item) : Account Nat :=
  ⟨books.window, books.used, books.counted, all.bind owedBy, all.bind answeredBy⟩

def account (s : State) : Account Nat := accountOf (ledger s) (items s)

/-- A request of a link has a number, and its texts fit the buffers of the server. -/
def Numbered (link ticket : Option Nat) (title dupopt : Bytes) : Prop :=
  link ≠ none → ticket ≠ none ∧ title.length < maxTitleSize ∧ dupopt.length < maxOptSize

def NumberedTask (task : Task) : Prop :=
  Numbered task.link task.history.ticket task.title task.dupopt

/-- What holds of every item on its way. -/
def Prepared : Item → Prop
  | .receiving r => Numbered r.link r.history.ticket r.title (cString (r.option.getD []))
  | .queued _ task => NumberedTask task
  | .running _ e => NumberedTask e.task ∧ 0 < offset e.reply ∧
      (e.task.handler = none → e.todo = [])
  | .responding r => r.history.ticket ≠ none
  | _ => True

section Texts

theorem length_cString_le (text : Bytes) : (cString text).length ≤ text.length := by
  rw [cString]
  exact List.Sublist.length_le (List.takeWhile_sublist _)

theorem rtAnalyzeReqHead_short {data : Bytes} {head : ReqHead}
    (h : rtAnalyzeReqHead data = some head) :
    head.title.length < maxTitleSize ∧ (head.option.getD []).length < maxOptSize := by
  rw [rtAnalyzeReqHead] at h
  dsimp only at h
  split at h
  · cases h
  · split at h
    · cases h
    · rename_i title
      split at h
      · obtain rfl := Option.some.inj h
        exact ⟨not_le.mp title, Nat.zero_lt_succ _⟩
      · split at h
        · cases h
        · rename_i option
          obtain rfl := Option.some.inj h
          exact ⟨not_le.mp title, not_le.mp option⟩

theorem offset_faultReply (title dupopt : Bytes) :
    offset (faultReply title dupopt) ≤ title.length + dupopt.length + 13 := by
  rw [faultReply, offset, replyBytes, List.flatMap_cons, List.flatMap_append]
  split
  · simp [Piece.bytes, jessFatal, crlf, ofChars]
    omega
  · simp [Piece.bytes, jessFatal, jessReqDubEnd, crlf, ofChars]
    omega

theorem offset_responseHead (title dupopt : Bytes) : 0 < offset (responseHead title dupopt) := by
  have first : 0 < offset (proAppendResponse [] (.text (title ++ crlf))) := by
    have begun : offset [] = 0 := rfl
    have size : respBuffSize = 5242880 := rfl
    rw [proAppendResponse, if_neg (by omega)]
    simp [offset, replyBytes, Piece.bytes, crlf]
  rw [responseHead]
  split
  · exact lt_of_lt_of_le first (offset_le_append _ _)
  · exact first

end Texts

section Tasks

/-- The fault of a task with a link is answered, since its texts fit. -/
theorem proCompleteTaskAsFault_eq {caller : Option Worker} {task : Task} {link : Nat}
    (linked : task.link = some link) (numbered : NumberedTask task) :
    proCompleteTaskAsFault caller task = some ⟨caller, link, faultReply task.title task.dupopt,
      task.history, [(task.history.segment 0, [.fatal])]⟩ := by
  obtain ⟨-, title, dupopt⟩ := numbered (by rw [linked]; exact Option.some_ne_none link)
  have size := offset_faultReply task.title task.dupopt
  have limits : maxTitleSize = 16 ∧ maxOptSize = 128 ∧ maxRepSize = 164 := ⟨rfl, rfl, rfl⟩
  rw [proCompleteTaskAsFault, linked]
  exact if_neg (by omega)

theorem numberedTask_of_stands {r : Request} {task task' : Task} (stands : Stands r task)
    (kept : Kept task task') (prepared : Prepared (.receiving r)) : NumberedTask task' := by
  intro linked
  rw [kept.link, stands.link] at linked
  obtain ⟨ticket, title, dupopt⟩ := prepared linked
  refine ⟨?_, ?_, ?_⟩
  · rwa [kept.history, stands.history]
  · rcases kept.title with same | recovers
    · rwa [same, stands.title]
    · rw [recovers]
      decide
  · rwa [kept.dupopt, stands.dupopt]

theorem debt_of_stands {r : Request} {task task' : Task} (stands : Stands r task)
    (kept : Kept task task') :
    debt task'.link task'.history.ticket = debt r.link r.history.ticket := by
  rw [kept.link, kept.history, stands.link, stands.history]

theorem proExecuteTask_task (task : Task) : (proExecuteTask task).task = task := by
  rw [proExecuteTask]
  split <;> rfl

theorem prepared_proExecuteTask {task : Task} (numbered : NumberedTask task) (worker : Worker) :
    Prepared (.running worker (proExecuteTask task)) := by
  have begun := offset_responseHead task.title task.dupopt
  refine ⟨by rwa [proExecuteTask_task], ?_, ?_⟩
  · rw [proExecuteTask]
    split
    · exact begun
    · exact begun
    · exact lt_of_lt_of_le begun (offset_le_append _ _)
    · exact lt_of_lt_of_le begun (offset_le_append _ _)
  · intro none
    rw [proExecuteTask_task] at none
    rw [proExecuteTask, none]
    split <;> simp_all

end Tasks

section Calls
variable {worker : Worker} {number : Nat} {e : Execution} {handled : Handled}

/-- A call leaves the task as it is, or a recovery takes its link along. -/
theorem callHandler_execution (worker : Worker) (number : Nat) (e : Execution)
    (handled : Handled) :
    (callHandler worker number e handled).execution = e.next handled.reply ∨
      ∃ placed, handled.effect = .appendRecover placed ∧
        (callHandler worker number e handled).execution =
          { e.next handled.reply with task := { e.task with link := none } } := by
  rw [callHandler]
  cases handled.effect with
  | nothing => exact Or.inl rfl
  | appendFsync => exact Or.inl rfl
  | appendRecover placed => exact Or.inr ⟨placed, rfl, rfl⟩
  | completeFsync => exact Or.inl rfl

/-- The second half of a recovery is appended: its texts are short enough. -/
theorem callHandler_recover {placed : Bool} (recovers : handled.effect = .appendRecover placed)
    (short : e.task.dupopt.length < maxOptSize) :
    (callHandler worker number e handled).appended = some ⟨some worker, e.task.link, recover2,
      some e.task.dupopt, some (ofChars ['/']), { e.task.history with cause := .call number }⟩ := by
  have title : ¬ maxTitleSize ≤ recover2.length := by decide
  have payload : ¬ maxPayloadSize ≤ (ofChars ['/']).length := by decide
  simp only [callHandler, recovers, proAppendRequest, Option.any_some, decide_eq_true_eq,
    if_neg title, if_neg payload, if_neg (not_le.mpr short)]
  rfl

/-- What the appended request is for. -/
theorem callHandler_appended {r : Request}
    (made : (callHandler worker number e handled).appended = some r) :
    (handled.effect = .appendFsync ∧
      r = ⟨some worker, none, fsync, none, none, ⟨none, .call number, none⟩⟩) ∨
    ∃ placed, handled.effect = .appendRecover placed ∧
      r = ⟨some worker, e.task.link, recover2, some e.task.dupopt, some (ofChars ['/']),
        { e.task.history with cause := .call number }⟩ := by
  rw [callHandler] at made
  cases started : handled.effect with
  | nothing => simp [started] at made
  | completeFsync => simp [started] at made
  | appendFsync =>
    simp only [started] at made
    exact Or.inl ⟨rfl, proAppendRequest_some made⟩
  | appendRecover placed =>
    simp only [started] at made
    exact Or.inr ⟨placed, rfl, proAppendRequest_some made⟩

/-- A call keeps what is owed: what a recovery takes along is in its request. -/
theorem callHandler_owed (numbered : NumberedTask e.task) :
    owedBy (.running worker (callHandler worker number e handled).execution) +
      ((callHandler worker number e handled).appended.toList.map Item.receiving :
        Multiset Item).bind owedBy = owedBy (.running worker e) := by
  cases started : handled.effect with
  | nothing => simp [callHandler, started, owedBy, Execution.next]
  | completeFsync => simp [callHandler, started, owedBy, Execution.next]
  | appendFsync =>
    have task : (callHandler worker number e handled).execution.task = e.task := by
      simp [callHandler, started, Execution.next]
    cases made : (callHandler worker number e handled).appended with
    | none => simp [owedBy, task]
    | some r =>
      obtain ⟨-, rfl⟩ | ⟨placed, other, -⟩ := callHandler_appended made
      · simp [owedBy, task, debt]
      · rw [started] at other
        cases other
  | appendRecover placed =>
    have task : (callHandler worker number e handled).execution.task =
        { e.task with link := none } := by
      simp [callHandler, started]
    cases linked : e.task.link with
    | none =>
      cases made : (callHandler worker number e handled).appended with
      | none => simp [owedBy, task, debt, linked]
      | some r =>
        obtain ⟨other, -⟩ | ⟨_, -, rfl⟩ := callHandler_appended made
        · rw [started] at other
          cases other
        · simp [owedBy, task, debt, linked]
    | some link =>
      have short := (numbered (by rw [linked]; exact Option.some_ne_none link)).2.2
      rw [callHandler_recover started short]
      simp [owedBy, task, debt, linked]

theorem prepared_callHandler (worker : Worker) (number : Nat)
    (prepared : Prepared (.running worker e))
    (begun : 0 < offset handled.reply) (isSome : e.task.handler ≠ none) :
    Prepared (.running worker (callHandler worker number e handled).execution) ∧
      ∀ r, (callHandler worker number e handled).appended = some r → Prepared (.receiving r) := by
  obtain ⟨numbered, -, -⟩ := prepared
  refine ⟨⟨?_, ?_, ?_⟩, ?_⟩
  · rcases callHandler_execution worker number e handled with same | ⟨_, -, same⟩
    · rw [same]
      exact numbered
    · rw [same]
      exact fun linked => absurd rfl linked
  · rcases callHandler_execution worker number e handled with same | ⟨_, -, same⟩
    · rw [same]
      exact begun
    · rw [same]
      exact begun
  · intro none
    rcases callHandler_execution worker number e handled with same | ⟨_, -, same⟩
    · rw [same] at none
      exact absurd none isSome
    · rw [same] at none
      exact absurd none isSome
  · intro r made
    obtain ⟨-, rfl⟩ | ⟨_, -, rfl⟩ := callHandler_appended made
    · exact fun linked => absurd rfl linked
    · intro linked
      obtain ⟨ticket, -, dupopt⟩ := numbered linked
      have title : recover2.length < maxTitleSize := by decide
      exact ⟨ticket, title, lt_of_le_of_lt (length_cString_le _) dupopt⟩

end Calls

section Turns
variable {s : State} {a : Act} {taken given rest : Multiset Item} {books : Ledger}

theorem debt_some (link : Nat) {ticket : Option Nat} (numbered : ticket ≠ none) :
    ∃ n, ticket = some n ∧ debt (some link) ticket = {(link, n)} := by
  obtain ⟨n, rfl⟩ := Option.ne_none_iff_exists'.mp numbered
  exact ⟨n, rfl, rfl⟩

/-- A turn gives what is prepared for the turns after it. -/
theorem turn_prepared (turn : Turn s a taken given books) (prepared : ∀ x ∈ taken, Prepared x) :
    ∀ x ∈ given, Prepared x := by
  cases turn with
  | stay => exact fun x mem => absurd mem (Multiset.notMem_zero x)
  | accept => exact fun x mem => absurd mem (Multiset.notMem_zero x)
  | close => exact fun x mem => absurd mem (Multiset.notMem_zero x)
  | refuse link data head =>
    intro x mem
    obtain rfl := Multiset.mem_singleton.mp mem
    trivial
  | arrive link data head w found isOpen room =>
    intro x mem
    obtain rfl := Multiset.mem_singleton.mp mem
    obtain ⟨title, option⟩ := rtAnalyzeReqHead_short found
    exact fun _ => ⟨Option.some_ne_none _, title, lt_of_le_of_lt (length_cString_le _) option⟩
  | own _ r outside alone =>
    intro x mem
    obtain rfl := Multiset.mem_singleton.mp mem
    exact fun linked => absurd alone linked
  | receive i r task task' stands kept worker chosen =>
    intro x mem
    obtain rfl := Multiset.mem_singleton.mp mem
    have numbered : NumberedTask task' :=
      numberedTask_of_stands stands kept (prepared _ (Multiset.mem_singleton_self _))
    exact numbered
  | reject i r task task' stands kept =>
    have numbered := numberedTask_of_stands stands kept (prepared _ (Multiset.mem_singleton_self _))
    intro x mem
    cases linked : task'.link with
    | none => simp [proCompleteTaskAsFault, linked] at mem
    | some link =>
      rw [proCompleteTaskAsFault_eq linked numbered] at mem
      obtain rfl := List.mem_singleton.mp mem
      exact (numbered (by rw [linked]; exact Option.some_ne_none link)).1
  | take worker task first =>
    intro x mem
    obtain rfl := Multiset.mem_singleton.mp mem
    exact prepared_proExecuteTask (prepared _ (Multiset.mem_singleton_self _)) worker
  | handle worker calls e handler jrp _ running handled todo =>
    have before := prepared _ (Multiset.mem_singleton_self _)
    obtain ⟨_, added⟩ := handler.call_adds calls e.task.options jrp e.reply
    obtain ⟨next, appended⟩ := prepared_callHandler worker s.calls.length before
      (added.offset_pos before.2.1) (by rw [handled]; exact Option.some_ne_none handler)
    intro x mem
    rcases Multiset.mem_add.mp mem with own | more
    · obtain rfl := Multiset.mem_singleton.mp own
      exact next
    · obtain ⟨r, made, rfl⟩ := List.mem_map.mp (Multiset.mem_coe.mp more)
      exact appended r (Option.mem_toList.mp made)
  | finish worker e done =>
    have before := prepared _ (Multiset.mem_singleton_self _)
    intro x mem
    obtain ⟨r, made, rfl⟩ := List.mem_map.mp (Multiset.mem_coe.mp mem)
    have sent : proSendResponse worker e = some r := Option.mem_toList.mp made
    rw [proSendResponse] at sent
    split at sent
    · cases sent
    · rename_i linked
      split at sent
      · obtain rfl := Option.some.inj sent
        exact (before.1 (by rw [linked]; exact Option.some_ne_none _)).1
      · cases sent
  | respond i r w isOpen =>
    intro x mem
    obtain rfl := Multiset.mem_singleton.mp mem
    trivial
  | lost => exact fun x mem => absurd mem (Multiset.notMem_zero x)
  | write i r =>
    intro x mem
    obtain rfl := Multiset.mem_singleton.mp mem
    trivial
  | busy i r =>
    intro x mem
    obtain rfl := Multiset.mem_singleton.mp mem
    trivial
  | drop => exact fun x mem => absurd mem (Multiset.notMem_zero x)

/-- A turn that moves debts from item to item is no booking. -/
theorem booking_same (owes : given.bind owedBy = taken.bind owedBy)
    (had : given.bind answeredBy = taken.bind answeredBy) :
    Booking maxLinkWindow (accountOf books (taken + rest)) (accountOf books (given + rest)) := by
  have same : accountOf books (given + rest) = accountOf books (taken + rest) := by
    simp only [accountOf, Multiset.add_bind, owes, had]
  rw [same]
  exact .same

/-- Every turn is a booking in the account of the windows. -/
theorem turn_booking (turn : Turn s a taken given books) (prepared : ∀ x ∈ taken, Prepared x) :
    Booking maxLinkWindow (accountOf (ledger s) (taken + rest))
      (accountOf books (given + rest)) := by
  cases turn with
  | stay => exact .same
  | accept link fresh => exact .accept link fresh
  | close _ link => exact .close link
  | refuse link data head => exact booking_same (by simp [owedBy]) (by simp [answeredBy, debt])
  | arrive link data head w found isOpen room =>
    have counted : Booking maxLinkWindow (accountOf (ledger s) (0 + rest)) _ :=
      .count link w isOpen room
    simpa [accountOf, ledger, owedBy, answeredBy, debt, linkRequest] using counted
  | own _ r outside alone =>
    exact booking_same (by simp [owedBy, alone, debt]) (by simp [answeredBy])
  | receive i r task task' stands kept worker chosen =>
    have same := debt_of_stands stands kept
    refine booking_same ?_ (by simp [answeredBy])
    rw [Multiset.singleton_bind, Multiset.singleton_bind]
    exact same
  | reject i r task task' stands kept =>
    have numbered := numberedTask_of_stands stands kept (prepared _ (Multiset.mem_singleton_self _))
    have same := debt_of_stands stands kept
    cases linked : task'.link with
    | none =>
      have nothing : debt r.link r.history.ticket = 0 := by rw [← same, linked]; rfl
      refine booking_same ?_ ?_
      · simp [proCompleteTaskAsFault, linked, owedBy, nothing]
      · simp [proCompleteTaskAsFault, linked, answeredBy]
    | some link =>
      rw [linked] at same
      rw [proCompleteTaskAsFault_eq linked numbered]
      refine booking_same ?_ ?_
      · simp [owedBy, ← same]
      · simp [answeredBy]
  | take worker task first =>
    exact booking_same (by simp [owedBy, proExecuteTask_task]) (by simp [answeredBy])
  | handle worker calls e handler jrp _ running handled todo =>
    have before := prepared _ (Multiset.mem_singleton_self _)
    refine @booking_same _ _ _ ⟨s.window, s.used, s.counted, _⟩ ?_ ?_
    · rw [Multiset.add_bind, Multiset.singleton_bind, Multiset.singleton_bind]
      exact callHandler_owed before.1
    · rw [Multiset.add_bind, Multiset.singleton_bind, Multiset.singleton_bind]
      cases (calledBy s worker calls e handler jrp).appended <;> simp [answeredBy]
  | finish worker e done =>
    obtain ⟨numbered, begun, -⟩ := prepared _ (Multiset.mem_singleton_self _)
    cases linked : e.task.link with
    | none =>
      refine booking_same ?_ ?_
      · simp [proSendResponse, linked, owedBy, debt]
      · simp [proSendResponse, linked, answeredBy]
    | some link =>
      refine booking_same ?_ ?_
      · simp [proSendResponse, linked, begun, owedBy]
      · simp [proSendResponse, linked, begun, answeredBy]
  | respond i r w isOpen =>
    obtain ⟨n, -, owes⟩ := debt_some r.link (prepared _ (Multiset.mem_singleton_self _))
    have answered : Booking maxLinkWindow (accountOf (ledger s) ({.responding r} + rest)) _ :=
      .answer (r.link, n) (rest.bind owedBy) w isOpen (by simp [accountOf, owedBy, owes])
    simpa [accountOf, ledger, owedBy, answeredBy, owes] using answered
  | lost i r closed =>
    obtain ⟨n, -, owes⟩ := debt_some r.link (prepared _ (Multiset.mem_singleton_self _))
    have forgotten : Booking maxLinkWindow (accountOf (ledger s) ({.responding r} + rest)) _ :=
      .forget (r.link, n) (rest.bind owedBy) closed (by simp [accountOf, owedBy, owes])
    simpa [accountOf, answeredBy] using forgotten
  | write i r => exact booking_same (by simp [owedBy]) (by simp [answeredBy])
  | busy i r => exact booking_same (by simp [owedBy]) (by simp [answeredBy])
  | drop i r txn closed =>
    cases ticket : r.history.ticket with
    | none => exact booking_same (by simp [owedBy]) (by simp [answeredBy, ticket, debt])
    | some n =>
      have dropped : Booking maxLinkWindow (accountOf (ledger s) ({.writing r} + rest)) _ :=
        .drop (r.link, n) (rest.bind answeredBy) closed
          (by simp [accountOf, answeredBy, ticket, debt])
      simpa [accountOf, owedBy] using dropped

end Turns

/-! ## Every state of a run -/

/-- How often a request of a link was answered: what `tcp_write` was called with for the
link, or is going to be. -/
def answersTo (s : State) (link ticket : Nat) : Nat :=
  ((s.writing ++ s.frames ++ s.refused).filter fun r =>
    r.link = link ∧ r.history.ticket = some ticket).length

/-- The requests of a link that were counted and are not yet answered. -/
def notAnswered (s : State) (link : Nat) : List Nat :=
  (List.range s.counted.length).filter fun n =>
    s.counted[n]? = some link ∧ answersTo s link n = 0

/-- The window of an open link is the number of its requests that are not yet answered,
between zero and the limit, and no request is answered twice. -/
structure WindowHolds (s : State) : Prop where
  window : ∀ link w, s.window link = some w → w = (notAnswered s link).length
  within : ∀ link w, s.window link = some w → 0 ≤ w ∧ w ≤ maxLinkWindow
  once : ∀ link n, (s.window link).isSome → s.counted[n]? = some link → answersTo s link n ≤ 1

structure Sound (s : State) : Prop where
  prepared : ∀ x ∈ items s, Prepared x
  kept : WindowAccount.Kept maxLinkWindow (account s)

section Runs
variable {s t : State} {a : Act}

theorem sound_start : Sound start where
  prepared := fun x mem => absurd mem (Multiset.notMem_zero x)
  kept :=
    { opened := fun _ _ h => nomatch h
      known := fun _ mem => absurd mem List.not_mem_nil
      genuine := fun p mem => absurd mem (Multiset.notMem_zero p)
      once := fun _ _ h => nomatch h
      window := fun _ _ h => nomatch h
      within := fun _ _ h => nomatch h }

theorem step_sound (h : step s a = some t) (sound : Sound s) : Sound t := by
  obtain ⟨taken, given, rest, turn, before, after⟩ := step_turns h
  have kept := sound.kept
  rw [account, before] at kept
  constructor
  · exact step_items (fun _ _ _ => turn_prepared) h sound.prepared
  · rw [account, after]
    refine (turn_booking turn fun x mem => sound.prepared x ?_).keeps (by decide) kept
    exact before ▸ Multiset.mem_add.mpr (Or.inl mem)

/-- The answers among responses past the window are those that were filtered. -/
theorem count_responses {wrap : Response → Item}
    (answers : ∀ r, answeredBy (wrap r) = debt (some r.link) r.history.ticket) (link n : Nat)
    (responses : List Response) :
    ((responses.map wrap : Multiset Item).bind answeredBy).count (link, n) =
      (responses.filter fun r => r.link = link ∧ r.history.ticket = some n).length := by
  induction responses with
  | nil => rfl
  | cons r rest ih =>
    rw [List.map_cons, ← Multiset.cons_coe, Multiset.cons_bind, Multiset.count_add, ih, answers,
      List.filter_cons]
    cases ticket : r.history.ticket with
    | none => simp [debt]
    | some m =>
      by_cases same : r.link = link ∧ m = n
      · obtain ⟨rfl, rfl⟩ := same
        simp [debt, Nat.add_comm]
      · have other : (link, n) ≠ (r.link, m) := by
          rintro pair
          obtain ⟨rfl, rfl⟩ := Prod.mk.inj pair
          exact same ⟨rfl, rfl⟩
        simp [debt, same, other]

theorem bind_map_zero {α : Type} {f : Item → Multiset (Nat × Nat)} {wrap : α → Item}
    (zero : ∀ x, f (wrap x) = 0) (l : List α) : (l.map wrap : Multiset Item).bind f = 0 := by
  induction l with
  | nil => rfl
  | cons x rest ih =>
    rw [List.map_cons, ← Multiset.cons_coe, Multiset.cons_bind, zero, ih]
    rfl

theorem answered_workerItems (s : State) (worker : Worker) :
    (workerItems s worker).bind answeredBy = 0 := by
  rw [workerItems, Multiset.add_bind, bind_map_zero fun _ => rfl, bind_map_zero fun _ => rfl]
  rfl

theorem count_answered (s : State) (link n : Nat) :
    (account s).answered.count (link, n) = answersTo s link n := by
  have only : (account s).answered = (s.writing.map Item.writing : Multiset Item).bind answeredBy +
      (s.frames.map Item.sent : Multiset Item).bind answeredBy +
      (s.refused.map Item.refused : Multiset Item).bind answeredBy := by
    rw [account, accountOf, items, collected]
    simp only [Multiset.add_bind, answered_workerItems]
    rw [bind_map_zero fun _ => rfl, bind_map_zero fun _ => rfl]
    simp
  rw [only, Multiset.count_add, Multiset.count_add, count_responses (fun _ => rfl),
    count_responses (fun _ => rfl), count_responses (fun _ => rfl), answersTo, List.filter_append,
    List.filter_append, List.length_append, List.length_append]

theorem notAnswered_eq (s : State) (link : Nat) :
    notAnswered s link = unanswered (account s) link := by
  rw [notAnswered, unanswered]
  refine List.filter_congr fun n _ => ?_
  have same : answersTo s link n = 0 ↔ (link, n) ∉ (account s).answered := by
    rw [← count_answered, Multiset.count_eq_zero]
  exact decide_eq_decide.mpr (and_congr_right fun _ => same)

theorem windowHolds_of_sound (sound : Sound s) : WindowHolds s where
  window := by
    intro link w isOpen
    rw [notAnswered_eq]
    exact sound.kept.window_eq isOpen
  within := by
    intro link w isOpen
    have exactly := sound.kept.window link w isOpen
    have upper := sound.kept.within link w isOpen
    omega
  once := by
    intro link n isOpen counted
    have total := sound.kept.once link n isOpen counted
    rw [Multiset.count_add, count_answered] at total
    omega

end Runs

/-! ## Every request is answered -/

section Work

/-- A call of these handlers may append a request. -/
def callCost : Option Handler → Nat
  | some .fsSync => 7
  | some .fsRecoverCheckpoint => 7
  | _ => 1

def titleCost (title : Bytes) : Nat :=
  if title = TaskTable.sync ∨ title = TaskTable.recover then 7 else 1

/-- How many steps an item has before it, at most. -/
def cost : Item → Nat
  | .receiving r =>
    5 + max 1 (buildEffective (r.payload.getD [])).2.length * titleCost r.title
  | .queued _ task => 4 + max 1 task.payload.length * callCost task.handler
  | .running _ e => 3 + e.todo.length * callCost e.task.handler
  | .responding _ => 2
  | .writing _ => 1
  | .sent _ => 0
  | .refused _ => 0

def work (s : State) : Nat := ((items s).map cost).sum

variable {s t : State} {a : Act} {taken given : Multiset Item} {books : Ledger}

theorem titleCost_pos (title : Bytes) : 0 < titleCost title := by
  rw [titleCost]
  split <;> omega

theorem callCost_pos (handler : Option Handler) : 0 < callCost handler := by
  unfold callCost
  split <;> omega

/-- The title tells what the handler may cost. -/
theorem callCost_le {task : Task} {handler : Option Handler} {worker : Worker}
    (chosen : Chosen task handler worker) : callCost handler ≤ titleCost task.title := by
  have each : ∀ c ∈ commands, callCost c.handler ≤ titleCost c.title := by decide
  cases chosen with
  | fsync title own empty => exact titleCost_pos task.title
  | command c mem title size =>
    rw [title]
    exact each c mem

theorem cost_receive {r : Request} {task task' : Task} {worker : Worker} (stands : Stands r task)
    (kept : TaskTable.Kept task task') (chosen : Chosen task task'.handler worker) :
    cost (.queued worker task'.asking) < cost (.receiving r) := by
  have size := stands.size
  have each := callCost_le chosen
  rw [← kept.payload] at size
  rw [stands.title] at each
  have product := Nat.mul_le_mul (max_le (Nat.le_max_left 1 _) size) each
  change 4 + max 1 task'.payload.length * callCost task'.handler < _
  rw [cost]
  omega

theorem cost_proExecuteTask (worker : Worker) (task : Task) :
    cost (.running worker (proExecuteTask task)) < cost (.queued worker task) := by
  have bound : (proExecuteTask task).todo.length ≤ max 1 task.payload.length := by
    rw [proExecuteTask]
    split <;> simp_all
  have product := Nat.mul_le_mul_right (callCost task.handler) bound
  rw [cost, cost, proExecuteTask_task]
  omega

theorem cost_callHandler (worker : Worker) (number : Nat) {e : Execution} {handler : Handler}
    {jrp : Jrp} {rest : List Jrp} (handled : e.task.handler = some handler)
    (todo : e.todo = jrp :: rest) {answer : Handled} (starts : Starts handler answer.effect) :
    (({.running worker (callHandler worker number e answer).execution} +
      ((callHandler worker number e answer).appended.toList.map Item.receiving :
        Multiset Item)).map cost).sum < cost (.running worker e) := by
  have positive := callCost_pos (some handler)
  have execution : cost (.running worker (callHandler worker number e answer).execution) =
      3 + rest.length * callCost (some handler) := by
    rcases callHandler_execution worker number e answer with same | ⟨_, -, same⟩
    · rw [same, cost, Execution.next, todo, handled]
      rfl
    · rw [same, cost, Execution.next, todo]
      dsimp only
      rw [handled]
      rfl
  have whole : cost (.running worker e) =
      3 + rest.length * callCost (some handler) + callCost (some handler) := by
    rw [cost, todo, handled, List.length_cons, Nat.succ_mul]
    omega
  rw [Multiset.map_add, Multiset.sum_add, Multiset.map_singleton, Multiset.sum_singleton,
    execution, whole]
  cases made : (callHandler worker number e answer).appended with
  | none => simp [positive]
  | some r =>
    obtain ⟨started, rfl⟩ | ⟨placed, started, rfl⟩ := callHandler_appended made
    · rw [started] at starts
      obtain rfl : handler = .fsSync := starts
      have none : (buildEffective []).2.length = 0 := by decide
      have price : titleCost fsync = 1 := by decide
      simp [cost, none, price, callCost]
    · rw [started] at starts
      obtain rfl : handler = .fsRecoverCheckpoint := starts
      have one : (buildEffective (ofChars ['/'])).2.length = 1 := by decide
      have price : titleCost recover2 = 1 := by decide
      simp [cost, one, price, callCost]

/-- A step that proceeds leaves less to do. -/
theorem turn_cost (turn : Turn s a taken given books) (proceeds : a.proceeds = true) :
    (given.map cost).sum < (taken.map cost).sum := by
  cases turn with
  | stay _ outside => simp [outside] at proceeds
  | accept => simp [Act.proceeds] at proceeds
  | close _ _ outside => simp [outside] at proceeds
  | refuse => simp [Act.proceeds] at proceeds
  | arrive => simp [Act.proceeds] at proceeds
  | own _ _ outside => simp [outside] at proceeds
  | receive i r task task' stands kept worker chosen =>
    simpa using cost_receive stands kept chosen
  | reject i r task task' stands kept =>
    have price : 5 ≤ cost (.receiving r) := Nat.le_add_right 5 _
    cases proCompleteTaskAsFault r.caller task' with
    | none => simp; omega
    | some response => simp [cost]; omega
  | take worker task first => simpa using cost_proExecuteTask worker task
  | handle worker calls e handler jrp _ running handled todo =>
    rw [Multiset.map_singleton, Multiset.sum_singleton]
    exact cost_callHandler worker s.calls.length handled todo (handler.call_starts _ _ _ _)
  | finish worker e done =>
    have price : 3 ≤ cost (.running worker e) := Nat.le_add_right 3 _
    cases proSendResponse worker e with
    | none => simp; omega
    | some response => simp [cost]; omega
  | respond i r w isOpen => simp [cost]
  | lost i r closed => simp [cost]
  | write i r => simp [cost]
  | busy i r => simp [cost]
  | drop i r => simp [cost]

theorem step_work (h : step s a = some t) (proceeds : a.proceeds = true) : work t < work s := by
  obtain ⟨taken, given, rest, turn, before, after⟩ := step_turns h
  have less := turn_cost turn proceeds
  rw [work, work, before, after, Multiset.map_add, Multiset.map_add, Multiset.sum_add,
    Multiset.sum_add]
  omega

/-- A run of such steps is no longer than the work. -/
theorem run_work {acts : List Act} (proceeds : ∀ a ∈ acts, a.proceeds = true)
    (h : run step s acts = some t) : acts.length + work t ≤ work s := by
  induction acts generalizing s with
  | nil =>
    obtain rfl := Option.some.inj h
    simp
  | cons a rest ih =>
    obtain ⟨u, next, later⟩ := run_cons h
    obtain ⟨here, others⟩ := List.forall_mem_cons.mp proceeds
    have less := step_work next here
    have fewer := ih others later
    rw [List.length_cons]
    omega

end Work

/-- Nothing is under way any more. -/
structure Drained (s : State) : Prop where
  receiving : s.receiving = []
  queue : ∀ worker, s.queue worker = []
  running : ∀ worker, s.running worker = none
  responding : s.responding = []
  writing : s.writing = []

/-- The responses to a request among those that were handed over. -/
def responsesFor (responses : List TaskTable.Response) (link ticket : Nat) : Nat :=
  (responses.filter fun r => r.link = link ∧ r.history.ticket = some ticket).length

/-- However the threads go on with what is there, they come to an end, and then every
request that was counted for an open link has one response, either a frame or one that
`tcp_write` did not take. -/
def Drains (s : State) : Prop :=
  ∀ more t, (∀ a ∈ more, a.proceeds = true) → run step s more = some t →
    more.length ≤ work s ∧ ((∀ a, a.proceeds = true → step t a = none) →
      ∀ link n, (t.window link).isSome → t.counted[n]? = some link →
        responsesFor t.frames link n + responsesFor t.refused link n = 1)

/-- The same, with a frame for every request. -/
def DrainsToFrames (s : State) : Prop :=
  ∀ more t, (∀ a ∈ more, a.proceeds = true) → run step s more = some t →
    (∀ a, a.proceeds = true → step t a = none) →
      ∀ link n, (t.window link).isSome → t.counted[n]? = some link →
        responsesFor t.frames link n = 1

/-- `tcp_write` takes the response that it is called with. -/
def Takes (s : State) : Act → Prop
  | .write i txn => ∀ r ∈ s.writing[i]?, (s.window r.link).isSome →
      SendPath.tcpWrite (s.fifo r.link) txn ≠ none
  | _ => True

/-- A request at a full window is answered with `fatal`, and nothing is counted. -/
def RefusesWhenFull (s : State) : Prop :=
  ∀ link w data head, s.window link = some w → maxLinkWindow ≤ w →
    data ≠ [] → data.length ≤ maxReqSize → rtAnalyzeReqHead data = some head →
    ∃ r : TaskTable.Response, r.link = link ∧ r.history.ticket = none ∧
      r.reply = fullWindowReply head ∧ statuses r.reply = [.fatal] ∧
      step s (.arrive link data) = some { s with writing := s.writing ++ [r] }

section Progress
variable {s : State}

theorem drained_of_stuck (sound : Sound s)
    (stuck : ∀ a : Act, a.proceeds = true → step s a = none) : Drained s := by
  have receiving : s.receiving = [] := by
    cases first : s.receiving with
    | nil => rfl
    | cons r rest => simpa [step, first] using stuck (.receive 0) rfl
  have responding : s.responding = [] := by
    cases first : s.responding with
    | nil => rfl
    | cons r rest => simpa [step, first] using stuck (.respond 0) rfl
  have writing : s.writing = [] := by
    cases first : s.writing with
    | nil => rfl
    | cons r rest => simpa [step, first] using stuck (.write 0 .whole) rfl
  have free : ∀ worker, ¬ Busy s worker := by
    intro worker
    simp [Busy, receiving, responding, writing]
  have running : ∀ worker, s.running worker = none := by
    intro worker
    cases found : s.running worker with
    | none => rfl
    | some e =>
      have item : Item.running worker e ∈ items s := by
        rw [items_running found]
        exact Multiset.mem_add.mpr (Or.inl (Multiset.mem_singleton_self _))
      obtain ⟨-, -, ready⟩ := sound.prepared _ item
      cases todo : e.todo with
      | nil => simpa [step, found, todo, free] using stuck (.finish worker) rfl
      | cons jrp rest =>
        cases handled : e.task.handler with
        | none =>
          rw [ready handled] at todo
          cases todo
        | some handler =>
          simpa [step, found, todo, handled, free] using stuck (.handle worker .failing) rfl
  have queue : ∀ worker, s.queue worker = [] := by
    intro worker
    cases waiting : s.queue worker with
    | nil => rfl
    | cons task rest => simpa [step, running, waiting, free] using stuck (.take worker) rfl
  exact ⟨receiving, queue, running, responding, writing⟩

theorem owed_of_drained (drained : Drained s) : (account s).owed = 0 := by
  have workers : ∀ worker, workerItems s worker = 0 := by
    intro worker
    rw [workerItems, drained.queue, drained.running]
    rfl
  rw [account, accountOf, items, collected, workers, workers, drained.receiving,
    drained.responding, drained.writing]
  simp only [List.map_nil, Multiset.coe_nil, zero_add, add_zero, Multiset.add_bind]
  rw [bind_map_zero (fun _ => rfl) s.frames, bind_map_zero (fun _ => rfl) s.refused]
  rfl

theorem drains_of_sound (sound : Sound s) : Drains s := by
  intro more t proceeds ends
  have sound' : Sound t :=
    always_end (always_of_kept (fun _ _ _ sound next => step_sound next sound) sound more) ends
  refine ⟨?_, ?_⟩
  · have bound := run_work proceeds ends
    omega
  · intro stuck link n isOpen counted
    have drained := drained_of_stuck sound' stuck
    have total := sound'.kept.once link n isOpen counted
    rw [owed_of_drained drained, zero_add, count_answered, answersTo, drained.writing,
      List.nil_append, List.filter_append, List.length_append] at total
    exact total

theorem statuses_fullWindowReply (head : ReqHead) : statuses (fullWindowReply head) = [.fatal] := by
  rw [fullWindowReply]
  cases head.option <;> rfl

theorem refusesWhenFull (s : State) : RefusesWhenFull s := by
  intro link w data head isOpen full some short found
  refine ⟨⟨none, link, fullWindowReply head, ⟨none, .client, none⟩, []⟩, rfl, rfl, rfl,
    statuses_fullWindowReply head, ?_⟩
  rw [step, isOpen, Option.map_some, jnetOnReceiveData, if_neg (by simp [some, short]), found]
  simp only [if_pos full]

theorem stuck_of_drained (drained : Drained s) (a : Act) (proceeds : a.proceeds = true) :
    step s a = none := by
  obtain ⟨receiving, queue, running, responding, writing⟩ := drained
  cases a with
  | receive i => simp [step, receiving]
  | take worker => simp [step, queue, running]
  | handle worker calls => simp [step, running]
  | finish worker => simp [step, running]
  | respond i => simp [step, responding]
  | write i txn => simp [step, writing]
  | _ => cases proceeds

end Progress

/-! ## Responses that are not taken -/

section Refused
variable {s t : State} {a : Act}

/-- What a step does with the responses that `tcp_write` did not take. -/
theorem refused_step (h : step s a = some t) :
    (Takes s a ∧ t.refused = s.refused) ∨ ¬ Takes s a ∧ ∃ r, t.refused = s.refused ++ [r] := by
  cases a with
  | write i txn =>
    obtain ⟨r, found, rfl⟩ := Option.map_eq_some_iff.mp h
    have takes : Takes s (.write i txn) ↔ ((s.window r.link).isSome →
        SendPath.tcpWrite (s.fifo r.link) txn ≠ none) := by
      simp [Takes, found]
    rw [takes, writeStep]
    dsimp only
    split
    · rename_i closed
      exact Or.inl ⟨fun isOpen => by simp [closed] at isOpen, rfl⟩
    · rename_i isOpen
      split
      · rename_i refused
        exact Or.inr ⟨fun taken => taken (Option.isSome_iff_ne_none.mpr isOpen) refused, r, rfl⟩
      · rename_i fifo taken
        exact Or.inl ⟨fun _ => by rw [taken]; exact Option.some_ne_none fifo, rfl⟩
  | accept link =>
    rw [step] at h
    split at h
    · cases h
    · obtain rfl := Option.some.inj h
      exact Or.inl ⟨trivial, rfl⟩
  | close link =>
    obtain ⟨w, -, rfl⟩ := Option.map_eq_some_iff.mp h
    exact Or.inl ⟨trivial, rfl⟩
  | arrive link data =>
    obtain ⟨w, -, rfl⟩ := Option.map_eq_some_iff.mp h
    refine Or.inl ⟨trivial, ?_⟩
    rw [jnetOnReceiveData]
    repeat' split
    all_goals rfl
  | flush =>
    obtain rfl := Option.some.inj h
    exact Or.inl ⟨trivial, rfl⟩
  | setProperty text =>
    obtain rfl := Option.some.inj h
    exact Or.inl ⟨trivial, rfl⟩
  | receive i =>
    obtain ⟨r, -, rfl⟩ := Option.map_eq_some_iff.mp h
    refine Or.inl ⟨trivial, ?_⟩
    rw [receiveStep]
    dsimp only
    split <;> rfl
  | take worker =>
    rw [step] at h
    split at h
    · split at h
      · cases h
      · obtain rfl := Option.some.inj h
        exact Or.inl ⟨trivial, rfl⟩
    · cases h
  | handle worker calls =>
    rw [step] at h
    split at h
    · cases h
    · split at h
      · split at h
        · cases h
        · obtain rfl := Option.some.inj h
          exact Or.inl ⟨trivial, rfl⟩
      · cases h
  | finish worker =>
    rw [step] at h
    split at h
    · cases h
    · split at h
      · cases h
      · obtain rfl := Option.some.inj h
        exact Or.inl ⟨trivial, rfl⟩
  | respond i =>
    obtain ⟨r, -, rfl⟩ := Option.map_eq_some_iff.mp h
    refine Or.inl ⟨trivial, ?_⟩
    rw [respondStep]
    dsimp only
    split <;> rfl
  | post link txn =>
    obtain ⟨w, -, rfl⟩ := Option.map_eq_some_iff.mp h
    exact Or.inl ⟨trivial, rfl⟩
  | pop link =>
    obtain ⟨w, -, popped⟩ := Option.bind_eq_some_iff.mp h
    split at popped
    · cases popped
    · obtain rfl := Option.some.inj popped
      exact Or.inl ⟨trivial, rfl⟩

/-- Nothing is refused along a run exactly when `tcp_write` takes all of it. -/
theorem refused_iff_takes {acts : List Act} (ran : run step s acts = some t)
    (none : s.refused = []) : t.refused = [] ↔ Along step Takes s acts := by
  refine good_iff_along (fun s : State => s.refused = []) (fun _ => True)
    (fun _ _ _ _ _ => trivial) ?_ ?_ trivial none ran
  · intro s a t _ none next
    rcases refused_step next with ⟨takes, same⟩ | ⟨refuses, r, more⟩
    · exact iff_of_true (same.trans none) takes
    · exact iff_of_false (by simp [more]) refuses
  · intro s a t _ some next
    rcases refused_step next with ⟨-, same⟩ | ⟨-, r, more⟩
    · rwa [same]
    · simp [more]

end Refused

/-- Along every run the windows count the requests that wait for an answer, requests at a
full window are refused without being counted, and for every counted request one response
is handed to `tcp_write`. Every one of them is a frame exactly when `tcp_write` takes all
that it is called with. -/
theorem window_counts_requests (acts : List Act) :
    Always step (fun s => WindowHolds s ∧ RefusesWhenFull s ∧ Drains s) start acts ∧
      ∀ t, run step start acts = some t → (t.refused = [] ↔ Along step Takes start acts) := by
  constructor
  · refine always_mono ?_
      (always_of_kept (fun _ _ _ sound next => step_sound next sound) sound_start acts)
    exact fun s sound => ⟨windowHolds_of_sound sound, refusesWhenFull s, drains_of_sound sound⟩
  · exact fun t ran => refused_iff_takes ran rfl

/-- A client that reads nothing, and sends a request when a hundred packets wait for it. -/
def unread : List Act :=
  .accept 1 :: List.replicate 100 (.post 1 .again) ++
    [.arrive 1 (ofChars ['k', 'e', 'e', 'p', 'a', 'l', 'i', 'v', 'e'] ++ crlf), .receive 0,
      .take .pro, .finish .pro, .respond 0, .write 0 .again]

/-- Its request is counted and answered, and gets no frame. -/
theorem response_without_frame : ¬ ∀ acts, Always step DrainsToFrames start acts := by
  intro all
  have ends : (run step start unread).map (fun t => (t.receiving.length,
      [Worker.pro, .dpc].map fun worker => ((t.queue worker).length, (t.running worker).isSome),
      t.responding.length, t.writing.length)) =
        some (0, [(0, false), (0, false)], 0, 0) := by decide +kernel
  have counts : (run step start unread).map (fun t => ((t.window 1).isSome, t.counted,
      responsesFor t.frames 1 0)) = some (true, [1], 0) := by decide +kernel
  obtain ⟨t, ran, drained⟩ := Option.map_eq_some_iff.mp ends
  rw [ran, Option.map_some, Option.some.injEq] at counts
  simp only [List.map_cons, List.map_nil, Prod.mk.injEq, List.cons.injEq, List.length_eq_zero_iff,
    Option.isSome_eq_false_iff, Option.isNone_iff_eq_none] at drained counts
  obtain ⟨receiving, ⟨pro, dpc, -⟩, responding, writing⟩ := drained
  have still : Drained t := by
    refine ⟨receiving, ?_, ?_, responding, writing⟩
    · rintro (_ | _)
      exacts [pro.1, dpc.1]
    · rintro (_ | _)
      exacts [pro.2, dpc.2]
  have one := always_end (all unread) ran [] t (fun _ mem => absurd mem List.not_mem_nil) rfl
    (stuck_of_drained still) 1 0 counts.1 (by rw [counts.2.1]; rfl)
  omega

end LinkWindow
