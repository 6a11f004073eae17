import Cfgd.Exchange
import Cfgd.ScopeWalk

/-!
# The handlers of a task

`pro_set_handler` gives a task one of seventeen functions, and `pro_execute_task` calls
it once for every request of the payload. Here is what each of them appends to the
response of its thread and what else it starts. What the functions under a handler give
back is a parameter, so that nothing is assumed about the other threads.
-/

namespace Handlers

open AvlTree CText Request ConfigNode Runtime LastScope Payload Response ScopeWalk

/-- The functions that `task_handler` points to. -/
inductive Handler where
  | proVariableContain
  | proCreateCheckpoint
  | proVariableReadFile
  | fsFsync
  | proMkdir
  | proBinaryRead
  | proVairableRead
  | fsRecoverCheckpoint
  | proRecoverCheckpoint
  | proRmdir
  | proVariableScope
  | jnetSubscribe
  | fsSync
  | jnetUnsubscribe
  | proQueryVersion
  | proBinaryWrite
  | proVariableWrite
  deriving DecidableEq, Repr

/-- What a handler finds and what the functions that it calls give back. `root` is the
configuration, `buff` the stale buffer of `var_makeup_pair`, `subcribes` the keys that
the link of the task subscribes to, if the link still has a context. `moved` tells that
`fs_recover_checkpoint` got the checkpoint into the swap file, `swapWritten` that
`fs_fsync` got its copy there, `rename i` is the i-th attempt of `fs_swap_database`. -/
structure Callees where
  root : Avl Node
  buff : Bytes
  rtConfigUpdate : Int
  rtCreateDir : Int
  rtRemoveDir : Int
  fsCreateCheckpoint : Int
  fsReadFileBysect : Int → Option Bytes
  fsReadBinary : Int → Int → Int × Bytes
  fsWriteBinary : Int → Bytes → Int
  subcribes : Option (List Bytes)
  permitOverride : Int
  countOverwritten : BitVec 32
  malloc : Bool
  swapWritten : Bool
  moved : Bool
  rename : Nat → Bool
  fsLoadConfigDatabase : Int
  ldrLoadFilesystem : Int

/-- Callees that find nothing and fail at everything. -/
def Callees.failing : Callees where
  root := .nil
  buff := []
  rtConfigUpdate := -1
  rtCreateDir := -1
  rtRemoveDir := -1
  fsCreateCheckpoint := -1
  fsReadFileBysect := fun _ => none
  fsReadBinary := fun _ _ => (-1, [])
  fsWriteBinary := fun _ _ => -1
  subcribes := none
  permitOverride := 1
  countOverwritten := 0
  malloc := false
  swapWritten := false
  moved := false
  rename := fun _ => false
  fsLoadConfigDatabase := -1
  ldrLoadFilesystem := -1

/-- What a handler starts besides its response: an fsync request, the second half of a
recovery, or the end of an fsync. `placed` tells that the checkpoint is in the place of
the database. -/
inductive Effect where
  | nothing
  | appendFsync
  | appendRecover (placed : Bool)
  | completeFsync
  deriving DecidableEq, Repr

structure Handled where
  reply : Reply
  effect : Effect

def answer (reply : Reply) (status : Status) : Reply := proAppendResponse reply (.status status)

/-- A function that tells a failure by a negative number. -/
def answerOf (retval : Int) (reply : Reply) : Reply :=
  if retval < 0 then answer reply .fatal else answer reply .ok

/-- `valuestring.len > 0`. -/
def explicitValue (jrp : Jrp) : Prop := jrp.valuestring.getD [] ≠ []

instance (jrp : Jrp) : Decidable (explicitValue jrp) := inferInstanceAs (Decidable (_ ≠ _))

section Variables
variable (calls : Callees) (jrp : Jrp) (reply : Reply)

def proScanCurrentScopeLevel : Avl Node → List Bytes
  | .nil => []
  | .node l node r _ =>
    (node.info.scopeName ++ crlf) :: (proScanCurrentScopeLevel l ++ proScanCurrentScopeLevel r)

def proVairableRead : Reply :=
  if explicitValue jrp then answer reply .fatal
  else
    let found := rtSearch calls.root jrp
    if found.1 < 0 then answer reply .fatal
    else proAppendResponse (answer reply .ok) (.text (pairText jrp.dupkey found.2))

def proVariableContain : Reply :=
  if explicitValue jrp then answer reply .fatal
  else if IsWhole jrp.dupkey then
    appendLines (answer reply .ok) (proScanCurrentScopeLevel calls.root)
  else match rtReachLastScope calls.root jrp with
    -- as in `pro_variable_scope`, success comes with a node
    | (_, none) => answer reply .fatal
    | (_, some last) =>
      appendLines (answer reply .ok) (proScanCurrentScopeLevel last.node.nextScope)

def proVariableReadFile : Reply :=
  if explicitValue jrp then answer reply .fatal
  else match rtReachLastScope calls.root jrp with
    | (_, none) => answer reply .fatal
    | (_, some last) =>
      if last.node.info.jsl ≠ .archive then answer reply .fatal
      else match calls.fsReadFileBysect last.node.info.fsSection with
        | none => answer reply .ok
        | some data => proAppendResponse (answer reply .ok) (.text (Exchange.cString data))

/-- `jnet_publish` writes to other links and leaves the response alone. -/
def proVariableWrite : Reply :=
  if jrp.dupvalue = [] ∨ jrp.valuestring = none then answer reply .fatal
  else answerOf calls.rtConfigUpdate reply

end Variables

section Management
variable (calls : Callees) (jrp : Jrp) (reply : Reply)

/-- The two requests whose key is a directory and nothing else. -/
def answerDirectory (retval : Int) : Reply :=
  if jrp.segm.length ≠ 1 then answer reply .fatal else answerOf retval reply

def proMkdir : Reply := answerDirectory jrp reply calls.rtCreateDir

def proRmdir : Reply := answerDirectory jrp reply calls.rtRemoveDir

def proCreateCheckpoint : Reply := answerOf calls.fsCreateCheckpoint reply

def proRecoverCheckpoint : Reply :=
  if calls.fsLoadConfigDatabase < 0 then answer reply .fatal
  else answerOf calls.ldrLoadFilesystem reply

/-- `proc.jess.version`, with CRLF. -/
def versionRequest : Bytes :=
  ofChars ['p', 'r', 'o', 'c', '.', 'j', 'e', 's', 's', '.', 'v', 'e', 'r', 's', 'i', 'o', 'n'] ++
    crlf

def proQueryVersion : Reply :=
  match rtBuildJrp versionRequest with
  | (1, [versionjrp]) =>
    let found := rtSearch calls.root versionjrp
    if found.1 < 0 then answer reply .fatal
    else proAppendResponse (answer reply .ok)
      (.text (pairText (ofChars ['v', 'e', 'r', 's', 'i', 'o', 'n']) found.2))
  | _ => answer reply .fatal

end Management

section Subscriptions
variable (calls : Callees) (jrp : Jrp) (reply : Reply)

def jnetSubscribe : Reply :=
  if jrp.valuestring ≠ none then answer reply .fatal
  else match calls.subcribes with
    | none => answer reply .fatal
    | some subcribes =>
      if subcribes.any (fun key => strcasecmp key jrp.dupkey = .eq) then answer reply .fatal
      else answer reply .ok

def jnetUnsubscribe : Reply :=
  match calls.subcribes with
  | none => answer reply .fatal
  | some subcribes =>
    if subcribes.any (fun key =>
        strcasecmp jrp.dupkey [jaCodeEntire] = .eq ∨ strcasecmp key jrp.dupkey = .eq) then
      answer reply .ok
    else answer reply .fatal

end Subscriptions

section Binary
variable (calls : Callees) (options : List Jrp) (jrp : Jrp) (reply : Reply)

/-- `atoi`, as the conversion of a `long`. -/
def optionValue (text : Bytes) : Int := intOfLong (strtoll text)

/-- The loop over the options: the offset and the size that they specify. -/
def offsetAndSize : Int × Int :=
  options.foldl (fun (offset, size) optjrp =>
    match optjrp.segm with
    | [segm] =>
      let size := if segm.name = ofChars ['s', 'i', 'z', 'e'] then optionValue optjrp.dupvalue
        else size
      let offset := if segm.name = ofChars ['o', 'f', 'f', 's', 'e', 't'] then
        optionValue optjrp.dupvalue else offset
      (offset, size)
    | _ => (offset, size)) (0, -1)

def proBinaryRead : Reply :=
  if options = [] then answer reply .fatal
  else
    let (offset, size) := offsetAndSize options
    if size < 0 then answer reply .fatal
    else
      let (retval, data) := calls.fsReadBinary offset size
      if retval ≠ size then answer reply .fatal
      else proAppendBinaryResponse (answer reply .ok) (data.take size.toNat)

def proBinaryWrite : Reply :=
  if options = [] then answer reply .fatal
  else
    let (offset, size) := offsetAndSize options
    let value := jrp.valuestring.getD []
    if size < 0 ∨ size ≠ value.length then answer reply .fatal
    else answerOf (calls.fsWriteBinary offset value) reply

end Binary

section Stages
variable (calls : Callees) (reply : Reply)

def fsSync : Handled :=
  if calls.permitOverride = 0 then ⟨answer reply .fatal, .nothing⟩
  else if calls.countOverwritten = 0 then ⟨answer reply .ok, .nothing⟩
  else ⟨answer reply .ok, .appendFsync⟩

/-- Only the way through all of it gives the counter back. -/
def fsFsync : Handled :=
  if calls.permitOverride = 0 then ⟨answer reply .fatal, .nothing⟩
  else if calls.malloc ∧ calls.swapWritten then ⟨reply, .completeFsync⟩
  else ⟨reply, .nothing⟩

/-- A recovery that fails appends nothing. The answer of `fs_swap_database` is not looked at. -/
def fsRecoverCheckpoint : Handled :=
  if calls.moved then ⟨reply, .appendRecover ((List.range 3).any calls.rename)⟩
  else ⟨reply, .nothing⟩

end Stages

/-- `task->task_handler(jrp)`. -/
def Handler.call (handler : Handler) (calls : Callees) (options : List Jrp) (jrp : Jrp)
    (reply : Reply) : Handled :=
  match handler with
  | .proVariableContain => ⟨Handlers.proVariableContain calls jrp reply, .nothing⟩
  | .proCreateCheckpoint => ⟨Handlers.proCreateCheckpoint calls reply, .nothing⟩
  | .proVariableReadFile => ⟨Handlers.proVariableReadFile calls jrp reply, .nothing⟩
  | .fsFsync => Handlers.fsFsync calls reply
  | .proMkdir => ⟨Handlers.proMkdir calls jrp reply, .nothing⟩
  | .proBinaryRead => ⟨Handlers.proBinaryRead calls options reply, .nothing⟩
  | .proVairableRead => ⟨Handlers.proVairableRead calls jrp reply, .nothing⟩
  | .fsRecoverCheckpoint => Handlers.fsRecoverCheckpoint calls reply
  | .proRecoverCheckpoint => ⟨Handlers.proRecoverCheckpoint calls reply, .nothing⟩
  | .proRmdir => ⟨Handlers.proRmdir calls jrp reply, .nothing⟩
  | .proVariableScope => ⟨ScopeWalk.proVariableScope calls.buff calls.root jrp reply, .nothing⟩
  | .jnetSubscribe => ⟨Handlers.jnetSubscribe calls jrp reply, .nothing⟩
  | .fsSync => Handlers.fsSync calls reply
  | .jnetUnsubscribe => ⟨Handlers.jnetUnsubscribe calls jrp reply, .nothing⟩
  | .proQueryVersion => ⟨Handlers.proQueryVersion calls reply, .nothing⟩
  | .proBinaryWrite => ⟨Handlers.proBinaryWrite calls options jrp reply, .nothing⟩
  | .proVariableWrite => ⟨Handlers.proVariableWrite calls jrp reply, .nothing⟩

section Answers

/-- If the result fits, it is what was there with something behind it that has the
statuses `added`. -/
def Adds (reply result : Reply) (added : List Status) : Prop :=
  Fits result → Fits reply ∧ ∃ tail, result = reply ++ tail ∧ statuses tail = added

/-- The result answers once more. -/
def Answers (reply result : Reply) : Prop := ∃ status, Adds reply result [status]

theorem adds_nothing (reply : Reply) : Adds reply reply [] :=
  fun fits => ⟨fits, [], (List.append_nil reply).symm, rfl⟩

theorem adds_piece (reply : Reply) (piece : Piece) :
    Adds reply (proAppendResponse reply piece) piece.statuses := by
  intro fits
  obtain ⟨before, whole⟩ := proAppendResponse_fits fits
  exact ⟨before, [piece], whole, List.append_nil _⟩

theorem adds_lines (reply : Reply) (lines : List Bytes) :
    Adds reply (appendLines reply lines) [] := by
  intro fits
  obtain ⟨before, whole⟩ := appendLines_fits fits
  refine ⟨before, lines.map .text, whole, ?_⟩
  simp [statuses, Piece.statuses]

theorem adds_binary (reply : Reply) (data : Bytes) :
    Adds reply (proAppendBinaryResponse reply data) [] := by
  intro fits
  rw [proAppendBinaryResponse] at fits ⊢
  split at fits
  · rename_i dropped
    rw [if_pos dropped]
    exact adds_nothing reply fits
  · rename_i room
    rw [if_neg room]
    refine ⟨?_, [.binary data], rfl, rfl⟩
    rw [Fits, offset_append] at fits
    exact lt_of_le_of_lt (Nat.le_add_right _ _) fits

theorem Adds.trans {reply middle result : Reply} {first second : List Status}
    (h : Adds reply middle first) (h' : Adds middle result second) :
    Adds reply result (first ++ second) := by
  intro fits
  obtain ⟨fits', tail', rfl, rfl⟩ := h' fits
  obtain ⟨before, tail, rfl, rfl⟩ := h fits'
  exact ⟨before, tail ++ tail', List.append_assoc .., statuses_append tail tail'⟩

theorem answers_status (reply : Reply) (status : Status) : Answers reply (answer reply status) :=
  ⟨status, adds_piece reply (.status status)⟩

theorem Answers.then {reply middle result : Reply} (h : Answers reply middle)
    (silent : Adds middle result []) : Answers reply result := by
  obtain ⟨status, added⟩ := h
  exact ⟨status, added.trans silent⟩

theorem answers_answerOf (retval : Int) (reply : Reply) :
    Answers reply (answerOf retval reply) := by
  rw [answerOf]
  split
  · exact answers_status reply .fatal
  · exact answers_status reply .ok

theorem answers_text (reply : Reply) (text : Bytes) :
    Answers reply (proAppendResponse (answer reply .ok) (.text text)) :=
  (answers_status reply .ok).then (adds_piece _ (.text text))

theorem answers_lines (reply : Reply) (lines : List Bytes) :
    Answers reply (appendLines (answer reply .ok) lines) :=
  (answers_status reply .ok).then (adds_lines _ lines)

end Answers

section EachHandler
variable (calls : Callees) (options : List Jrp) (jrp : Jrp) (reply : Reply)

theorem answers_proVairableRead : Answers reply (proVairableRead calls jrp reply) := by
  rw [proVairableRead]
  split
  · exact answers_status reply .fatal
  · dsimp only
    split
    · exact answers_status reply .fatal
    · exact answers_text reply _

theorem answers_proVariableContain : Answers reply (proVariableContain calls jrp reply) := by
  rw [proVariableContain]
  split
  · exact answers_status reply .fatal
  · split
    · exact answers_lines reply _
    · split
      · exact answers_status reply .fatal
      · exact answers_lines reply _

theorem answers_proVariableReadFile : Answers reply (proVariableReadFile calls jrp reply) := by
  rw [proVariableReadFile]
  split
  · exact answers_status reply .fatal
  · split
    · exact answers_status reply .fatal
    · split
      · exact answers_status reply .fatal
      · split
        · exact answers_status reply .ok
        · exact answers_text reply _

theorem answers_proVariableScope :
    Answers reply (proVariableScope calls.buff calls.root jrp reply) := by
  rw [proVariableScope]
  split
  · exact answers_status reply .fatal
  · split
    · exact answers_lines reply _
    · split
      · exact answers_status reply .fatal
      · split
        · exact ⟨.ok, adds_piece reply (.okText _)⟩
        · exact answers_lines reply _

theorem answers_proVariableWrite : Answers reply (proVariableWrite calls jrp reply) := by
  rw [proVariableWrite]
  split
  · exact answers_status reply .fatal
  · exact answers_answerOf _ reply

theorem answers_answerDirectory (retval : Int) :
    Answers reply (answerDirectory jrp reply retval) := by
  rw [answerDirectory]
  split
  · exact answers_status reply .fatal
  · exact answers_answerOf retval reply

theorem answers_proRecoverCheckpoint : Answers reply (proRecoverCheckpoint calls reply) := by
  rw [proRecoverCheckpoint]
  split
  · exact answers_status reply .fatal
  · exact answers_answerOf _ reply

theorem answers_proQueryVersion : Answers reply (proQueryVersion calls reply) := by
  rw [proQueryVersion]
  split
  · dsimp only
    split
    · exact answers_status reply .fatal
    · exact answers_text reply _
  · exact answers_status reply .fatal

theorem answers_jnetSubscribe : Answers reply (jnetSubscribe calls jrp reply) := by
  rw [jnetSubscribe]
  split
  · exact answers_status reply .fatal
  · split
    · exact answers_status reply .fatal
    · split
      · exact answers_status reply .fatal
      · exact answers_status reply .ok

theorem answers_jnetUnsubscribe : Answers reply (jnetUnsubscribe calls jrp reply) := by
  rw [jnetUnsubscribe]
  split
  · exact answers_status reply .fatal
  · split
    · exact answers_status reply .ok
    · exact answers_status reply .fatal

theorem answers_proBinaryRead : Answers reply (proBinaryRead calls options reply) := by
  rw [proBinaryRead]
  split
  · exact answers_status reply .fatal
  · dsimp only
    split
    · exact answers_status reply .fatal
    · split
      · exact answers_status reply .fatal
      · exact (answers_status reply .ok).then (adds_binary _ _)

theorem answers_proBinaryWrite : Answers reply (proBinaryWrite calls options jrp reply) := by
  rw [proBinaryWrite]
  split
  · exact answers_status reply .fatal
  · dsimp only
    split
    · exact answers_status reply .fatal
    · exact answers_answerOf _ reply

theorem answers_fsSync : Answers reply (fsSync calls reply).reply := by
  rw [fsSync]
  split
  · exact answers_status reply .fatal
  · split
    · exact answers_status reply .ok
    · exact answers_status reply .ok

end EachHandler

/-- Every handler answers a request once, but for `fs_fsync`, which no client can ask
for, and `fs_recover_checkpoint`, which leaves the answer to the second half. -/
theorem Handler.call_answers {handler : Handler} (notFsync : handler ≠ .fsFsync)
    (notRecover : handler ≠ .fsRecoverCheckpoint) (calls : Callees) (options : List Jrp) (jrp : Jrp)
    (reply : Reply) : Answers reply (handler.call calls options jrp reply).reply := by
  cases handler with
  | proVariableContain => exact answers_proVariableContain calls jrp reply
  | proCreateCheckpoint => exact answers_answerOf _ reply
  | proVariableReadFile => exact answers_proVariableReadFile calls jrp reply
  | fsFsync => exact absurd rfl notFsync
  | proMkdir => exact answers_answerDirectory jrp reply _
  | proBinaryRead => exact answers_proBinaryRead calls options reply
  | proVairableRead => exact answers_proVairableRead calls jrp reply
  | fsRecoverCheckpoint => exact absurd rfl notRecover
  | proRecoverCheckpoint => exact answers_proRecoverCheckpoint calls reply
  | proRmdir => exact answers_answerDirectory jrp reply _
  | proVariableScope => exact answers_proVariableScope calls jrp reply
  | jnetSubscribe => exact answers_jnetSubscribe calls jrp reply
  | fsSync => exact answers_fsSync calls reply
  | jnetUnsubscribe => exact answers_jnetUnsubscribe calls jrp reply
  | proQueryVersion => exact answers_proQueryVersion calls reply
  | proBinaryWrite => exact answers_proBinaryWrite calls options jrp reply
  | proVariableWrite => exact answers_proVariableWrite calls jrp reply

theorem Handler.call_adds (handler : Handler) (calls : Callees) (options : List Jrp) (jrp : Jrp)
    (reply : Reply) : ∃ added, Adds reply (handler.call calls options jrp reply).reply added := by
  by_cases isFsync : handler = .fsFsync
  · subst isFsync
    simp only [call, Handlers.fsFsync]
    split
    · exact ⟨_, adds_piece reply (.status .fatal)⟩
    · split
      · exact ⟨_, adds_nothing reply⟩
      · exact ⟨_, adds_nothing reply⟩
  · by_cases isRecover : handler = .fsRecoverCheckpoint
    · subst isRecover
      simp only [call, Handlers.fsRecoverCheckpoint]
      split
      · exact ⟨_, adds_nothing reply⟩
      · exact ⟨_, adds_nothing reply⟩
    · obtain ⟨status, added⟩ := call_answers isFsync isRecover calls options jrp reply
      exact ⟨_, added⟩

/-- A response that was begun stays begun. -/
theorem Adds.offset_pos {reply result : Reply} {added : List Status} (h : Adds reply result added)
    (begun : 0 < offset reply) : 0 < offset result := by
  by_cases fits : Fits result
  · obtain ⟨-, tail, rfl, -⟩ := h fits
    rw [offset_append]
    omega
  · have full : respBuffSize ≤ offset result := not_lt.mp fits
    have size : 0 < respBuffSize := by decide
    omega

/-- Which handler starts what. -/
def Starts (handler : Handler) : Effect → Prop
  | .nothing => True
  | .appendFsync => handler = .fsSync
  | .appendRecover _ => handler = .fsRecoverCheckpoint
  | .completeFsync => handler = .fsFsync

theorem Handler.call_starts (handler : Handler) (calls : Callees) (options : List Jrp) (jrp : Jrp)
    (reply : Reply) : Starts handler (handler.call calls options jrp reply).effect := by
  cases handler with
  | fsFsync =>
    simp only [call, Handlers.fsFsync]
    split
    · trivial
    · split
      · rfl
      · trivial
  | fsSync =>
    simp only [call, Handlers.fsSync]
    split
    · trivial
    · split
      · trivial
      · rfl
  | fsRecoverCheckpoint =>
    simp only [call, Handlers.fsRecoverCheckpoint]
    split
    · rfl
    · trivial
  | _ => trivial

/-- A recovery that moves the checkpoint to the swap file leaves the response to its
second half. -/
theorem fsRecoverCheckpoint_moved {calls : Callees} (moved : calls.moved = true) (reply : Reply) :
    fsRecoverCheckpoint calls reply =
      ⟨reply, .appendRecover ((List.range 3).any calls.rename)⟩ := by
  rw [fsRecoverCheckpoint, if_pos moved]

end Handlers
