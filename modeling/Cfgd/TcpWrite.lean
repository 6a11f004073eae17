import Cfgd.Pipeline
import Cfgd.Reassembly
import Cfgd.SendOrder

/-!
# One `tcp_write`

`SendPath.step` has the call step by step and `SendPath.tcpWrite` what it does to the send
queue; the machine of the requests uses the latter, for the responses and for the packets
of other kinds. `Reassembly.tcpWrite` is the packet. Here each of them is tied to the
others.
-/

namespace TcpWrite

open CText Response Transition SendPath SendOrder

/-- What the rest of the server can tell about the queue of a link. -/
def fifoOf (s : State) : TxFifo := ⟨s.size, s.txOverflow⟩

/-! ## The calls -/

/-- What a step does to the queue, and what a call returns that ends with it. -/
inductive Effect (s t : State) : Prop where
  | still (same : fifoOf t = fifoOf s) (returned : t.returned = s.returned)
  | popped (some : s.size ≠ 0) (pops : fifoOf t = (fifoOf s).pop)
    (returned : t.returned = s.returned)
  | wrote (data : Bytes) (txn : Txn) (taken : tcpWrite (fifoOf s) txn = some (fifoOf t))
    (returned : t.returned = s.returned ++ [(data, 0)])
  | busy (data : Bytes) (refused : tcpWrite (fifoOf s) .again = none)
    (same : fifoOf t = fifoOf s) (returned : t.returned = s.returned ++ [(data, -ebusy)])
  | refused (data : Bytes) (same : fifoOf t = fifoOf s)
    (returned : t.returned = s.returned ++ [(data, -einval)])

section Steps
variable {s t : State} {a : Act}

theorem queue_of_room (room : s.size < maximumFifoSize) :
    tcpWrite (fifoOf s) .again = some ⟨s.size + 1, true⟩ :=
  if_neg (Int.not_le.mpr room)

/-- Every call of `tcp_write` takes effect at one of its steps, with the effect that it has
as a whole. -/
theorem effect_of_step (orderly : Orderly s) (h : step s a = some t) : Effect s t := by
  have change := change_of_step h
  cases change with
  | refused => exact .refused _ rfl rfl
  | @callerSent node here =>
    -- a packet is sent directly with an empty queue only
    obtain ⟨empty, -⟩ := callerPlace_of orderly.placed here
    obtain ⟨size, flagged⟩ := orderly.counted.free (free_of_caller here id)
    rw [empty, List.length_nil] at size
    have flag : ¬ s.txOverflow = true := fun flag => by
      have positive := flagged.mp flag
      omega
    exact .wrote node.data .whole (if_neg flag) rfl
  | @full node here many => exact .busy node.data (if_pos many) rfl rfl
  | @queued node here room flag =>
    have next : (⟨s.size + 1, s.txOverflow⟩ : TxFifo) = ⟨s.size + 1, true⟩ :=
      congrArg (TxFifo.mk _) flag
    exact .wrote node.data .again ((queue_of_room room).trans (congrArg some next.symm)) rfl
  | @unlock node here =>
    obtain ⟨-, size, -⟩ := orderly.counted.locked (by rw [here]; trivial)
    have limit : maximumFifoSize = 100 := rfl
    exact .wrote node.data .again (queue_of_room (by omega)) rfl
  | @popLast node rest here free front last flag =>
    obtain ⟨size, -⟩ := orderly.counted.free free
    rw [front, List.length_cons] at size
    have pops : (⟨s.size - 1, false⟩ : TxFifo) = (fifoOf s).pop :=
      congrArg (TxFifo.mk _) (if_pos last).symm
    exact .popped (by omega) pops rfl
  | @popMore node rest here free front more =>
    obtain ⟨size, flagged⟩ := orderly.counted.free free
    rw [front, List.length_cons] at size
    have left : ¬ s.size - 1 = 0 := fun last => more ⟨last, flagged.mpr (by omega)⟩
    have pops : (⟨s.size - 1, s.txOverflow⟩ : TxFifo) = (fifoOf s).pop :=
      congrArg (TxFifo.mk _) (if_neg left).symm
    exact .popped (by omega) pops rfl
  | _ => exact .still rfl rfl

/-- For the machine of the requests the link takes packets and gives them to the kernel. -/
def OfLink (link : Nat) (act : Pipeline.Act) : Prop :=
  act = .pop link ∨ ∃ txn, act = .post link txn

/-- The machine of the requests goes along with a step of the send path. -/
theorem pipeline_step (orderly : Orderly s) (h : step s a = some t) {p : Pipeline.State}
    {link : Nat} (isOpen : (p.window link).isSome) (same : p.fifo link = fifoOf s) :
    ∃ acts q, (∀ act ∈ acts, OfLink link act) ∧ run Pipeline.step p acts = some q ∧
      q.window = p.window ∧ q.fifo link = fifoOf t := by
  obtain ⟨w, isOpen⟩ := Option.isSome_iff_exists.mp isOpen
  have stays : fifoOf t = fifoOf s → ∃ acts q, (∀ act ∈ acts, OfLink link act) ∧
      run Pipeline.step p acts = some q ∧ q.window = p.window ∧ q.fifo link = fifoOf t :=
    fun still => ⟨[], p, fun _ mem => absurd mem List.not_mem_nil, rfl, rfl, same.trans still.symm⟩
  cases effect_of_step orderly h with
  | still still _ => exact stays still
  | busy _ _ still _ => exact stays still
  | refused _ still _ => exact stays still
  | popped some_ pops _ =>
    refine ⟨[.pop link], Pipeline.popStep p link, ?_, ?_, rfl, ?_⟩
    · exact fun act mem => Or.inl (List.mem_singleton.mp mem)
    · have size : ¬ (p.fifo link).size = 0 := by rwa [same]
      simp [run, Pipeline.step, isOpen, size]
    · rw [pops, ← same]
      exact Function.update_self _ _ _
  | wrote data txn taken _ =>
    refine ⟨[.post link txn], Pipeline.postStep p link txn, ?_, ?_, rfl, ?_⟩
    · exact fun act mem => Or.inr ⟨txn, List.mem_singleton.mp mem⟩
    · simp [run, Pipeline.step, isOpen]
    · refine (Function.update_self _ _ _).trans ?_
      rw [same, taken, Option.getD_some]

end Steps

/-- Whatever the threads of a link do, step by step, its queue is one that the machine of
the requests can have. -/
theorem pipeline_run {s t : State} {acts : List Act} (orderly : Orderly s)
    (ran : run step s acts = some t) {p : Pipeline.State} {link : Nat}
    (isOpen : (p.window link).isSome) (same : p.fifo link = fifoOf s) :
    ∃ more q, (∀ act ∈ more, OfLink link act) ∧ run Pipeline.step p more = some q ∧
      q.fifo link = fifoOf t := by
  induction acts generalizing s p with
  | nil =>
    obtain rfl := Option.some.inj ran
    exact ⟨[], p, fun _ mem => absurd mem List.not_mem_nil, rfl, same⟩
  | cons a rest ih =>
    obtain ⟨u, next, later⟩ := run_cons ran
    obtain ⟨first, q, own, goes, window, fifo⟩ := pipeline_step orderly next isOpen same
    obtain ⟨more, r, others, ends, last⟩ := ih (orderly_step s a u orderly next) later
      (window ▸ isOpen) fifo
    refine ⟨first ++ more, r, fun act mem => ?_, run_append goes ends, last⟩
    rcases List.mem_append.mp mem with here | there
    · exact own act here
    · exact others act there

/-! ## The packets -/

/-- The packet of a call is the head and the text, and a text of an illegal size is
turned away. -/
theorem write_packet {s : State} (idle : s.caller = .idle) (body : Bytes) :
    write s ((Reassembly.nspTstBuilder body.length).getD []) body =
      some (match Reassembly.tcpWrite body with
        | none =>
          s.returns ((Reassembly.nspTstBuilder body.length).getD [] ++ body) (-einval)
        | some packet =>
          { s with caller := .checking ⟨s.calls, packet, 0⟩, calls := s.calls + 1 }) := by
  have limit : tcpMaximumPacketSize = Reassembly.tcpMaximumPacketSize := by decide
  simp only [write, idle, Reassembly.tcpWrite, List.length_eq_zero_iff, limit]
  split
  · rfl
  · rename_i legal
    have positive : ¬ (body.length : Int) ≤ 0 := by
      have filled := List.length_pos_of_ne_nil (not_or.mp legal).1
      omega
    rw [Reassembly.nspTstBuilder, if_neg positive]
    rfl

/-- A response is of a legal size, so that it becomes a frame. -/
theorem tcpWrite_response {reply : Reply} (some_ : 0 < offset reply) :
    Reassembly.tcpWrite (sentBytes reply) =
      some (Reassembly.tst.frame (sentBytes reply)) := by
  refine Reassembly.tcpWrite_some.mpr ⟨⟨?_, ?_⟩, rfl⟩
  · intro empty
    rw [sentBytes] at empty
    split at empty
    · rw [offset, empty] at some_
      exact absurd some_ (Nat.lt_irrefl 0)
    · exact absurd empty (List.append_ne_nil_of_right_ne_nil _ (List.cons_ne_nil 0 []))
  · have limits : respBuffSize = 5242880 ∧ Reassembly.tcpMaximumPacketSize = 52428800 :=
      ⟨rfl, rfl⟩
    rw [sentBytes]
    split
    · rename_i fits
      rw [offset] at fits
      omega
    · rw [List.length_append, List.length_take, List.length_singleton]
      omega

end TcpWrite
