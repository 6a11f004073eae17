import Mathlib.Tactic.IntervalCases
import Cfgd.CText
import Cfgd.Framing

/-!
# Reassembly of received packets

A TCP link cuts the packets out of what `recv` returns. A packet that fits the
receive buffer is completed in `ncb->packet`, a longer one in a block of its own.
Here `packet` holds the bytes below `rx_parse_offset`, and `lbdata` those below
`lboffset`.
-/
namespace Reassembly

open CText

def tcpBufferSize : Nat := 0x11000
def tcpMaximumPacketSize : Nat := 50 <<< 20

/-! ## The head of a packet -/

def nspdefOpcode : Bytes := [78, 115, 112, 100]

/-- A `uint32_t` in memory. -/
def storeU32 (n : BitVec 32) : Bytes :=
  [n.toNat, n.toNat / 2 ^ 8, n.toNat / 2 ^ 16, n.toNat / 2 ^ 24].map UInt8.ofNat

def loadU32 (s : Bytes) : BitVec 32 :=
  BitVec.ofNat 32 (s.foldr (fun byte n => byte.toNat + 2 ^ 8 * n) 0)

/-- The size that a head tells, as the `int` that receives it. -/
def nspTstParser (dat : Bytes) : Option Int :=
  if dat.take 4 = nspdefOpcode then some (loadU32 ((dat.drop 4).take 4)).toInt else none

def nspTstBuilder (cb : Int) : Option Bytes :=
  if cb ≤ 0 then none else some (nspdefOpcode ++ storeU32 (BitVec.ofInt 32 cb))

/-- What the link sends for one message. -/
def tcpWrite (origin : Bytes) : Option Bytes :=
  if origin = [] ∨ tcpMaximumPacketSize < origin.length then none
  else (nspTstBuilder origin.length).map fun head => head ++ origin

def framed (payloads : List Bytes) : Option Bytes :=
  (payloads.mapM tcpWrite).map List.flatten

/-! ## The receiver -/

/-- The bytes of a packet longer than the receive buffer. -/
structure LargeBlock where
  lbdata : Bytes
  lbsize : Nat
  room : lbdata.length < lbsize

structure Ncb where
  packet : Bytes
  lb : Option LargeBlock
  posted : List Bytes

def Ncb.fresh : Ncb := ⟨[], none, []⟩

/-- What a link is set up with: the template, the attribute
`LINKATTR_TCP_FULLY_RECEIVE`, and which blocks the allocator grants. -/
structure Link where
  cb : Nat
  parser : Option (Bytes → Option Int)
  fullyReceive : Bool
  ztrymalloc : Nat → Bool

def tstLink (ztrymalloc : Nat → Bool) : Link := ⟨8, some nspTstParser, false, ztrymalloc⟩

/-- The part of `rx_buffer` that is still to be parsed. -/
structure RxBuffer where
  data : Bytes
  fits : data.length ≤ tcpBufferSize

def RxBuffer.skip (rx : RxBuffer) (offset : Nat) : RxBuffer :=
  ⟨rx.data.drop offset, by have := rx.fits; simp only [List.length_drop]; omega⟩

def ncbPostRecvdata (link : Link) (posted : List Bytes) (packet : Bytes) : List Bytes :=
  posted ++ [if link.fullyReceive then packet else packet.drop link.cb]

def tcpParseMarkedLb (link : Link) (ncb : Ncb) (lb : LargeBlock) (cpbuff : Bytes) :
    Ncb × Int :=
  if h : cpbuff.length + lb.lbdata.length < lb.lbsize then
    ({ ncb with lb := some ⟨lb.lbdata ++ cpbuff, lb.lbsize, by simp; omega⟩ }, 0)
  else
    let overplus := lb.lbsize - lb.lbdata.length
    let whole := lb.lbdata ++ cpbuff.take overplus
    ({ ncb with lb := none, posted := ncbPostRecvdata link ncb.posted whole },
      cpbuff.length - overplus)

/-- The packet is as long as its head says. What comes before the unread
`cpbuff` is in `packet`, and `rx` is all that this call was given. -/
def tcpFillPkt (link : Link) (ncb : Ncb) (rx : RxBuffer) (cpbuff : Bytes)
    (totalPacketLength : Nat) : Ncb × Int :=
  if large : tcpBufferSize < totalPacketLength then
    if link.ztrymalloc totalPacketLength then
      let room : rx.data.length < totalPacketLength := by have := rx.fits; omega
      ({ ncb with packet := [], lb := some ⟨rx.data, totalPacketLength, room⟩ }, 0)
    else (ncb, -1)
  else if totalPacketLength ≤ ncb.packet.length + cpbuff.length then
    let missing := totalPacketLength - ncb.packet.length
    let whole := ncb.packet ++ cpbuff.take missing
    ({ ncb with packet := [], posted := ncbPostRecvdata link ncb.posted whole },
      cpbuff.length - missing)
  else ({ ncb with packet := ncb.packet ++ cpbuff }, 0)

def tcpParseHead (link : Link) (ncb : Ncb) (rx : RxBuffer) (cpbuff : Bytes) : Ncb × Int :=
  match link.parser with
  | none => (ncb, -1)
  | some parser =>
    match parser ncb.packet with
    | none => (ncb, -1)
    | some userDataSize =>
      if (tcpMaximumPacketSize : Int) < userDataSize ∨ userDataSize ≤ 0 then (ncb, -1)
      else tcpFillPkt link ncb rx cpbuff (userDataSize.toNat + link.cb)

/-- The number returned counts the bytes that are left; it is negative when the
link is to be closed. -/
def tcpParsePkt (link : Link) (ncb : Ncb) (rx : RxBuffer) : Ncb × Int :=
  if rx.data = [] then (ncb, -1)
  else if link.cb = 0 ∧ link.parser.isNone then
    ({ ncb with packet := [], posted := ncb.posted ++ [rx.data] }, 0)
  else
    match ncb.lb with
    | some lb => tcpParseMarkedLb link ncb lb rx.data
    | none =>
      if ncb.packet.length + rx.data.length < link.cb then
        ({ ncb with packet := ncb.packet ++ rx.data }, 0)
      else
        let used := link.cb - ncb.packet.length
        tcpParseHead link { ncb with packet := ncb.packet ++ rx.data.take used } rx
          (rx.data.drop used)

inductive RxStatus
  | successful
  | fatal
  | econnreset
  deriving DecidableEq, Repr

/-- The parse loop of one receive; `fuel` bounds its turns. -/
def tcpRxLoop (link : Link) : Nat → Ncb → RxBuffer → Option (Ncb × RxStatus)
  | 0, _, _ => none
  | fuel + 1, ncb, rx =>
    let parsed := tcpParsePkt link ncb rx
    if parsed.2 < 0 then some (parsed.1, .fatal)
    else if 0 < parsed.2 then
      tcpRxLoop link fuel parsed.1 (rx.skip (rx.data.length - parsed.2.toNat))
    else some (parsed.1, .successful)

def tcpRxOnce (link : Link) (ncb : Ncb) (rx : RxBuffer) : Option (Ncb × RxStatus) :=
  if rx.data = [] then some (ncb, .econnreset) else tcpRxLoop link rx.data.length ncb rx

/-- Receive after receive, until one fails. -/
def tcpRx (link : Link) : Ncb → List RxBuffer → Option (Ncb × RxStatus)
  | ncb, [] => some (ncb, .successful)
  | ncb, rx :: later =>
    match tcpRxOnce link ncb rx with
    | some (next, .successful) => tcpRx link next later
    | stopped => stopped

def received (chunks : List RxBuffer) : Bytes := chunks.flatMap RxBuffer.data

/-! ## Heads -/

theorem storeU32_length (n : BitVec 32) : (storeU32 n).length = 4 := by
  simp [storeU32]

theorem loadU32_storeU32 (n : BitVec 32) : loadU32 (storeU32 n) = n := by
  have bound : n.toNat < 2 ^ 32 := n.isLt
  apply BitVec.eq_of_toNat_eq
  simp only [loadU32, storeU32, List.map_cons, List.map_nil, List.foldr_cons, List.foldr_nil,
    BitVec.toNat_ofNat, UInt8.toNat_ofNat']
  omega

def tst : Framing.Code UInt8 where
  size := 8
  head n := nspdefOpcode ++ storeU32 (BitVec.ofNat 32 n)
  head_length n := by simp [nspdefOpcode, storeU32_length]

/-- The payloads that can be sent. -/
def Sendable (payload : Bytes) : Prop :=
  payload ≠ [] ∧ payload.length ≤ tcpMaximumPacketSize

/-- The packet does not fit the receive buffer. -/
def Large (payload : Bytes) : Prop := tcpBufferSize < (tst.frame payload).length

instance (payload : Bytes) : Decidable (Large payload) :=
  inferInstanceAs (Decidable (_ < _))

theorem tcpWrite_some {origin packet : Bytes} :
    tcpWrite origin = some packet ↔ Sendable origin ∧ packet = tst.frame origin := by
  have size : origin ≠ [] → ¬ ((origin.length : Int) ≤ 0) := by
    intro filled
    have := List.length_pos_of_ne_nil filled
    omega
  unfold tcpWrite Sendable
  split
  · rename_i refused
    constructor
    · intro sent
      cases sent
    · rintro ⟨⟨filled, short⟩, -⟩
      rcases refused with empty | long
      · exact absurd empty filled
      · omega
  · rename_i taken
    simp only [not_or, not_lt] at taken
    simp only [nspTstBuilder, if_neg (size taken.1), Option.map_some, Option.some.injEq,
      BitVec.ofInt_natCast]
    constructor
    · rintro rfl
      exact ⟨taken, rfl⟩
    · rintro ⟨-, rfl⟩
      rfl

theorem framed_some {payloads : List Bytes} {stream : Bytes} :
    framed payloads = some stream ↔
      (∀ payload ∈ payloads, Sendable payload) ∧ stream = tst.stream payloads := by
  induction payloads generalizing stream with
  | nil => simp [framed, eq_comm]
  | cons payload payloads ih =>
    have split : framed (payload :: payloads) = some stream ↔
        ∃ packet rest, tcpWrite payload = some packet ∧ framed payloads = some rest ∧
          packet ++ rest = stream := by
      simp [framed, List.mapM_cons, Option.map_eq_some_iff, Option.bind_eq_some_iff]
    rw [split]
    constructor
    · rintro ⟨packet, rest, sent, others, rfl⟩
      obtain ⟨one, rfl⟩ := tcpWrite_some.1 sent
      obtain ⟨all, rfl⟩ := ih.1 others
      exact ⟨List.forall_mem_cons.2 ⟨one, all⟩, by simp⟩
    · rintro ⟨all, rfl⟩
      obtain ⟨one, others⟩ := List.forall_mem_cons.1 all
      exact ⟨_, _, tcpWrite_some.2 ⟨one, rfl⟩, ih.2 ⟨others, rfl⟩, by simp⟩

/-- The parser reads the size that the head was built for. -/
theorem nspTstParser_head {payload more : Bytes} (sendable : Sendable payload) :
    nspTstParser (tst.head payload.length ++ more) = some (payload.length : Int) := by
  have bound : payload.length ≤ 52428800 := sendable.2
  have op : ((nspdefOpcode ++ storeU32 (BitVec.ofNat 32 payload.length)) ++ more).take 4 =
      nspdefOpcode := by
    simp [nspdefOpcode]
  have size : (((nspdefOpcode ++ storeU32 (BitVec.ofNat 32 payload.length)) ++ more).drop 4).take 4
      = storeU32 (BitVec.ofNat 32 payload.length) := by
    simp [nspdefOpcode, storeU32]
  simp only [nspTstParser, tst, op, size, if_true, loadU32_storeU32, Option.some.injEq]
  rw [BitVec.toInt_eq_toNat_of_lt]
  · simp only [BitVec.toNat_ofNat]
    omega
  · simp only [BitVec.toNat_ofNat]
    omega

/-! ## One call of the parser -/

section Parse

variable {ztrymalloc : Nat → Bool} {held payload rest after : Bytes} {posted : List Bytes}
  {rx : RxBuffer}

theorem parse_headPart (given : rx.data ≠ []) (short : held.length + rx.data.length < 8) :
    tcpParsePkt (tstLink ztrymalloc) ⟨held, none, posted⟩ rx =
      (⟨held ++ rx.data, none, posted⟩, 0) := by
  simp [tcpParsePkt, tstLink, given, short]

/-- With the head complete, the packet is filled to the length it tells. -/
theorem parse_head (given : rx.data ≠ []) (enough : 8 ≤ held.length + rx.data.length)
    (sendable : Sendable payload)
    (split : held ++ (rx.data ++ rest) = tst.frame payload ++ after) :
    tcpParsePkt (tstLink ztrymalloc) ⟨held, none, posted⟩ rx =
      tcpFillPkt (tstLink ztrymalloc)
        ⟨held ++ rx.data.take (8 - held.length), none, posted⟩ rx
        (rx.data.drop (8 - held.length)) (tst.frame payload).length := by
  have resplit : (held ++ rx.data.take (8 - held.length)) ++
      (rx.data.drop (8 - held.length) ++ rest) = tst.frame payload ++ after := by
    rw [← split, List.append_assoc, ← List.append_assoc (List.take _ _), List.take_append_drop]
  have front := tst.head_held resplit (by
    simp only [tst, List.length_append, List.length_take]
    omega)
  have parsed : nspTstParser (held ++ rx.data.take (8 - held.length)) =
      some (payload.length : Int) := by
    rw [← List.take_append_drop tst.size (held ++ _), front]
    exact nspTstParser_head sendable
  have positive := List.length_pos_of_ne_nil sendable.1
  have bound := sendable.2
  have length : payload.length + 8 = (tst.frame payload).length := by
    rw [tst.frame_length, Nat.add_comm]
    rfl
  have legal : ¬ ((tcpMaximumPacketSize : Int) < payload.length ∨ (payload.length : Int) ≤ 0) := by
    omega
  simp only [tcpParsePkt, tstLink, if_neg given, parsed, tcpParseHead, if_neg legal,
    Int.toNat_natCast, length]
  simp [enough]

theorem headSize_lt_frame (sendable : Sendable payload) : 8 < (tst.frame payload).length := by
  have positive := List.length_pos_of_ne_nil sendable.1
  have size : tst.size = 8 := rfl
  rw [tst.frame_length]
  omega

/-- Posting the frame hands on its payload. -/
theorem post_frame :
    ncbPostRecvdata (tstLink ztrymalloc) posted (tst.frame payload) = posted ++ [payload] := by
  have body : (tst.frame payload).drop 8 = payload := tst.payload_of_frame
  simp [ncbPostRecvdata, tstLink, body]

theorem parse_small (given : rx.data ≠ []) (enough : 8 ≤ held.length + rx.data.length)
    (sendable : Sendable payload)
    (split : held ++ (rx.data ++ rest) = tst.frame payload ++ after)
    (small : ¬ Large payload) (inside : held.length < (tst.frame payload).length)
    (whole : (tst.frame payload).length ≤ held.length + rx.data.length) :
    tcpParsePkt (tstLink ztrymalloc) ⟨held, none, posted⟩ rx =
      (Ncb.mk [] none (posted ++ [payload]),
        ((held.length + rx.data.length - (tst.frame payload).length : Nat) : Int)) := by
  have headed := headSize_lt_frame sendable
  have fits : ¬ tcpBufferSize < (tst.frame payload).length := small
  rw [parse_head given enough sendable split, tcpFillPkt, dif_neg fits, if_pos
    (by simp only [List.length_append, List.length_take, List.length_drop]; omega)]
  have used : (held ++ rx.data.take (8 - held.length)).length =
      held.length + (8 - held.length) := by
    simp only [List.length_append, List.length_take]
    omega
  have joined : (8 - held.length) +
      ((tst.frame payload).length - (held.length + (8 - held.length))) =
        (tst.frame payload).length - held.length := by
    omega
  have copied : held ++ rx.data.take (8 - held.length) ++
      (rx.data.drop (8 - held.length)).take
        ((tst.frame payload).length - (held.length + (8 - held.length))) =
      tst.frame payload :=
    calc
      _ = held ++ rx.data.take ((tst.frame payload).length - held.length) := by
        rw [List.append_assoc, ← List.take_add, joined]
      _ = (held ++ rx.data).take (tst.frame payload).length := by
        rw [List.take_append, List.take_of_length_le inside.le]
      _ = tst.frame payload :=
        (tst.frame_held (by simpa using split) (by simpa using whole)).1
  simp only [used, copied, post_frame, List.length_drop, Prod.mk.injEq, true_and]
  omega

theorem parse_smallPart (given : rx.data ≠ []) (enough : 8 ≤ held.length + rx.data.length)
    (sendable : Sendable payload)
    (split : held ++ (rx.data ++ rest) = tst.frame payload ++ after)
    (small : ¬ Large payload)
    (part : held.length + rx.data.length < (tst.frame payload).length) :
    tcpParsePkt (tstLink ztrymalloc) ⟨held, none, posted⟩ rx =
      (⟨held ++ rx.data, none, posted⟩, 0) := by
  have fits : ¬ tcpBufferSize < (tst.frame payload).length := small
  rw [parse_head given enough sendable split, tcpFillPkt, dif_neg fits, if_neg
    (by simp only [List.length_append, List.length_take, List.length_drop]; omega)]
  simp only [List.append_assoc, List.take_append_drop]

/-- The block of a large packet takes all of this receive, and nothing of what
was held before it. -/
theorem parse_large (given : rx.data ≠ []) (enough : 8 ≤ held.length + rx.data.length)
    (sendable : Sendable payload)
    (split : held ++ (rx.data ++ rest) = tst.frame payload ++ after)
    (large : tcpBufferSize < (tst.frame payload).length)
    (granted : ztrymalloc (tst.frame payload).length = true) :
    tcpParsePkt (tstLink ztrymalloc) ⟨held, none, posted⟩ rx =
      (⟨[], some ⟨rx.data, (tst.frame payload).length, Nat.lt_of_le_of_lt rx.fits large⟩,
        posted⟩, 0) := by
  have granted' : (tstLink ztrymalloc).ztrymalloc (tst.frame payload).length = true := granted
  rw [parse_head given enough sendable split, tcpFillPkt, dif_pos large, if_pos granted']

theorem parse_refused (given : rx.data ≠ []) (enough : 8 ≤ held.length + rx.data.length)
    (sendable : Sendable payload)
    (split : held ++ (rx.data ++ rest) = tst.frame payload ++ after)
    (large : tcpBufferSize < (tst.frame payload).length)
    (refused : ¬ ztrymalloc (tst.frame payload).length = true) :
    tcpParsePkt (tstLink ztrymalloc) ⟨held, none, posted⟩ rx =
      (⟨held ++ rx.data.take (8 - held.length), none, posted⟩, -1) := by
  have refused' : ¬ (tstLink ztrymalloc).ztrymalloc (tst.frame payload).length = true := refused
  rw [parse_head given enough sendable split, tcpFillPkt, dif_pos large, if_neg refused']

variable {size : Nat}

theorem parse_blockPart (given : rx.data ≠ []) (room : held.length < size)
    (part : held.length + rx.data.length < size) :
    tcpParsePkt (tstLink ztrymalloc) ⟨[], some ⟨held, size, room⟩, posted⟩ rx =
      (⟨[], some ⟨held ++ rx.data, size, by simpa using part⟩, posted⟩, 0) := by
  have part' : rx.data.length + held.length < size := by omega
  simp [tcpParsePkt, tstLink, tcpParseMarkedLb, given, part']

theorem parse_block (given : rx.data ≠ []) (room : held.length < size)
    (whole : size ≤ held.length + rx.data.length) :
    tcpParsePkt (tstLink ztrymalloc) ⟨[], some ⟨held, size, room⟩, posted⟩ rx =
      (Ncb.mk [] none
          (ncbPostRecvdata (tstLink ztrymalloc) posted ((held ++ rx.data).take size)),
        ((held.length + rx.data.length - size : Nat) : Int)) := by
  have whole' : ¬ rx.data.length + held.length < size := by omega
  have copied : (held ++ rx.data).take size = held ++ rx.data.take (size - held.length) := by
    rw [List.take_append, List.take_of_length_le room.le]
  rw [copied]
  simp only [tcpParsePkt, tstLink, tcpParseMarkedLb, if_neg given, whole', dif_neg,
    not_false_iff]
  simp
  omega

end Parse

/-! ## Reading on -/

section Reading

variable (ztrymalloc : Nat → Bool)

/-- Every byte that was received of the frame of `payload` is where the parser
looks for it. -/
inductive Within (payload : Bytes) (posted : List Bytes) : Bytes → Ncb → Prop
  | packet {held : Bytes} (short : Large payload → held.length < 8) :
      Within payload posted held ⟨held, none, posted⟩
  | block {held : Bytes} (large : Large payload)
      (granted : ztrymalloc (tst.frame payload).length = true) (headed : 8 ≤ held.length)
      (room : held.length < (tst.frame payload).length) :
      Within payload posted held ⟨[], some ⟨held, _, room⟩, posted⟩

/-- The link waits for the payloads `left`, of which `held` has come. -/
def Standing (left posted : List Bytes) (held : Bytes) (ncb : Ncb) : Prop :=
  match left with
  | [] => held = [] ∧ ncb = ⟨[], none, posted⟩
  | payload :: _ => held.length < (tst.frame payload).length ∧
      Within ztrymalloc payload posted held ncb

/-- A receive ended inside the head of the large packet that is awaited. -/
def InHead (left : List Bytes) (held : Bytes) : Prop :=
  match left with
  | [] => False
  | payload :: _ => Large payload ∧ 0 < held.length ∧ held.length < 8

/-- A receive is taken in, and `rest` is still to come. -/
def Reads (left posted : List Bytes) (rest : Bytes) (out : Option (Ncb × RxStatus)) : Prop :=
  ∃ done more held ncb, out = some (ncb, .successful) ∧ left = done ++ more ∧
    (∀ payload ∈ done, Large payload → ztrymalloc (tst.frame payload).length = true) ∧
      Standing ztrymalloc more (posted ++ done) held ncb ∧ held ++ rest = tst.stream more

/-- A receive ended the link, at a packet whose block was not granted. -/
def Refused (left posted : List Bytes) (out : Option (Ncb × RxStatus)) : Prop :=
  ∃ done payload more ncb, out = some (ncb, .fatal) ∧ left = done ++ payload :: more ∧
    Large payload ∧ ¬ ztrymalloc (tst.frame payload).length = true ∧
      ncb.posted = posted ++ done

variable {ztrymalloc} {payload : Bytes} {left posted more : List Bytes} {held rest after : Bytes}
  {ncb : Ncb} {rx : RxBuffer} {out : Option (Ncb × RxStatus)}

theorem standing_start : Standing ztrymalloc left posted [] ⟨[], none, posted⟩ := by
  cases left with
  | nil => exact ⟨rfl, rfl⟩
  | cons payload more =>
    constructor
    · have size : tst.size = 8 := rfl
      rw [tst.frame_length, size, List.length_nil]
      omega
    · exact .packet fun _ => by decide

theorem reads_cons (granted : Large payload → ztrymalloc (tst.frame payload).length = true)
    (reads : Reads ztrymalloc left (posted ++ [payload]) rest out) :
    Reads ztrymalloc (payload :: left) posted rest out := by
  obtain ⟨done, more, held, ncb, ran, split, all, standing, remains⟩ := reads
  refine ⟨payload :: done, more, held, ncb, ran, by simp [split],
    List.forall_mem_cons.2 ⟨granted, all⟩, ?_, remains⟩
  simpa using standing

theorem refused_cons (refused : Refused ztrymalloc left (posted ++ [payload]) out) :
    Refused ztrymalloc (payload :: left) posted out := by
  obtain ⟨done, other, more, ncb, ran, split, large, none, kept⟩ := refused
  exact ⟨payload :: done, other, more, ncb, ran, by simp [split], large, none, by simp [kept]⟩

/-- One call takes the whole receive into the awaited frame, or completes that
frame, or fails for want of a block. -/
theorem parse_within (within : Within ztrymalloc payload posted held ncb)
    (inside : held.length < (tst.frame payload).length) (sendable : Sendable payload)
    (uncut : ¬ (Large payload ∧ 0 < held.length ∧ held.length < 8)) (given : rx.data ≠ [])
    (split : held ++ (rx.data ++ rest) = tst.frame payload ++ after) :
    (held.length + rx.data.length < (tst.frame payload).length ∧
      ∃ next, tcpParsePkt (tstLink ztrymalloc) ncb rx = (next, 0) ∧
        Within ztrymalloc payload posted (held ++ rx.data) next) ∨
    ((tst.frame payload).length ≤ held.length + rx.data.length ∧
      (Large payload → ztrymalloc (tst.frame payload).length = true) ∧
      tcpParsePkt (tstLink ztrymalloc) ncb rx = (⟨[], none, posted ++ [payload]⟩,
        ((held.length + rx.data.length - (tst.frame payload).length : Nat) : Int))) ∨
    (Large payload ∧ ¬ ztrymalloc (tst.frame payload).length = true ∧
      ∃ next, tcpParsePkt (tstLink ztrymalloc) ncb rx = (next, -1) ∧ next.posted = posted) := by
  have headed := headSize_lt_frame sendable
  cases within with
  | packet short =>
    by_cases enough : 8 ≤ held.length + rx.data.length
    · by_cases large : Large payload
      · have long : tcpBufferSize < (tst.frame payload).length := large
        have nothing : held = [] := by
          apply List.eq_nil_of_length_eq_zero
          have := short large
          by_contra some
          exact uncut ⟨large, by omega, this⟩
        subst nothing
        by_cases granted : ztrymalloc (tst.frame payload).length = true
        · have fits := rx.fits
          refine Or.inl ⟨by simp only [List.length_nil]; omega, _,
            parse_large given enough sendable split long granted, ?_⟩
          exact .block large granted (by simpa using enough) _
        · exact Or.inr (Or.inr ⟨large, granted, _,
            parse_refused given enough sendable split long granted, rfl⟩)
      · by_cases whole : (tst.frame payload).length ≤ held.length + rx.data.length
        · exact Or.inr (Or.inl ⟨whole, fun h => absurd h large,
            parse_small given enough sendable split large inside whole⟩)
        · exact Or.inl ⟨by omega, _,
            parse_smallPart given enough sendable split large (by omega),
            .packet fun h => absurd h large⟩
    · exact Or.inl ⟨by omega, _, parse_headPart given (by omega),
        .packet fun _ => by simp only [List.length_append]; omega⟩
  | block large granted past room =>
    by_cases whole : (tst.frame payload).length ≤ held.length + rx.data.length
    · have resplit : (held ++ rx.data) ++ rest = tst.frame payload ++ after := by
        simpa using split
      have front := (tst.frame_held resplit (by simpa using whole)).1
      refine Or.inr (Or.inl ⟨whole, fun _ => granted, ?_⟩)
      rw [parse_block given room whole, front, post_frame]
    · exact Or.inl ⟨by omega, _, parse_blockPart given room (by omega),
        .block large granted (by simp only [List.length_append]; omega) _⟩

theorem loop_reads {fuel : Nat} (enough : rx.data.length ≤ fuel) (given : rx.data ≠ [])
    (sendable : ∀ payload ∈ left, Sendable payload)
    (standing : Standing ztrymalloc left posted held ncb) (uncut : ¬ InHead left held)
    (split : held ++ (rx.data ++ rest) = tst.stream left) :
    Reads ztrymalloc left posted rest (tcpRxLoop (tstLink ztrymalloc) fuel ncb rx) ∨
      Refused ztrymalloc left posted (tcpRxLoop (tstLink ztrymalloc) fuel ncb rx) := by
  induction fuel generalizing left posted held ncb rx with
  | zero =>
    have := List.length_pos_of_ne_nil given
    omega
  | succ fuel ih =>
    cases left with
    | nil => simp [given] at split
    | cons payload left =>
      obtain ⟨inside, within⟩ := standing
      obtain ⟨one, others⟩ := List.forall_mem_cons.1 sendable
      rw [tst.stream_cons] at split
      have loop (next : Ncb) (n : Int)
          (parsed : tcpParsePkt (tstLink ztrymalloc) ncb rx = (next, n)) :
          tcpRxLoop (tstLink ztrymalloc) (fuel + 1) ncb rx =
            if n < 0 then some (next, .fatal)
            else if 0 < n then tcpRxLoop (tstLink ztrymalloc) fuel next
              (rx.skip (rx.data.length - n.toNat))
            else some (next, .successful) := by
        simp only [tcpRxLoop, parsed]
      rcases parse_within within inside one uncut given split with
        ⟨part, next, parsed, within'⟩ | ⟨whole, granted, parsed⟩ |
          ⟨large, refused, next, parsed, kept⟩
      · left
        refine ⟨[], payload :: left, held ++ rx.data, next, ?_, rfl, by simp, ?_,
          by simpa using split⟩
        · simp [loop next 0 parsed]
        · rw [List.append_nil]
          exact ⟨by simpa using part, within'⟩
      · have resplit : (held ++ rx.data) ++ rest = tst.frame payload ++ tst.stream left := by
          simpa using split
        have follows := (tst.frame_held resplit (by simpa using whole)).2
        have rest' : (held ++ rx.data).drop (tst.frame payload).length =
            rx.data.drop ((tst.frame payload).length - held.length) := by
          rw [List.drop_append, List.drop_eq_nil_of_le inside.le, List.nil_append]
        rw [rest'] at follows
        rw [loop _ _ parsed, if_neg (by omega)]
        by_cases used : held.length + rx.data.length - (tst.frame payload).length = 0
        · rw [if_neg (by omega)]
          left
          have used : rx.data.drop ((tst.frame payload).length - held.length) = [] :=
            List.drop_eq_nil_of_le (by omega)
          rw [used, List.nil_append] at follows
          exact ⟨[payload], left, [], _, rfl, rfl, by simpa using granted, standing_start, follows⟩
        · rw [if_pos (by omega)]
          have skipped : rx.data.length -
              ((held.length + rx.data.length - (tst.frame payload).length : Nat) : Int).toNat =
                (tst.frame payload).length - held.length := by
            omega
          rw [skipped]
          have onward := @ih left (posted ++ [payload]) [] ⟨[], none, posted ++ [payload]⟩
            (rx.skip ((tst.frame payload).length - held.length))
            (by simp only [RxBuffer.skip, List.length_drop]; omega)
            (by
              apply List.ne_nil_of_length_pos
              simp only [RxBuffer.skip, List.length_drop]
              omega)
            others standing_start (by cases left <;> simp [InHead])
            (by simpa [RxBuffer.skip] using follows)
          rcases onward with reads | refused
          · exact Or.inl (reads_cons granted reads)
          · exact Or.inr (refused_cons refused)
      · right
        refine ⟨[], payload, left, next, ?_, rfl, large, refused, by simpa using kept⟩
        simp [loop next (-1) parsed]

end Reading

/-! ## A head cut in two -/

/-- No head begins inside a head. -/
theorem no_head_inside {payload after : Bytes} {lost : Nat} (sendable : Sendable payload)
    (some : 0 < lost) (short : lost < 8) :
    ((tst.frame payload ++ after).drop lost).take 4 ≠ nspdefOpcode := by
  intro same
  have bound : payload.length ≤ 52428800 := sendable.2
  have high : UInt8.ofNat (payload.length / 16777216) < 4 := by
    apply UInt8.lt_iff_toNat_lt.2
    simp only [UInt8.toNat_ofNat']
    have : (4 : UInt8).toNat = 4 := rfl
    omega
  have cell (i : Nat) (small : i < 4) :
      (tst.frame payload ++ after)[lost + i]? = nspdefOpcode[i]? := by
    rw [← same, List.getElem?_take_of_lt small, List.getElem?_drop]
  have low : payload.length % 4294967296 = payload.length := by omega
  by_cases front : lost < 4
  · -- a later letter of the opcode stands where the first is expected
    have first := cell 0 (by omega)
    interval_cases lost <;> simp [tst, Framing.Code.frame, nspdefOpcode] at first
  · -- the high byte of the length stands where a letter is expected
    have last := cell (7 - lost) (by omega)
    rw [Nat.add_sub_cancel' (by omega)] at last
    have byte : (tst.frame payload ++ after)[7]? =
        Option.some (UInt8.ofNat (payload.length / 16777216)) := by
      simp [tst, Framing.Code.frame, nspdefOpcode, storeU32, low]
    rw [byte] at last
    interval_cases lost <;> simp [nspdefOpcode] at last <;> simp [last] at high

/-- After a cut in the head of the large `payload`, with `rest` to come: the head
is not complete, or its first bytes are lost to the block, or the block was
filled from the next head. -/
inductive Astray (done : List Bytes) (payload : Bytes) (more : List Bytes) : Bytes → Ncb → Prop
  | cut {held rest : Bytes} (positive : 0 < held.length) (short : held.length < 8)
      (split : held ++ rest = tst.stream (payload :: more)) :
      Astray done payload more rest ⟨held, none, done⟩
  | block {held rest : Bytes} (lost : Nat) (positive : 0 < lost) (short : lost < 8)
      (room : held.length < (tst.frame payload).length)
      (remains : rest = (tst.stream (payload :: more)).drop (lost + held.length)) :
      Astray done payload more rest ⟨[], some ⟨held, _, room⟩, done⟩
  | beyond {held rest : Bytes} (lost : Nat) (junk : Bytes) (positive : 0 < lost) (short : lost < 8)
      (partly : held.length < 8) (next : more ≠ [])
      (split : held ++ rest = (tst.stream more).drop lost) :
      Astray done payload more rest ⟨held, none, done ++ [junk]⟩

section Astray

variable {ztrymalloc : Nat → Bool} {done more : List Bytes} {payload rest : Bytes} {ncb : Ncb}
  {rx : RxBuffer}

/-- A packet is missing from what was posted. -/
theorem astray_misses (astray : Astray done payload more rest ncb) :
    ncb.posted.length ≤ done.length + more.length := by
  cases astray with
  | cut => simp
  | block => simp
  | beyond lost junk positive short partly next split =>
    have := List.length_pos_of_ne_nil next
    simp only [List.length_append, List.length_singleton]
    omega

theorem parse_stray {held : Bytes} {posted : List Bytes} (given : rx.data ≠ [])
    (enough : 8 ≤ held.length + rx.data.length)
    (stray : nspTstParser (held ++ rx.data.take (8 - held.length)) = none) :
    tcpParsePkt (tstLink ztrymalloc) ⟨held, none, posted⟩ rx =
      (⟨held ++ rx.data.take (8 - held.length), none, posted⟩, -1) := by
  simp [tcpParsePkt, tstLink, tcpParseHead, given, enough, stray]

variable (ztrymalloc) in
theorem parse_astray (large : Large payload) (sendable : Sendable payload)
    (others : ∀ p ∈ more, Sendable p) (given : rx.data ≠ [])
    (astray : Astray done payload more (rx.data ++ rest) ncb) :
    (∃ next, tcpParsePkt (tstLink ztrymalloc) ncb rx = (next, -1) ∧
      next.posted.length ≤ done.length + more.length) ∨
    (∃ next, ∃ n < rx.data.length, tcpParsePkt (tstLink ztrymalloc) ncb rx = (next, (n : Int)) ∧
      Astray done payload more (rx.data.drop (rx.data.length - n) ++ rest) next) := by
  have filled := List.length_pos_of_ne_nil given
  have nothingLeft : rx.data.drop (rx.data.length - 0) ++ rest = rest := by simp
  cases astray with
  | @cut held _ positive short split =>
    by_cases enough : 8 ≤ held.length + rx.data.length
    · rw [tst.stream_cons] at split
      by_cases granted : ztrymalloc (tst.frame payload).length = true
      · refine Or.inr ⟨_, 0, filled, parse_large given enough sendable split large granted, ?_⟩
        rw [nothingLeft]
        refine .block held.length positive short _ ?_
        rw [tst.stream_cons, ← split, ← List.append_assoc, ← List.length_append,
          List.drop_left]
      · exact Or.inl ⟨_, parse_refused given enough sendable split large granted, by simp⟩
    · refine Or.inr ⟨_, 0, filled, parse_headPart given (by omega), ?_⟩
      rw [nothingLeft]
      exact .cut (by simp only [List.length_append]; omega)
        (by simp only [List.length_append]; omega) (by simpa using split)
  | @block held _ lost positive short room remains =>
    have dropped (n : Nat) : (rx.data ++ rest).drop n =
        (tst.stream (payload :: more)).drop (lost + held.length + n) := by
      rw [remains, List.drop_drop]
    by_cases whole : (tst.frame payload).length ≤ held.length + rx.data.length
    · have used : rx.data.length - (held.length + rx.data.length - (tst.frame payload).length) =
          (tst.frame payload).length - held.length := by
        omega
      have toFrame : lost + held.length + ((tst.frame payload).length - held.length) =
          (tst.frame payload).length + lost := by
        omega
      have follows : rx.data.drop ((tst.frame payload).length - held.length) ++ rest =
          (tst.stream more).drop lost := by
        rw [← List.drop_append_of_le_length (by omega), dropped, toFrame, tst.stream_cons,
          ← List.drop_drop, List.drop_left]
      have next : more ≠ [] := by
        rintro rfl
        have sizes := congrArg List.length remains
        simp only [List.length_append, List.length_drop, tst.stream_cons, tst.stream_nil,
          List.length_nil] at sizes
        omega
      refine Or.inr ⟨_, _, ?_, parse_block given room whole, ?_⟩
      · omega
      · rw [used, follows]
        exact .beyond lost _ positive short (by decide) next (by simp)
    · refine Or.inr ⟨_, 0, filled, parse_blockPart given room (by omega), ?_⟩
      rw [nothingLeft]
      refine .block lost positive short _ ?_
      have back := dropped rx.data.length
      rw [List.drop_left] at back
      rw [back, List.length_append, Nat.add_assoc]
  | @beyond held _ lost junk positive short partly next split =>
    by_cases enough : 8 ≤ held.length + rx.data.length
    · refine Or.inl ⟨_, parse_stray given enough ?_, ?_⟩
      · cases more with
        | nil => exact absurd rfl next
        | cons other more =>
          have window : (held ++ rx.data.take (8 - held.length)).take 4 =
              ((tst.stream (other :: more)).drop lost).take 4 := by
            have long : 4 ≤ (held ++ rx.data).length := by
              simp only [List.length_append]
              omega
            calc
              _ = held.take 4 ++ rx.data.take (4 - held.length) := by
                rw [List.take_append, List.take_take, Nat.min_eq_left (by omega)]
              _ = (held ++ rx.data).take 4 := by rw [List.take_append]
              _ = ((held ++ rx.data) ++ rest).take 4 :=
                (List.take_append_of_le_length long).symm
              _ = _ := by rw [List.append_assoc, split]
          rw [tst.stream_cons] at window
          rw [nspTstParser, window,
            if_neg (no_head_inside (others other (by simp)) positive short)]
      · have := List.length_pos_of_ne_nil next
        simp only [List.length_append, List.length_singleton]
        omega
    · refine Or.inr ⟨_, 0, filled, parse_headPart given (by omega), ?_⟩
      rw [nothingLeft]
      exact .beyond lost junk positive short (by simp only [List.length_append]; omega) next
        (by simpa using split)

variable (ztrymalloc) in
theorem loop_astray {fuel : Nat} (large : Large payload) (sendable : Sendable payload)
    (others : ∀ p ∈ more, Sendable p) (given : rx.data ≠ []) (enough : rx.data.length ≤ fuel)
    (astray : Astray done payload more (rx.data ++ rest) ncb) :
    ∃ next status, tcpRxLoop (tstLink ztrymalloc) fuel ncb rx = some (next, status) ∧
      next.posted.length ≤ done.length + more.length ∧
        (status = .successful → Astray done payload more rest next) := by
  induction fuel generalizing ncb rx with
  | zero =>
    have := List.length_pos_of_ne_nil given
    omega
  | succ fuel ih =>
    rcases parse_astray ztrymalloc large sendable others given astray with
      ⟨next, parsed, misses⟩ | ⟨next, n, fewer, parsed, astray'⟩
    · exact ⟨next, .fatal, by simp [tcpRxLoop, parsed], misses, by simp⟩
    · by_cases used : n = 0
      · subst used
        exact ⟨next, .successful, by simp [tcpRxLoop, parsed], astray_misses astray',
          fun _ => by simpa using astray'⟩
      · have turn : tcpRxLoop (tstLink ztrymalloc) (fuel + 1) ncb rx =
            tcpRxLoop (tstLink ztrymalloc) fuel next (rx.skip (rx.data.length - n)) := by
          have positive : (0 : Int) < n := by omega
          have notNegative : ¬ (n : Int) < 0 := by omega
          simp only [tcpRxLoop, parsed, if_neg notNegative, if_pos positive, Int.toNat_natCast]
        rw [turn]
        apply ih
        · apply List.ne_nil_of_length_pos
          simp only [RxBuffer.skip, List.length_drop]
          omega
        · simp only [RxBuffer.skip, List.length_drop]
          omega
        · exact astray'

variable (ztrymalloc) in
theorem tcpRx_astray {chunks : List RxBuffer} (large : Large payload) (sendable : Sendable payload)
    (others : ∀ p ∈ more, Sendable p) (given : ∀ rx ∈ chunks, rx.data ≠ [])
    (astray : Astray done payload more (received chunks) ncb) :
    ∃ next status, tcpRx (tstLink ztrymalloc) ncb chunks = some (next, status) ∧
      next.posted.length ≤ done.length + more.length := by
  induction chunks generalizing ncb with
  | nil => exact ⟨ncb, .successful, rfl, astray_misses astray⟩
  | cons rx later ih =>
    obtain ⟨one, rest⟩ := List.forall_mem_cons.1 given
    obtain ⟨next, status, ran, misses, onward⟩ :=
      loop_astray ztrymalloc large sendable others one (Nat.le_refl rx.data.length)
        (by simpa [received] using astray)
    cases status with
    | successful =>
      obtain ⟨last, status, ran', misses'⟩ := ih rest (onward rfl)
      exact ⟨last, status, by simp [tcpRx, tcpRxOnce, one, ran, ran'], misses'⟩
    | fatal => exact ⟨next, .fatal, by simp [tcpRx, tcpRxOnce, one, ran], misses⟩
    | econnreset => exact ⟨next, .econnreset, by simp [tcpRx, tcpRxOnce, one, ran], misses⟩

end Astray

/-! ## Whole streams -/

/-- A receive that ends after `n` bytes cuts the head of a large packet in two. -/
def CutsHead (payloads : List Bytes) (n : Nat) : Prop :=
  ∃ before payload after, payloads = before ++ payload :: after ∧ Large payload ∧
    (tst.stream before).length < n ∧ n < (tst.stream before).length + 8

def HeadsWhole (payloads : List Bytes) (chunks : List RxBuffer) : Prop :=
  ∀ taken left, chunks = taken ++ left → ¬ CutsHead payloads (received taken).length

/-- The allocator grants the block of every large packet. -/
def Granted (ztrymalloc : Nat → Bool) (payloads : List Bytes) : Prop :=
  ∀ payload ∈ payloads, Large payload → ztrymalloc (tst.frame payload).length = true

section Whole

variable {ztrymalloc : Nat → Bool} {done left posted : List Bytes} {held : Bytes} {ncb : Ncb}

theorem inHead_of_cut (standing : Standing ztrymalloc left posted held ncb)
    (sendable : ∀ payload ∈ done ++ left, Sendable payload)
    (cut : CutsHead (done ++ left) ((tst.stream done).length + held.length)) :
    InHead left held := by
  obtain ⟨before, payload, after, same, large, later, sooner⟩ := cut
  have headed := headSize_lt_frame (sendable payload (by simp [same]))
  cases left with
  | nil =>
    obtain ⟨rfl, -⟩ := standing
    have sizes := congrArg (fun payloads => (tst.stream payloads).length) same
    simp only [List.append_nil, tst.stream_append, tst.stream_cons, List.length_append] at sizes
    simp only [List.length_nil] at sooner
    omega
  | cons awaited more =>
    obtain ⟨place, rfl, -⟩ := tst.same_frame same standing.1
      (b := (tst.stream done).length + held.length - (tst.stream before).length)
      (by omega) (by omega)
    subst place
    exact ⟨large, by omega, by omega⟩

/-- From any place in the stream the link reads to the end of it, or it loses a
packet to a cut head or to a block that is not granted. -/
theorem tcpRx_reads {payloads : List Bytes} {later : List RxBuffer}
    (chunks taken : List RxBuffer) (given : ∀ rx ∈ later, rx.data ≠ [])
    (sendable : ∀ payload ∈ payloads, Sendable payload)
    (whole : payloads = done ++ left) (standing : Standing ztrymalloc left done held ncb)
    (split : held ++ received later = tst.stream left) (granted : Granted ztrymalloc done)
    (all : chunks = taken ++ later)
    (place : (received taken).length = (tst.stream done).length + held.length) :
    (tcpRx (tstLink ztrymalloc) ncb later = some (⟨[], none, payloads⟩, .successful) ∧
      (∀ now after, later = now ++ after →
        ¬ CutsHead payloads (received (taken ++ now)).length) ∧
      Granted ztrymalloc payloads) ∨
    (∃ next status, tcpRx (tstLink ztrymalloc) ncb later = some (next, status) ∧
      next.posted.length < payloads.length ∧
      ¬ (HeadsWhole payloads chunks ∧ Granted ztrymalloc payloads)) := by
  induction later generalizing taken done left held ncb with
  | nil =>
    simp only [received, List.flatMap_nil, List.append_nil] at split
    cases left with
    | cons payload more =>
      have inside := standing.1
      rw [split, tst.stream_cons, List.length_append] at inside
      omega
    | nil =>
      obtain ⟨rfl, rfl⟩ := id standing
      rw [List.append_nil] at whole
      subst whole
      refine Or.inl ⟨rfl, ?_, granted⟩
      intro now after ends cut
      obtain ⟨rfl, rfl⟩ := List.append_eq_nil_iff.1 ends.symm
      rw [List.append_nil, place] at cut
      exact inHead_of_cut standing (by simpa using sendable) (by simpa using cut)
  | cons rx later ih =>
    obtain ⟨one, others⟩ := List.forall_mem_cons.1 given
    have split' : held ++ (rx.data ++ received later) = tst.stream left := by
      simpa [received] using split
    have sendableLeft : ∀ payload ∈ left, Sendable payload := fun payload mem =>
      sendable payload (by simp [whole, mem])
    by_cases inHead : InHead left held
    · right
      cases left with
      | nil => exact inHead.elim
      | cons payload more =>
        obtain ⟨large, some, short⟩ := inHead
        have astray : Astray done payload more (received (rx :: later)) ncb := by
          cases standing.2 with
          | packet => exact .cut some short split
          | block _ _ past => omega
        obtain ⟨next, status, ran, misses⟩ := tcpRx_astray ztrymalloc large
          (sendableLeft payload (by simp)) (fun p mem => sendableLeft p (by simp [mem])) given
          astray
        refine ⟨next, status, ran, ?_, ?_⟩
        · simp only [whole, List.length_append, List.length_cons]
          omega
        · rintro ⟨wholeHeads, -⟩
          refine wholeHeads taken (rx :: later) all
            ⟨done, payload, more, whole, large, by omega, by omega⟩
    · have turn : tcpRx (tstLink ztrymalloc) ncb (rx :: later) =
          match tcpRxLoop (tstLink ztrymalloc) rx.data.length ncb rx with
          | some (next, .successful) => tcpRx (tstLink ztrymalloc) next later
          | stopped => stopped := by
        simp only [tcpRx, tcpRxOnce, if_neg one]
      rcases loop_reads (Nat.le_refl rx.data.length) one sendableLeft standing inHead split' with
        ⟨more, rest, held', next, ran, parts, grantedMore, standing', split''⟩ |
        ⟨more, payload, rest, next, ran, parts, large, refused, kept⟩
      · rw [turn, ran]
        have lengths := congrArg List.length split'
        have lengths' := congrArg List.length split''
        simp only [parts, tst.stream_append, List.length_append] at lengths lengths'
        have onward := ih (taken ++ [rx]) others (by rw [whole, parts, List.append_assoc])
          standing' split''
          (fun payload mem => (List.mem_append.1 mem).elim (granted payload) (grantedMore payload))
          (by simpa using all)
          (by
            simp only [received, List.flatMap_append, List.flatMap_singleton, List.length_append,
              tst.stream_append] at place ⊢
            omega)
        rcases onward with ⟨ran', uncut, grantedAll⟩ | missed
        · refine Or.inl ⟨ran', ?_, grantedAll⟩
          intro now after ends cut
          cases now with
          | nil =>
            rw [List.append_nil, place, whole] at cut
            exact inHead (inHead_of_cut standing (whole ▸ sendable) cut)
          | cons first now =>
            simp only [List.cons_append, List.cons.injEq] at ends
            obtain ⟨rfl, ends⟩ := ends
            exact uncut now after ends (by simpa using cut)
        · exact Or.inr missed
      · right
        refine ⟨next, .fatal, by rw [turn, ran], ?_, ?_⟩
        · rw [kept, whole, parts]
          simp
        · rintro ⟨-, grantedAll⟩
          exact refused (grantedAll payload (by simp [whole, parts]) large)

end Whole

/-- Small packets are received whole wherever the stream is cut. -/
theorem small_packets_received (ztrymalloc : Nat → Bool) (payloads : List Bytes)
    (chunks : List RxBuffer) (sent : framed payloads = some (received chunks))
    (small : ∀ payload ∈ payloads, 8 + payload.length ≤ tcpBufferSize)
    (given : ∀ rx ∈ chunks, rx.data ≠ []) :
    tcpRx (tstLink ztrymalloc) Ncb.fresh chunks =
      some (⟨[], none, payloads⟩, .successful) := by
  obtain ⟨sendable, stream⟩ := framed_some.1 sent
  have noneLarge (payload : Bytes) (mem : payload ∈ payloads) : ¬ Large payload := by
    have fits := small payload mem
    have size : tst.size = 8 := rfl
    rw [Large, tst.frame_length]
    omega
  rcases tcpRx_reads chunks [] given sendable (List.nil_append payloads).symm
      (@standing_start ztrymalloc _ _) stream (by simp [Granted]) rfl (by simp [received]) with
    ⟨ran, -, -⟩ | ⟨next, status, ran, misses, defect⟩
  · exact ran
  · refine absurd ⟨?_, ?_⟩ defect
    · rintro taken left - ⟨before, payload, after, rfl, large, -⟩
      exact noneLarge payload (by simp) large
    · intro payload mem large
      exact absurd large (noneLarge payload mem)

def twoSmall : List Bytes := [[1, 2], [3]]

/-- The first cut is in a head, the second in the next frame. -/
def threeCuts : List RxBuffer :=
  [⟨[78, 115, 112], by decide⟩, ⟨[100, 2, 0, 0, 0, 1, 2, 78, 115], by decide⟩,
    ⟨[112, 100, 1, 0, 0, 0, 3], by decide⟩]

theorem small_packets_received_twoSmall :
    tcpRx (tstLink fun _ => false) Ncb.fresh threeCuts =
      some (⟨[], none, twoSmall⟩, .successful) :=
  small_packets_received _ twoSmall threeCuts (by decide) (by decide) (by decide)

/-- A stream is received packet for packet exactly when no receive ends inside
the head of a packet longer than the receive buffer, and the blocks of those
packets are granted. -/
theorem large_packets_iff (ztrymalloc : Nat → Bool) (payloads : List Bytes)
    (chunks : List RxBuffer) (sent : framed payloads = some (received chunks))
    (given : ∀ rx ∈ chunks, rx.data ≠ []) :
    ∃ ncb status, tcpRx (tstLink ztrymalloc) Ncb.fresh chunks = some (ncb, status) ∧
      (ncb.posted = payloads ↔ HeadsWhole payloads chunks ∧ Granted ztrymalloc payloads) := by
  obtain ⟨sendable, stream⟩ := framed_some.1 sent
  rcases tcpRx_reads chunks [] given sendable (List.nil_append payloads).symm
      (@standing_start ztrymalloc _ _) stream (by simp [Granted]) rfl (by simp [received]) with
    ⟨ran, uncut, granted⟩ | ⟨next, status, ran, misses, defect⟩
  · refine ⟨_, _, ran, fun _ => ⟨?_, granted⟩, fun _ => rfl⟩
    intro taken left all
    exact uncut taken left all
  · refine ⟨next, status, ran, ?_⟩
    constructor
    · rintro rfl
      omega
    · intro fine
      exact absurd fine defect

/-- The shortest payload whose packet does not fit the receive buffer. -/
def longPayload : Bytes := List.replicate (tcpBufferSize - 7) 0

def longStream : Bytes := tst.stream [longPayload]

theorem longPayload_length : longPayload.length = 69625 := List.length_replicate

theorem longPayload_frame : (tst.frame longPayload).length = 69633 := by
  rw [tst.frame_length, longPayload_length]
  rfl

theorem longStream_length : longStream.length = 69633 := by
  rw [longStream, tst.stream_cons, tst.stream_nil, List.append_nil, longPayload_frame]

/-- The first receive brings one byte of the head, the second the other bytes. -/
def cutAfterOne : List RxBuffer :=
  [⟨longStream.take 1, by rw [List.length_take, tcpBufferSize]; omega⟩,
    ⟨longStream.drop 1, by rw [List.length_drop, longStream_length]; decide⟩]

theorem cutAfterOne_sent : framed [longPayload] = some (received cutAfterOne) := by
  refine framed_some.2 ⟨?_, ?_⟩
  · intro payload mem
    obtain rfl := List.mem_singleton.1 mem
    constructor
    · apply List.ne_nil_of_length_pos
      rw [longPayload_length]
      decide
    · rw [longPayload_length]
      decide
  · simp only [received, cutAfterOne, List.flatMap_cons, List.flatMap_nil, List.append_nil,
      List.take_append_drop, longStream]

theorem cutAfterOne_given : ∀ rx ∈ cutAfterOne, rx.data ≠ [] := by
  have length := longStream_length
  intro rx mem
  apply List.ne_nil_of_length_pos
  simp only [cutAfterOne, List.mem_cons, List.not_mem_nil, or_false] at mem
  rcases mem with rfl | rfl
  · simp only [List.length_take]
    omega
  · simp only [List.length_drop]
    omega

theorem large_packets_iff_cutAfterOne :
    ∃ ncb status, tcpRx (tstLink fun _ => true) Ncb.fresh cutAfterOne = some (ncb, status) ∧
      (ncb.posted = [longPayload] ↔
        HeadsWhole [longPayload] cutAfterOne ∧ Granted (fun _ => true) [longPayload]) :=
  large_packets_iff _ _ _ cutAfterOne_sent cutAfterOne_given

/-- A head cut in two loses its packet. -/
theorem not_always_received :
    framed [longPayload] = some (received cutAfterOne) ∧
      (∀ rx ∈ cutAfterOne, rx.data ≠ []) ∧
      ∃ ncb status, tcpRx (tstLink fun _ => true) Ncb.fresh cutAfterOne = some (ncb, status) ∧
        ncb.posted ≠ [longPayload] := by
  refine ⟨cutAfterOne_sent, cutAfterOne_given, ?_⟩
  have sendable := (framed_some.1 cutAfterOne_sent).1
  have length := longStream_length
  have large : Large longPayload := by
    rw [Large, longPayload_frame]
    decide
  rcases tcpRx_reads cutAfterOne [] cutAfterOne_given sendable (List.nil_append _).symm
      (@standing_start (fun _ => true) _ _) (framed_some.1 cutAfterOne_sent).2
      (by simp [Granted]) rfl (by simp [received]) with
    ⟨-, uncut, -⟩ | ⟨next, status, ran, misses, -⟩
  · refine absurd ⟨[], longPayload, [], rfl, large, ?_, ?_⟩
      (uncut (cutAfterOne.take 1) (cutAfterOne.drop 1) rfl)
    · simp only [received, cutAfterOne, List.nil_append, List.take_succ_cons, List.take_zero,
        List.flatMap_cons, List.flatMap_nil, List.append_nil, List.length_take, tst.stream_nil,
        List.length_nil]
      omega
    · simp only [received, cutAfterOne, List.nil_append, List.take_succ_cons, List.take_zero,
        List.flatMap_cons, List.flatMap_nil, List.append_nil, List.length_take, tst.stream_nil,
        List.length_nil]
      omega
  · refine ⟨next, status, ran, ?_⟩
    rintro same
    rw [same] at misses
    exact Nat.lt_irrefl _ misses

end Reassembly
