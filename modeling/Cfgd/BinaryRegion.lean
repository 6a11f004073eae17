import Cfgd.ByteImage
import Cfgd.StatusLines
import Cfgd.Transition

/-!
# The binary region

`pro_binary_read` and `pro_binary_write` over the mapped region. The address 0 is the
first byte of the user area: the header stands in front of it, and other memory of the
process behind its end and in front of the header. The offset and the size are numbers
that a client sends as text; the one check on the sum is made after its conversion to
an unsigned type.
-/

namespace BinaryRegion

open CText Request Payload Response Handlers TaskTable ByteImage Exchange

def fsMaxBinSize : Nat := 2 ^ 20

/-- `sizeof(struct fs_binary_layout)`, which is the header alone. -/
def sizeOfBinaryLayout : Nat := 1024

def userSize : Nat := fsMaxBinSize - sizeOfBinaryLayout

def enomem : Int := 12
def einval : Int := 22

/-- `__fs_server.binary`: whether the file is mapped, and the memory. -/
structure Region where
  mapped : Bool
  image : Image

/-- `offset + size` as `int`, converted for the comparison with a `size_t`. -/
def unsignedSum (offset size : Int) : Nat :=
  (BitVec.ofInt 64 (BitVec.ofInt 32 (offset + size)).toInt).toNat

/-- The answer, and where `*data` points to. -/
def fsReadBinary (region : Region) (offset size : Int) : Int × Option Int :=
  if region.mapped = false then (-enomem, none)
  else if size ≤ 0 then (-einval, none)
  else if userSize < unsignedSum offset size then (-einval, none)
  else (size, some offset)

def fsWriteBinary (region : Region) (offset size : Int) (data : Bytes) : Int × Region :=
  if region.mapped = false then (-enomem, region)
  else if size ≤ 0 then (-einval, region)
  else if userSize < unsignedSum offset size then (-einval, region)
  else (size, { region with image := copyTo region.image offset (data.take size.toNat) })

/-- The region as the handlers call it. -/
def Region.callees (region : Region) : Callees :=
  { Callees.failing with
    fsReadBinary := fun offset size =>
      let (retval, pointer) := fsReadBinary region offset size
      (retval, load region.image (pointer.getD 0) size.toNat)
    fsWriteBinary := fun offset data => (fsWriteBinary region offset data.length data).1 }

/-- A request and what it leaves. `touched` is the range of memory that is handed out or
copied to. -/
structure Served where
  region : Region
  reply : Reply
  touched : Option (Int × Nat)

section Handlers
variable (region : Region) (options : List Jrp) (jrp : Jrp) (reply : Reply)

def proBinaryRead : Served :=
  if options = [] then ⟨region, answer reply .fatal, none⟩
  else
    let (offset, size) := offsetAndSize options
    if size < 0 then ⟨region, answer reply .fatal, none⟩
    else
      let (retval, pointer) := fsReadBinary region offset size
      if retval ≠ size then ⟨region, answer reply .fatal, none⟩
      else
        let uptr := pointer.getD 0
        ⟨region, proAppendBinaryResponse (answer reply .ok) (load region.image uptr size.toNat),
          some (uptr, size.toNat)⟩

def proBinaryWrite : Served :=
  if options = [] then ⟨region, answer reply .fatal, none⟩
  else
    let (offset, size) := offsetAndSize options
    let value := jrp.valuestring.getD []
    if size < 0 ∨ size ≠ value.length then ⟨region, answer reply .fatal, none⟩
    else
      let (retval, region') := fsWriteBinary region offset size value
      if retval < 0 then ⟨region', answer reply .fatal, none⟩
      else ⟨region', answer reply .ok, some (offset, value.length)⟩

/-- The answers are those of the handlers that the tasks call. -/
theorem reply_proBinaryRead :
    (proBinaryRead region options reply).reply =
      Handlers.proBinaryRead region.callees options reply := by
  rw [proBinaryRead, Handlers.proBinaryRead]
  split
  · rfl
  · dsimp only
    split
    · rfl
    · simp only [Region.callees]
      split
      · rename_i differs
        exact (if_pos differs).symm
      · rename_i same
        rw [List.take_of_length_le (by rw [length_load])]
        exact (if_neg same).symm

theorem reply_proBinaryWrite :
    (proBinaryWrite region options jrp reply).reply =
      Handlers.proBinaryWrite region.callees options jrp reply := by
  rw [proBinaryWrite, Handlers.proBinaryWrite]
  split
  · rfl
  · dsimp only
    split
    · rfl
    · rename_i sized
      have same := not_not.mp (not_or.mp sized).2
      simp only [Region.callees, answerOf, ← same]
      split <;> rfl

end Handlers

/-- A request for the region as it comes from a link. `payload` is there in a `wbin`. -/
structure Access where
  option : Bytes
  short : option.length < maxOptSize
  payload : Option Bytes

namespace Access

def title (r : Access) : Bytes := if r.payload = none then rbin else wbin

/-- The options that `rt_build_jrp` makes of the text. -/
def options (r : Access) : Int × List Jrp := buildEffective r.option

def offset (r : Access) : Int := (offsetAndSize r.options.2).1

def size (r : Access) : Int := (offsetAndSize r.options.2).2

/-- The response before the handler is called. -/
def head (r : Access) : Reply := responseHead r.title (cString r.option)

/-- What the text asks for is well formed, and the sum of the two numbers, computed
without a bound, lies in the user area. -/
structure Accepted (r : Access) : Prop where
  built : 0 ≤ r.options.1
  filled : r.options.2 ≠ []
  positive : 0 < r.size
  nonneg : 0 ≤ r.offset + r.size
  inside : r.offset + r.size ≤ userSize
  whole : ∀ payload, r.payload = some payload → r.size = payload.length

end Access

/-- From the allocation of the task to its response. -/
def serve (region : Region) (r : Access) : Served :=
  if r.options.1 < 0 then ⟨region, faultReply r.title (cString r.option), none⟩
  else match r.payload with
    | none => proBinaryRead region r.options.2 r.head
    | some payload => proBinaryWrite region r.options.2 (binaryJrp payload) r.head

section Numbers

theorem intOfLong_bounds (n : Int) : -2 ^ 31 ≤ intOfLong n ∧ intOfLong n < 2 ^ 31 := by
  rw [intOfLong]
  have lower := BitVec.le_toInt (BitVec.ofInt 32 n)
  have upper := BitVec.toInt_lt (x := BitVec.ofInt 32 n)
  omega

/-- Both numbers are of type `int`. -/
theorem offsetAndSize_bounds (options : List Jrp) :
    (-2 ^ 31 ≤ (offsetAndSize options).1 ∧ (offsetAndSize options).1 < 2 ^ 31) ∧
      -2 ^ 31 ≤ (offsetAndSize options).2 ∧ (offsetAndSize options).2 < 2 ^ 31 := by
  rw [offsetAndSize]
  refine List.foldlRecOn (motive := fun result : Int × Int =>
    (-2 ^ 31 ≤ result.1 ∧ result.1 < 2 ^ 31) ∧ -2 ^ 31 ≤ result.2 ∧ result.2 < 2 ^ 31) options _
    ⟨⟨by decide, by decide⟩, by decide, by decide⟩ fun start bounds optjrp _ => ?_
  have value := intOfLong_bounds (strtoll optjrp.dupvalue)
  dsimp only
  split
  · constructor
    · dsimp only
      split
      · exact value
      · exact bounds.1
    · dsimp only
      split
      · exact value
      · exact bounds.2
  · exact bounds

/-- The comparison as it is made: a negative sum is refused, and so is one that leaves
`int`. -/
theorem unsignedSum_le {offset size : Int} (lowerO : -2 ^ 31 ≤ offset) (upperO : offset < 2 ^ 31)
    (positive : 0 < size) (upperS : size < 2 ^ 31) :
    unsignedSum offset size ≤ userSize ↔ 0 ≤ offset + size ∧ offset + size ≤ userSize := by
  have limit : (userSize : Int) = 1047552 := rfl
  have limitN : userSize = 1047552 := rfl
  have sum : unsignedSum offset size = ((offset + size).bmod (2 ^ 32) % 2 ^ 64).toNat := by
    rw [unsignedSum, BitVec.toNat_ofInt, BitVec.toInt_ofInt]
    rfl
  rw [sum, Int.bmod_def]
  split
  · omega
  · omega

end Numbers

section Served
variable {region : Region} {r : Access}

theorem offset_head (r : Access) : offset r.head ≤ 160 := by
  have title : r.title.length = 4 := by
    rw [Access.title]
    split <;> rfl
  have option : (cString r.option).length < 128 :=
    lt_of_le_of_lt (List.IsPrefix.length_le (List.takeWhile_prefix _)) r.short
  have first : proAppendResponse [] (.text (r.title ++ crlf)) = [.text (r.title ++ crlf)] :=
    if_neg (by decide)
  have size : offset [Piece.text (r.title ++ crlf)] = r.title.length + 2 := by
    simp [Response.offset, replyBytes, Piece.bytes, crlf]
  have buffer : respBuffSize = 5242880 := rfl
  rw [Access.head, responseHead, first]
  split
  · rw [proAppendResponse, if_neg (by omega), offset_append, size]
    have second : offset [Piece.text (cString r.option ++ crlf ++ crlf)] =
        (cString r.option).length + 4 := by
      simp [Response.offset, replyBytes, Piece.bytes, crlf]
    omega
  · omega

theorem answer_head (r : Access) (status : Status) :
    answer r.head status = r.head ++ [.status status] := by
  have short := offset_head r
  have buffer : respBuffSize = 5242880 := rfl
  exact if_neg (by omega)

theorem statuses_answer_head (r : Access) (status : Status) :
    statuses (answer r.head status) = [status] := by
  rw [answer_head, statuses_append, Access.head, StatusLines.statuses_responseHead]
  rfl

/-- The sum of the numbers of a request is compared as it is meant. -/
theorem unsignedSum_access (positive : 0 < r.size) :
    unsignedSum r.offset r.size ≤ userSize ↔
      0 ≤ r.offset + r.size ∧ r.offset + r.size ≤ userSize := by
  obtain ⟨⟨lower, upper⟩, _, high⟩ := offsetAndSize_bounds r.options.2
  exact unsignedSum_le lower upper positive high

theorem serve_read (mapped : region.mapped = true) (accepted : r.Accepted)
    (reads : r.payload = none) :
    serve region r = ⟨region,
      proAppendBinaryResponse (answer r.head .ok) (load region.image r.offset r.size.toNat),
      some (r.offset, r.size.toNat)⟩ := by
  have positive := accepted.positive
  have inside : ¬ userSize < unsignedSum r.offset r.size :=
    not_lt.mpr ((unsignedSum_access positive).mpr ⟨accepted.nonneg, accepted.inside⟩)
  have got : fsReadBinary region r.offset r.size = (r.size, some r.offset) := by
    rw [fsReadBinary, if_neg (by rw [mapped]; decide), if_neg (by omega), if_neg inside]
  have begun := accepted.built
  rw [serve, if_neg (by omega), reads]
  dsimp only
  rw [proBinaryRead, if_neg accepted.filled]
  dsimp only [Access.offset, Access.size] at got positive ⊢
  rw [if_neg (by omega), got, if_neg (not_not.mpr rfl)]
  rfl

theorem serve_write (mapped : region.mapped = true) (accepted : r.Accepted) {payload : Bytes}
    (writes : r.payload = some payload) :
    serve region r = ⟨{ region with image := copyTo region.image r.offset payload },
      answer r.head .ok, some (r.offset, payload.length)⟩ := by
  have positive := accepted.positive
  have same := accepted.whole payload writes
  have inside : ¬ userSize < unsignedSum r.offset r.size :=
    not_lt.mpr ((unsignedSum_access positive).mpr ⟨accepted.nonneg, accepted.inside⟩)
  have put : fsWriteBinary region r.offset r.size payload =
      (r.size, { region with image := copyTo region.image r.offset payload }) := by
    rw [fsWriteBinary, if_neg (by rw [mapped]; decide), if_neg (by omega), if_neg inside,
      List.take_of_length_le (by omega)]
  have begun := accepted.built
  rw [serve, if_neg (by omega), writes]
  dsimp only
  rw [proBinaryWrite, if_neg accepted.filled]
  have sized : ¬ (r.size < 0 ∨ r.size ≠ (payload.length : Int)) := by omega
  dsimp only [Access.offset, Access.size, binaryJrp, Option.getD_some] at put positive sized ⊢
  rw [if_neg sized, put]
  exact if_neg (by omega)

theorem fsReadBinary_refused {offset size : Int}
    (h : userSize < unsignedSum offset size ∨ size ≤ 0) :
    (fsReadBinary region offset size).1 = -enomem ∨
      (fsReadBinary region offset size).1 = -einval := by
  rw [fsReadBinary]
  split
  · exact Or.inl rfl
  · split
    · exact Or.inr rfl
    · rename_i positive
      rw [if_pos (h.resolve_right positive)]
      exact Or.inr rfl

theorem fsWriteBinary_refused {offset size : Int} (data : Bytes)
    (h : userSize < unsignedSum offset size ∨ size ≤ 0) :
    (fsWriteBinary region offset size data).1 < 0 ∧
      (fsWriteBinary region offset size data).2 = region := by
  have codes : -enomem < 0 ∧ -einval < 0 := by decide
  rw [fsWriteBinary]
  split
  · exact ⟨codes.1, rfl⟩
  · split
    · exact ⟨codes.2, rfl⟩
    · rename_i positive
      rw [if_pos (h.resolve_right positive)]
      exact ⟨codes.2, rfl⟩

/-- What is not accepted is answered with `fatal` and reaches no memory. -/
theorem serve_refused (h : ¬ r.Accepted) :
    (serve region r).region = region ∧ (serve region r).touched = none ∧
      statuses (serve region r).reply = [.fatal] := by
  have fatal := statuses_answer_head r .fatal
  rw [serve]
  by_cases unbuilt : r.options.1 < 0
  · rw [if_pos unbuilt]
    refine ⟨rfl, rfl, ?_⟩
    rw [faultReply]
    split <;> rfl
  rw [if_neg unbuilt]
  have outside : r.options.2 ≠ [] →
      (∀ payload, r.payload = some payload → r.size = payload.length) →
      userSize < unsignedSum r.offset r.size ∨ r.size ≤ 0 := by
    intro filled whole
    by_contra fits
    obtain ⟨below, positive⟩ := not_or.mp fits
    obtain ⟨nonneg, inside⟩ := (unsignedSum_access (not_le.mp positive)).mp (not_lt.mp below)
    exact h ⟨not_lt.mp unbuilt, filled, not_le.mp positive, nonneg, inside, whole⟩
  cases kind : r.payload with
  | none =>
    dsimp only
    rw [proBinaryRead]
    split
    · exact ⟨rfl, rfl, fatal⟩
    · rename_i filled
      have refused := @fsReadBinary_refused region _ _ (outside filled (by simp [kind]))
      dsimp only [Access.offset, Access.size] at refused ⊢
      split
      · exact ⟨rfl, rfl, fatal⟩
      · rename_i nonneg
        have numbers : enomem = 12 ∧ einval = 22 := ⟨rfl, rfl⟩
        rw [if_pos (by omega)]
        exact ⟨rfl, rfl, fatal⟩
  | some payload =>
    dsimp only
    rw [proBinaryWrite]
    split
    · exact ⟨rfl, rfl, fatal⟩
    · rename_i filled
      dsimp only [binaryJrp, Option.getD_some]
      split
      · exact ⟨rfl, rfl, fatal⟩
      · rename_i sized
        have whole : ∀ data, r.payload = some data → r.size = data.length := by
          intro data same
          obtain rfl := Option.some.inj (kind.symm.trans same)
          exact not_not.mp (not_or.mp sized).2
        obtain ⟨negative, kept⟩ := @fsWriteBinary_refused region _ _ payload
          (outside filled whole)
        dsimp only [Access.offset, Access.size] at negative kept
        rw [if_pos negative, kept]
        exact ⟨rfl, rfl, fatal⟩

end Served

section Runs

/-- The region with its history: the bytes found at the start, and the byte that an
accepted write put last at an address. -/
structure Account where
  region : Region
  found : Image
  last : Int → Option UInt8

def begin (image : Image) : Account := ⟨⟨true, image⟩, image, fun _ => none⟩

/-- The response says `ok`. -/
def Ok (served : Served) : Prop := .ok ∈ statuses served.reply

instance (served : Served) : Decidable (Ok served) := inferInstanceAs (Decidable (_ ∈ _))

def Account.next (s : Account) (r : Access) : Account :=
  let served := serve s.region r
  let written := match r.payload with
    | none => s.last
    | some payload => fun address =>
      if Ok served ∧ Covers r.offset payload.length address then
        some (payload.getD (address - r.offset).toNat 0)
      else s.last address
  ⟨served.region, s.found, written⟩

def step (s : Account) (r : Access) : Option Account := some (s.next r)

def UserArea (address : Int) : Prop := 0 ≤ address ∧ address < userSize

/-- What is promised of one request. -/
structure Safe (s : Account) (r : Access) : Prop where
  inside : Ok (serve s.region r) → ∃ start count, (serve s.region r).touched = some (start, count) ∧
    ∀ address, Covers start count address → UserArea address
  read : Ok (serve s.region r) → r.payload = none → ∃ data : Bytes,
    (serve s.region r).reply = r.head ++ [.status .ok, .binary data] ∧
      (data.length : Int) = r.size ∧
      ∀ (i : Nat) (h : i < data.length),
        data[i] = (s.last (r.offset + i)).getD (s.found (r.offset + i))
  kept : ∀ address, ¬ UserArea address → (s.next r).region.image address = s.found address
  written : ∀ address, (s.next r).region.image address =
    ((s.next r).last address).getD (s.found address)

/-- The request reaches behind its first byte from in front of the user area. -/
def ReachesBack (r : Access) : Prop := r.Accepted ∧ r.offset < 0

/-- Memory is what was found, but for the last bytes written to the user area. -/
structure Tracked (s : Account) : Prop where
  mapped : s.region.mapped = true
  image : ∀ address, s.region.image address = (s.last address).getD (s.found address)
  outside : ∀ address, ¬ UserArea address → s.last address = none

theorem tracked_begin (image : Image) : Tracked (begin image) :=
  ⟨rfl, fun _ => rfl, fun _ _ => rfl⟩

section Step
variable {s : Account} {r : Access} (tracked : Tracked s)

include tracked in
theorem ok_iff : Ok (serve s.region r) ↔ r.Accepted := by
  constructor
  · intro ok
    by_contra refused
    rw [Ok, (serve_refused refused).2.2] at ok
    exact absurd ok (by decide)
  · intro accepted
    have status := statuses_answer_head r .ok
    cases kind : r.payload with
    | none =>
      rw [Ok, serve_read tracked.mapped accepted kind, proAppendBinaryResponse]
      split
      · rw [status]
        exact List.mem_singleton_self _
      · rw [statuses_append, status]
        exact List.mem_cons_self
    | some payload =>
      rw [Ok, serve_write tracked.mapped accepted kind, status]
      exact List.mem_singleton_self _

include tracked in
/-- One request that does not reach back keeps its promise, and the history stays true. -/
theorem safe_of_not_reachesBack (h : ¬ ReachesBack r) : Safe s r ∧ Tracked (s.next r) := by
  have answered := ok_iff tracked (r := r)
  by_cases accepted : r.Accepted
  · have forward : 0 ≤ r.offset := not_lt.mp fun negative => h ⟨accepted, negative⟩
    have positive := accepted.positive
    have inside := accepted.inside
    have ok := answered.mpr accepted
    cases kind : r.payload with
    | none =>
      have served := serve_read tracked.mapped accepted kind
      have same : s.next r = s := by
        rw [Account.next, served, kind]
      refine ⟨⟨fun _ => ⟨_, _, by rw [served], ?_⟩, fun _ _ => ?_, ?_, ?_⟩, by rwa [same]⟩
      · rintro address ⟨lower, upper⟩
        exact ⟨by omega, by omega⟩
      · have area : userSize = 1047552 := rfl
        have buffer : respBuffSize = 5242880 := rfl
        have length := length_load s.region.image r.offset r.size.toNat
        refine ⟨load s.region.image r.offset r.size.toNat, ?_, by omega, fun i inRange => ?_⟩
        · have room : ¬ (load s.region.image r.offset r.size.toNat = [] ∨
              respBuffSize ≤ offset (answer r.head .ok) +
                (load s.region.image r.offset r.size.toNat).length) := by
            have short := offset_head r
            have status : offset [Piece.status .ok] = 4 := by decide
            rw [answer_head, offset_append, length, ← List.length_eq_zero_iff, length]
            omega
          rw [served, proAppendBinaryResponse, if_neg room, answer_head, List.append_assoc]
          rfl
        · rw [getElem_load, tracked.image]
      · intro address outside
        rw [same, tracked.image, tracked.outside address outside]
        rfl
      · rw [same]
        exact tracked.image
    | some payload =>
      have served := serve_write tracked.mapped accepted kind
      have whole := accepted.whole payload kind
      have range : ∀ address, Covers r.offset payload.length address → UserArea address := by
        rintro address ⟨lower, upper⟩
        exact ⟨by omega, by omega⟩
      have image : (s.next r).region.image = copyTo s.region.image r.offset payload := by
        rw [Account.next, served]
      have last : ∀ address, (s.next r).last address =
          if Covers r.offset payload.length address then
            some (payload.getD (address - r.offset).toNat 0) else s.last address := by
        intro address
        simp only [Account.next, kind, ok, true_and]
      have stored : ∀ address,
          (s.next r).region.image address = ((s.next r).last address).getD (s.found address) := by
        intro address
        rw [image, last]
        by_cases covered : Covers r.offset payload.length address
        · rw [if_pos covered]
          exact if_pos covered
        · rw [if_neg covered, copyTo_outside covered, tracked.image]
      have untouched : ∀ address, ¬ UserArea address → (s.next r).last address = none := by
        intro address outside
        rw [last, if_neg fun covered => outside (range address covered),
          tracked.outside address outside]
      refine ⟨⟨fun _ => ⟨_, _, by rw [served], range⟩, fun _ reads => ?_, ?_, stored⟩, ?_⟩
      · rw [kind] at reads
        cases reads
      · intro address outside
        rw [stored, untouched address outside]
        rfl
      · refine ⟨?_, stored, untouched⟩
        rw [Account.next, served]
        exact tracked.mapped
  · obtain ⟨region, -, -⟩ := @serve_refused s.region _ accepted
    have refused : ¬ Ok (serve s.region r) := fun ok => accepted (answered.mp ok)
    have same : s.next r = s := by
      rw [Account.next, region]
      cases r.payload with
      | none => rfl
      | some payload =>
        simp only [refused, false_and, if_false]
    refine ⟨⟨fun ok => absurd ok refused, fun ok _ => absurd ok refused, ?_, ?_⟩, by rwa [same]⟩
    · intro address outside
      rw [same, tracked.image, tracked.outside address outside]
      rfl
    · rw [same]
      exact tracked.image

include tracked in
theorem not_safe_of_reachesBack (h : ReachesBack r) : ¬ Safe s r := by
  obtain ⟨accepted, negative⟩ := h
  intro safe
  obtain ⟨start, count, touched, inside⟩ := safe.inside ((ok_iff tracked).mpr accepted)
  have positive := accepted.positive
  have range : start = r.offset ∧ (count : Int) = r.size := by
    cases kind : r.payload with
    | none =>
      rw [serve_read tracked.mapped accepted kind] at touched
      obtain ⟨rfl, rfl⟩ := Prod.mk.inj (Option.some.inj touched)
      exact ⟨rfl, by omega⟩
    | some payload =>
      rw [serve_write tracked.mapped accepted kind] at touched
      obtain ⟨rfl, rfl⟩ := Prod.mk.inj (Option.some.inj touched)
      exact ⟨rfl, (accepted.whole payload kind).symm⟩
  obtain ⟨lower, -⟩ := inside start ⟨le_refl _, by omega⟩
  omega

end Step

/-- A run over the region is safe exactly when no request of it reaches the user area
from in front of it. -/
theorem safe_iff (image : Image) (run : List Access) :
    Transition.Along step Safe (begin image) run ↔ ∀ r ∈ run, ¬ ReachesBack r := by
  have every : ∀ (run : List Access) (s : Account), Tracked s →
      (Transition.Along step Safe s run ↔ ∀ r ∈ run, ¬ ReachesBack r) := by
    intro run
    induction run with
    | nil => simp [Transition.Along]
    | cons r rest ih =>
      intro s tracked
      rw [List.forall_mem_cons]
      constructor
      · intro along
        have here : ¬ ReachesBack r := fun back => not_safe_of_reachesBack tracked back along.1
        obtain ⟨-, next⟩ := safe_of_not_reachesBack tracked here
        exact ⟨here, (ih _ next).mp (along.2 _ rfl)⟩
      · rintro ⟨here, later⟩
        obtain ⟨safe, next⟩ := safe_of_not_reachesBack tracked here
        exact Transition.along_cons safe rfl ((ih _ next).mpr later)
  exact every run _ (tracked_begin image)

/-- `offset=-2`, `size=2`. -/
def lastHeaderBytes : Access where
  option := ofChars ['o', 'f', 'f', 's', 'e', 't', '=', '-', '2'] ++ crlf ++
    ofChars ['s', 'i', 'z', 'e', '=', '2']
  short := by decide
  payload := some (ofChars ['n', 'o'])

theorem not_safe_lastHeaderBytes :
    ¬ Transition.Along step Safe (begin fun _ => 0) [lastHeaderBytes] := by
  have numbers : lastHeaderBytes.options.1 = 2 ∧ lastHeaderBytes.options.2 ≠ [] ∧
      lastHeaderBytes.offset = -2 ∧ lastHeaderBytes.size = 2 := by decide +kernel
  obtain ⟨built, filled, offset, size⟩ := numbers
  have area : userSize = 1047552 := rfl
  have accepted : lastHeaderBytes.Accepted := by
    refine ⟨by omega, filled, by omega, by omega, by omega, fun payload same => ?_⟩
    obtain rfl := Option.some.inj same
    exact size
  exact fun along => not_safe_of_reachesBack (tracked_begin _) ⟨accepted, by omega⟩ along.1

end Runs

end BinaryRegion
