import Cfgd.ByteImage
import Cfgd.CText
import Cfgd.Transition

/-!
# The byte ring of `cfifo.c`

The counters `in` and `out` run on modulo 2^32 and are masked into the buffer. What lies
between them, read around the end of the buffer, is a queue of bounded length.
-/

namespace RingBuffer

open ByteImage CText Transition

section Source

/-- `struct ckfifo`; addresses are relative to `buffer`. -/
structure Ckfifo where
  buffer : Image
  size : UInt32
  inPos : UInt32
  outPos : UInt32

/-- `_ckfifo_len`. -/
def Ckfifo.len (ring : Ckfifo) : UInt32 := ring.inPos - ring.outPos

/-- `_ckfifo_get`, with what it leaves in the caller's buffer. -/
def Ckfifo.get (ring : Ckfifo) (size : UInt32) : Ckfifo × UInt32 × Bytes :=
  let n := min size (ring.inPos - ring.outPos)
  let start := ring.outPos &&& (ring.size - 1)
  let len := min n (ring.size - start)
  ({ ring with outPos := ring.outPos + n }, n,
    load ring.buffer start.toNat len.toNat ++ load ring.buffer 0 (n - len).toNat)

/-- `_ckfifo_put`, from the caller's buffer. -/
def Ckfifo.put (ring : Ckfifo) (data : Bytes) (size : UInt32) : Ckfifo × UInt32 :=
  let n := min size (ring.size - ring.inPos + ring.outPos)
  let start := ring.inPos &&& (ring.size - 1)
  let len := min n (ring.size - start)
  let first := copyTo ring.buffer start.toNat (data.take len.toNat)
  let buffer := copyTo first 0 ((data.drop len.toNat).take (n - len).toNat)
  ({ ring with buffer := buffer, inPos := ring.inPos + n }, n)

/-- `ckfifo_len`. -/
def ckfifoLen (ring : Ckfifo) : UInt32 := ring.len

/-- `ckfifo_get`. -/
def ckfifoGet (ring : Ckfifo) (size : UInt32) : Ckfifo × UInt32 × Bytes :=
  let (ring, n, bytes) := ring.get size
  (if ring.inPos = ring.outPos then { ring with inPos := 0, outPos := 0 } else ring, n, bytes)

/-- `ckfifo_put`. -/
def ckfifoPut (ring : Ckfifo) (data : Bytes) (size : UInt32) : Ckfifo × UInt32 :=
  ring.put data size

/-- A call, with a caller's buffer of the given size. -/
inductive Call
  | put (data : Bytes) (fits : data.length < 2 ^ 32)
  | get (size : UInt32)
  | len

/-- What a call returns, with the bytes that it hands out. -/
structure Reply where
  result : Nat
  bytes : Bytes
  deriving DecidableEq

def Ckfifo.perform (ring : Ckfifo) : Call → Ckfifo × Reply
  | .put data _ =>
    let (ring, n) := ckfifoPut ring data (UInt32.ofNat data.length)
    (ring, ⟨n.toNat, []⟩)
  | .get size =>
    let (ring, n, bytes) := ckfifoGet ring size
    (ring, ⟨n.toNat, bytes⟩)
  | .len => (ring, ⟨(ckfifoLen ring).toNat, []⟩)

end Source

section Queue

/-- A queue of bytes with room for `capacity` of them. -/
def serve (capacity : Nat) (queue : Bytes) : Call → Bytes × Reply
  | .put data _ =>
    let taken := data.take (capacity - queue.length)
    (queue ++ taken, ⟨taken.length, []⟩)
  | .get size =>
    let oldest := queue.take size.toNat
    (queue.drop size.toNat, ⟨oldest.length, oldest⟩)
  | .len => (queue, ⟨queue.length, []⟩)

end Queue

section Positions
variable {image : Image} {size start count : Nat} {data : Bytes}

/-- The bytes from a position on, around the end of a buffer. -/
def loadRing (image : Image) (size start count : Nat) : Bytes :=
  (List.range count).map fun i => image ((start + i) % size : Nat)

@[simp] theorem length_loadRing : (loadRing image size start count).length = count := by
  rw [loadRing, List.length_map, List.length_range]

theorem getElem_loadRing {i : Nat} (h : i < (loadRing image size start count).length) :
    (loadRing image size start count)[i] = image ((start + i) % size : Nat) := by
  simp only [loadRing, List.getElem_map, List.getElem_range]

theorem loadRing_congr {start' : Nat} (same : start % size = start' % size) :
    loadRing image size start count = loadRing image size start' count := by
  refine List.map_congr_left fun i _ => ?_
  rw [Nat.add_mod, same, ← Nat.add_mod]

theorem take_loadRing (n : Nat) : (loadRing image size start count).take n =
    loadRing image size start (min n count) := by
  rw [loadRing, ← List.map_take, List.take_range, loadRing]

theorem drop_loadRing (n : Nat) : (loadRing image size start count).drop n =
    loadRing image size (start + n) (count - n) := by
  refine List.ext_getElem (by simp) fun i h h' => ?_
  rw [List.getElem_drop, getElem_loadRing, getElem_loadRing, Nat.add_assoc]

/-- Where a position is that is no more than one round further. -/
theorem wrapped (inside : start < size) {i : Nat} (round : i < size) :
    (start + i) % size = if start + i < size then start + i else start + i - size := by
  split
  · exact Nat.mod_eq_of_lt ‹_›
  · rw [Nat.mod_eq_sub_mod (by omega), Nat.mod_eq_of_lt (by omega)]

/-- Two copies take out what lies around the end. -/
theorem load_around (inside : start < size) (fits : count ≤ size) :
    load image start (min count (size - start)) ++
      load image 0 (count - min count (size - start)) = loadRing image size start count := by
  refine List.ext_getElem (by simp) fun i h h' => ?_
  rw [length_loadRing] at h'
  rw [getElem_loadRing, wrapped inside (by omega), List.getElem_append]
  simp only [length_load, getElem_load]
  split
  · rw [if_pos (by omega)]
    congr 1
  · rw [if_neg (by omega)]
    congr 1
    omega

/-- Two copies put data around the end, and leave the positions behind it. -/
theorem copy_around (inside : start < size) (fits : data.length ≤ size) {i : Nat}
    (round : i < size) :
    copyTo (copyTo image start (data.take (min data.length (size - start)))) 0
      (data.drop (min data.length (size - start))) ((start + i) % size : Nat) =
      if h : i < data.length then data[i] else image ((start + i) % size : Nat) := by
  have first : (data.take (min data.length (size - start))).length =
      min data.length (size - start) := by
    rw [List.length_take]
    omega
  have second : (data.drop (min data.length (size - start))).length =
      data.length - min data.length (size - start) := List.length_drop
  rw [wrapped inside round]
  split
  · rename_i ahead
    rw [copyTo_outside (by rw [second, Covers]; omega)]
    split
    · rename_i written
      rw [copyTo_at (by omega) (i := i) (by omega), List.getElem_take]
    · exact copyTo_outside (by rw [first, Covers]; omega)
  · rename_i behind
    split
    · rename_i written
      rw [copyTo_at (i := i - (size - start)) (by omega) (by omega), List.getElem_drop]
      congr 1
      omega
    · rw [copyTo_outside (by rw [second, Covers]; omega),
        copyTo_outside (by rw [first, Covers]; omega)]

end Positions

section Rings
variable {ring : Ckfifo} {k : Nat} {x y size : UInt32} {data : Bytes}

/-- The size is a power of two, and no more is between the counters than fits. -/
structure Sound (ring : Ckfifo) : Prop where
  power : ∃ k ≤ 31, ring.size.toNat = 2 ^ k
  used : ring.inPos - ring.outPos ≤ ring.size

/-- The queue that a ring holds. -/
def contents (ring : Ckfifo) : Bytes :=
  loadRing ring.buffer ring.size.toNat ring.outPos.toNat ring.len.toNat

theorem toNat_min : (min x y).toNat = min x.toNat y.toNat := by
  have unfolded : min x y = if x ≤ y then x else y := rfl
  rw [unfolded]
  split
  · rename_i le
    exact (Nat.min_eq_left (UInt32.le_iff_toNat_le.mp le)).symm
  · rename_i notLe
    exact (Nat.min_eq_right (Nat.le_of_not_le fun le => notLe (UInt32.le_iff_toNat_le.mpr le))).symm

theorem toNat_sub (le : y ≤ x) : (x - y).toNat = x.toNat - y.toNat := by
  have bound := UInt32.le_iff_toNat_le.mp le
  have small := x.toNat_lt
  rw [UInt32.toNat_sub]
  omega

variable (sound : Sound ring)
include sound

theorem Sound.positive : 0 < ring.size.toNat := by
  obtain ⟨k, _, power⟩ := sound.power
  rw [power]
  exact Nat.two_pow_pos k

/-- The mask takes a counter to a position in the buffer. -/
theorem Sound.mask (x : UInt32) : (x &&& (ring.size - 1)).toNat = x.toNat % ring.size.toNat := by
  obtain ⟨k, _, power⟩ := sound.power
  have one : (1 : UInt32) ≤ ring.size := by
    rw [UInt32.le_iff_toNat_le]
    exact sound.positive
  rw [UInt32.toNat_and, toNat_sub one, power]
  exact Nat.and_two_pow_sub_one_eq_mod _ _

/-- A counter that runs over 2^32 stays at its position. -/
theorem Sound.advance (x y : UInt32) :
    (x + y).toNat % ring.size.toNat = (x.toNat + y.toNat) % ring.size.toNat := by
  obtain ⟨k, small, power⟩ := sound.power
  rw [UInt32.toNat_add, power]
  exact Nat.mod_mod_of_dvd _ (Nat.pow_dvd_pow 2 (by omega))

theorem Sound.filled : ring.len.toNat ≤ ring.size.toNat := UInt32.le_iff_toNat_le.mp sound.used

theorem Sound.inPos : ring.inPos.toNat % ring.size.toNat =
    (ring.outPos.toNat + ring.len.toNat) % ring.size.toNat := by
  rw [← sound.advance, Ckfifo.len, UInt32.add_comm, UInt32.sub_add_cancel]

/-- What is left of the size. -/
theorem Sound.room : (ring.size - ring.inPos + ring.outPos).toNat =
    ring.size.toNat - ring.len.toNat := by
  have same : ring.size - ring.inPos + ring.outPos = ring.size - ring.len := by
    rw [Ckfifo.len]
    grind
  rw [same]
  exact toNat_sub sound.used

/-- The counters of a copy of `n` bytes from the position of `x` on. -/
theorem Sound.parts (x n : UInt32) :
    (min n (ring.size - (x &&& (ring.size - 1)))).toNat =
      min n.toNat (ring.size.toNat - x.toNat % ring.size.toNat) ∧
    (n - min n (ring.size - (x &&& (ring.size - 1)))).toNat =
      n.toNat - min n.toNat (ring.size.toNat - x.toNat % ring.size.toNat) := by
  have below : x &&& (ring.size - 1) ≤ ring.size := by
    rw [UInt32.le_iff_toNat_le, sound.mask]
    exact Nat.le_of_lt (Nat.mod_lt _ sound.positive)
  have first : (min n (ring.size - (x &&& (ring.size - 1)))).toNat =
      min n.toNat (ring.size.toNat - x.toNat % ring.size.toNat) := by
    rw [toNat_min, toNat_sub below, sound.mask]
  refine ⟨first, ?_⟩
  rw [toNat_sub, first]
  rw [UInt32.le_iff_toNat_le, first]
  exact Nat.min_le_left ..

omit sound in
theorem length_contents : (contents ring).length = ring.len.toNat := length_loadRing

/-- `_ckfifo_get` takes the oldest bytes. -/
theorem Sound.get (size : UInt32) : let after := ring.get size
    Sound after.1 ∧ after.1.size = ring.size ∧
      contents after.1 = (contents ring).drop size.toNat ∧
      after.2.1.toNat = ((contents ring).take size.toNat).length ∧
      after.2.2 = (contents ring).take size.toNat := by
  intro after
  have count : after.2.1.toNat = min size.toNat ring.len.toNat := toNat_min
  have fewer : after.2.1 ≤ ring.len := by
    rw [UInt32.le_iff_toNat_le, count]
    exact Nat.min_le_right ..
  have left : after.1.len = ring.len - after.2.1 := by
    change ring.inPos - (ring.outPos + after.2.1) = ring.inPos - ring.outPos - after.2.1
    grind
  have filled := sound.filled
  refine ⟨⟨sound.power, ?_⟩, rfl, ?_, ?_, ?_⟩
  · change after.1.len ≤ ring.size
    rw [left, UInt32.le_iff_toNat_le, toNat_sub fewer]
    omega
  · have next : loadRing ring.buffer ring.size.toNat (ring.outPos + after.2.1).toNat
        (ring.len.toNat - after.2.1.toNat) = loadRing ring.buffer ring.size.toNat
        (ring.outPos.toNat + after.2.1.toNat) (ring.len.toNat - after.2.1.toNat) :=
      loadRing_congr (by rw [sound.advance])
    change loadRing ring.buffer ring.size.toNat (ring.outPos + after.2.1).toNat after.1.len.toNat =
      (contents ring).drop size.toNat
    rw [left, toNat_sub fewer, next, ← drop_loadRing, count]
    rcases Nat.le_total size.toNat ring.len.toNat with le | ge
    · rw [Nat.min_eq_left le, contents]
    · rw [Nat.min_eq_right ge, List.drop_of_length_le (by rw [length_loadRing]),
        List.drop_of_length_le (by rw [length_contents]; exact ge)]
  · rw [count, List.length_take, length_contents]
  · obtain ⟨first, second⟩ := sound.parts ring.outPos after.2.1
    change load ring.buffer (ring.outPos &&& (ring.size - 1)).toNat
        (min after.2.1 (ring.size - (ring.outPos &&& (ring.size - 1)))).toNat ++
      load ring.buffer 0 (after.2.1 -
        min after.2.1 (ring.size - (ring.outPos &&& (ring.size - 1)))).toNat = _
    rw [first, second, sound.mask, load_around (Nat.mod_lt _ sound.positive) (by omega), contents,
      take_loadRing, count]
    exact loadRing_congr (Nat.mod_mod ..)

/-- Where the bytes of a call go. -/
theorem Sound.buffer_put (data : Bytes) (size : UInt32) : let after := ring.put data size
    after.1.buffer = copyTo (copyTo ring.buffer (ring.inPos.toNat % ring.size.toNat : Nat)
        (data.take (min after.2.toNat (ring.size.toNat - ring.inPos.toNat % ring.size.toNat)))) 0
      ((data.drop (min after.2.toNat
        (ring.size.toNat - ring.inPos.toNat % ring.size.toNat))).take (after.2.toNat -
          min after.2.toNat (ring.size.toNat - ring.inPos.toNat % ring.size.toNat))) := by
  intro after
  obtain ⟨first, second⟩ := sound.parts ring.inPos after.2
  rw [← second, ← first, ← sound.mask]
  rfl

/-- `_ckfifo_put` appends what there is room for. -/
theorem Sound.put (fits : data.length < 2 ^ 32) :
    let after := ring.put data (UInt32.ofNat data.length)
    let taken := data.take (ring.size.toNat - ring.len.toNat)
    Sound after.1 ∧ after.1.size = ring.size ∧ contents after.1 = contents ring ++ taken ∧
      after.2.toNat = taken.length := by
  intro after taken
  have filled := sound.filled
  have size : (UInt32.ofNat data.length).toNat = data.length := UInt32.toNat_ofNat_of_lt' fits
  have count : after.2.toNat = taken.length := by
    change (min (UInt32.ofNat data.length) (ring.size - ring.inPos + ring.outPos)).toNat = _
    rw [toNat_min, size, sound.room, List.length_take, Nat.min_comm]
  have bound : taken.length ≤ ring.size.toNat - ring.len.toNat := List.length_take_le ..
  have grown : after.1.len = ring.len + after.2 := by
    change ring.inPos + after.2 - ring.outPos = ring.inPos - ring.outPos + after.2
    grind
  have length : after.1.len.toNat = ring.len.toNat + taken.length := by
    have small := ring.size.toNat_lt
    rw [grown, UInt32.toNat_add, count]
    omega
  refine ⟨⟨sound.power, ?_⟩, rfl, ?_, count⟩
  · change after.1.len ≤ ring.size
    rw [UInt32.le_iff_toNat_le, length]
    omega
  · have start : ring.inPos.toNat % ring.size.toNat < ring.size.toNat :=
      Nat.mod_lt _ sound.positive
    have written : ∀ i < ring.size.toNat,
        after.1.buffer ((ring.inPos.toNat % ring.size.toNat + i) % ring.size.toNat : Nat) =
          if h : i < taken.length then taken[i]
          else ring.buffer ((ring.inPos.toNat % ring.size.toNat + i) % ring.size.toNat : Nat) := by
      intro i round
      have head : taken.take (min taken.length
          (ring.size.toNat - ring.inPos.toNat % ring.size.toNat)) = data.take (min taken.length
          (ring.size.toNat - ring.inPos.toNat % ring.size.toNat)) := by
        rw [List.take_take, Nat.min_eq_left]
        omega
      have tail : taken.drop (min taken.length
          (ring.size.toNat - ring.inPos.toNat % ring.size.toNat)) = (data.drop (min taken.length
          (ring.size.toNat - ring.inPos.toNat % ring.size.toNat))).take (taken.length -
          min taken.length (ring.size.toNat - ring.inPos.toNat % ring.size.toNat)) := by
        rw [List.drop_take]
        refine List.take_eq_take_iff.mpr ?_
        rw [List.length_drop, List.length_take]
        omega
      rw [← copy_around start (by omega) round, head, tail, ← count]
      exact congrFun (sound.buffer_put data _) _
    refine List.ext_getElem ?_ fun i h h' => ?_
    · rw [List.length_append, length_contents, length_contents, length]
    · rw [length_contents, length] at h
      have place : ∀ j, (ring.outPos.toNat + (ring.len.toNat + j)) % ring.size.toNat =
          (ring.inPos.toNat % ring.size.toNat + j) % ring.size.toNat := by
        intro j
        rw [← Nat.add_assoc, Nat.add_mod, ← sound.inPos, ← Nat.add_mod, Nat.mod_add_mod]
      have at_ : (contents after.1)[i] =
          after.1.buffer ((ring.outPos.toNat + i) % ring.size.toNat : Nat) :=
        getElem_loadRing _
      rw [at_, List.getElem_append]
      simp only [length_contents]
      split
      · rename_i old
        -- the old bytes are one round behind the positions that are not written
        have round : (ring.outPos.toNat + i) % ring.size.toNat = (ring.inPos.toNat %
            ring.size.toNat + (ring.size.toNat - ring.len.toNat + i)) % ring.size.toNat := by
          rw [← place, ← Nat.add_mod_right]
          congr 1
          omega
        have inside : i < (contents ring).length := by rwa [length_contents]
        have kept : (contents ring)[i] =
            ring.buffer ((ring.outPos.toNat + i) % ring.size.toNat : Nat) := getElem_loadRing _
        rw [kept, round, written _ (by omega), dif_neg (by omega)]
      · rename_i new
        have behind : ring.outPos.toNat + i =
            ring.outPos.toNat + (ring.len.toNat + (i - ring.len.toNat)) := by omega
        rw [behind, place, written _ (by omega), dif_pos (by omega)]

/-- `ckfifo_get`, which starts again at the front of an empty ring. -/
theorem Sound.ckfifoGet (size : UInt32) : let after := ckfifoGet ring size
    Sound after.1 ∧ after.1.size = ring.size ∧
      contents after.1 = (contents ring).drop size.toNat ∧
      after.2.1.toNat = ((contents ring).take size.toNat).length ∧
      after.2.2 = (contents ring).take size.toNat := by
  obtain ⟨inner, same, left, count, bytes⟩ := sound.get size
  refine ⟨?_, ?_, ?_, count, bytes⟩
  · dsimp only [RingBuffer.ckfifoGet]
    split
    · refine ⟨inner.power, ?_⟩
      change (0 : UInt32) - 0 ≤ _
      rw [UInt32.le_iff_toNat_le]
      exact Nat.zero_le _
    · exact inner
  · dsimp only [RingBuffer.ckfifoGet]
    split
    · exact same
    · exact same
  · rw [← left]
    dsimp only [RingBuffer.ckfifoGet]
    split
    · rename_i empty
      have none : (ring.get size).1.len = 0 := by
        rw [Ckfifo.len, empty, UInt32.sub_self]
      have cleared : ∀ ring : Ckfifo, ring.len = 0 → contents ring = [] := by
        intro ring none
        rw [contents, none]
        rfl
      rw [cleared _ none]
      exact cleared _ (UInt32.sub_self 0)
    · rfl

end Rings

section Law
variable {ring : Ckfifo}

/-- The ring holds the queue. -/
structure Queues (capacity : Nat) (ring : Ckfifo) (queue : Bytes) : Prop where
  sound : Sound ring
  size : ring.size.toNat = capacity
  contents : RingBuffer.contents ring = queue

theorem queues_perform {capacity : Nat} {queue : Bytes} (h : Queues capacity ring queue)
    (call : Call) : Queues capacity (ring.perform call).1 (serve capacity queue call).1 ∧
      (ring.perform call).2 = (serve capacity queue call).2 := by
  obtain ⟨sound, rfl, rfl⟩ := h
  cases call with
  | put data fits =>
    obtain ⟨after, same, grown, count⟩ := sound.put fits
    have room : ring.size.toNat - (contents ring).length = ring.size.toNat - ring.len.toNat := by
      rw [length_contents]
    refine ⟨⟨after, congrArg UInt32.toNat same, ?_⟩, ?_⟩
    · rw [serve, room]
      exact grown
    · rw [serve, room]
      exact congrArg (Reply.mk · []) count
  | get size =>
    obtain ⟨after, same, left, count, bytes⟩ := sound.ckfifoGet size
    refine ⟨⟨after, congrArg UInt32.toNat same, left⟩, ?_⟩
    change Reply.mk (ckfifoGet ring size).2.1.toNat (ckfifoGet ring size).2.2 = Reply.mk _ _
    rw [count, bytes]
  | len =>
    refine ⟨⟨sound, rfl, rfl⟩, ?_⟩
    change Reply.mk ring.len.toNat [] = Reply.mk (contents ring).length []
    rw [length_contents]

/-- A ring of any size that is a power of two is a bounded queue, wherever its counters
are. -/
theorem ring_is_queue (sound : Sound ring) (calls : List Call) :
    (answers Ckfifo.perform ring calls).2 =
      (answers (serve ring.size.toNat) (contents ring) calls).2 ∧
    contents (answers Ckfifo.perform ring calls).1 =
      (answers (serve ring.size.toNat) (contents ring) calls).1 := by
  have start : Queues ring.size.toNat ring (contents ring) := ⟨sound, rfl, rfl⟩
  have simulates (one : Ckfifo) (queue : Bytes) (call : Call)
      (h : Queues ring.size.toNat one queue) := queues_perform h call
  obtain ⟨last, same⟩ := answers_of_simulates simulates start calls
  exact ⟨same, last.contents⟩

/-- A ring of four bytes with two in it, just before the counters wrap. -/
def wrappingRing : Ckfifo := ⟨fun address => address.toNat.toUInt8, 4, 1, 4294967295⟩

theorem ring_is_queue_wrapping :
    (answers Ckfifo.perform wrappingRing [.put [7, 8, 9] (by decide), .get 3, .len]).2 =
      (answers (serve 4) [3, 0] [.put [7, 8, 9] (by decide), .get 3, .len]).2 ∧
    contents (answers Ckfifo.perform wrappingRing
      [.put [7, 8, 9] (by decide), .get 3, .len]).1 =
      (answers (serve 4) [3, 0] [.put [7, 8, 9] (by decide), .get 3, .len]).1 :=
  ring_is_queue ⟨⟨2, by decide, by decide⟩, by decide⟩ _

end Law

end RingBuffer
