import Mathlib.Data.List.Basic
import Mathlib.Tactic.Ring

/-!
# Memory as a map from addresses to bytes

Addresses are integers, relative to some base, so that what lies in front of the base is
there as well. A copy changes the bytes of its range and no others.
-/

namespace ByteImage

abbrev Image := Int → UInt8

/-- `memcpy`. -/
def copyTo (image : Image) (start : Int) (data : List UInt8) : Image := fun address =>
  if start ≤ address ∧ address < start + data.length then data.getD (address - start).toNat 0
  else image address

/-- The bytes of a range. -/
def load (image : Image) (start : Int) (count : Nat) : List UInt8 :=
  (List.range count).map fun (i : Nat) => image (start + i)

/-- The address lies in the range of that length. -/
def Covers (start : Int) (count : Nat) (address : Int) : Prop :=
  start ≤ address ∧ address < start + count

instance (start : Int) (count : Nat) (address : Int) : Decidable (Covers start count address) :=
  inferInstanceAs (Decidable (_ ∧ _))

variable {image : Image} {start address : Int} {data : List UInt8}

theorem copyTo_outside (h : ¬ Covers start data.length address) :
    copyTo image start data address = image address := if_neg h

theorem copyTo_inside {i : Nat} (h : i < data.length) :
    copyTo image start data (start + i) = data[i] := by
  have inside : start ≤ start + (i : Int) ∧ start + (i : Int) < start + data.length := by omega
  have place : (start + (i : Int) - start).toNat = i := by omega
  rw [copyTo, if_pos inside, place, List.getD_eq_getElem?_getD, List.getElem?_eq_getElem h]
  rfl

theorem copyTo_at {i : Nat} (h : i < data.length) (place : address = start + i) :
    copyTo image start data address = data[i] := by
  rw [place, copyTo_inside h]

/-- A range holds a list when each of its bytes does. -/
theorem load_eq_iff {count : Nat} (size : data.length = count) :
    load image start count = data ↔ ∀ (i : Nat) (h : i < data.length),
      image (start + i) = data[i] := by
  constructor
  · rintro rfl i h
    simp only [load, List.getElem_map, List.getElem_range]
  · intro bytes
    refine List.ext_getElem (by rw [load, List.length_map, List.length_range, size]) fun i _ h => ?_
    rw [← bytes i h]
    simp only [load, List.getElem_map, List.getElem_range]

@[simp] theorem length_load (image : Image) (start : Int) (count : Nat) :
    (load image start count).length = count := by
  rw [load, List.length_map, List.length_range]

theorem getElem_load {count i : Nat} (h : i < (load image start count).length) :
    (load image start count)[i] = image (start + i) := by
  simp only [load, List.getElem_map, List.getElem_range]

/-- A range depends on its bytes only. -/
theorem load_congr {image' : Image} {count : Nat}
    (same : ∀ address, Covers start count address → image address = image' address) :
    load image start count = load image' start count := by
  refine List.map_congr_left fun i mem => same _ ?_
  have bound := List.mem_range.mp mem
  constructor
  · omega
  · omega

theorem load_copyTo (image : Image) (start : Int) (data : List UInt8) :
    load (copyTo image start data) start data.length = data := by
  refine List.ext_getElem (length_load _ _ _) fun i h h' => ?_
  rw [getElem_load, copyTo_inside h']

end ByteImage
