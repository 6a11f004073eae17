import Cfgd.ByteImage
import Cfgd.Request
import Cfgd.SlotTables

/-!
# The layout as packed bytes

`fs_allocate_dir` and `fs_allocate_file` over the bytes of `struct fs_config_layout`. The
address 0 is the first byte of the mask. A name is copied with its terminator and without
a bound, into 64 bytes that are followed by 64 unused ones.
-/

namespace PackedLayout

open CText FsImage ByteImage

/-! ## The record types -/

def sizeOfDirectory : Nat := 132
def sizeOfArchive : Nat := 8336
def maskSize : Nat := 32
def layoutSize : Nat := maskSize + fsMaxDir * sizeOfDirectory + fsMaxArch * sizeOfArchive

def dirAt (n : Nat) : Int := maskSize + n * sizeOfDirectory
def archiveAt (n : Nat) : Int := maskSize + fsMaxDir * sizeOfDirectory + n * sizeOfArchive

def nameField : Int := 4
def diridField : Int := 132
def sizeField : Int := 136
def sectionField : Int := 140
def dataField : Int := 144

def readInt (image : Image) (address : Int) : Int := bytesInt (load image address 4)

def writeInt (image : Image) (address value : Int) : Image :=
  copyTo image address (intBytes value)

def zeroBytes (image : Image) (address : Int) (count : Nat) : Image :=
  copyTo image address (List.replicate count 0)

def strcpy (image : Image) (address : Int) (name : Bytes) : Image :=
  copyTo image address (name ++ [0])

/-- The C string at an address. A string without an end is cut at the end of the layout. -/
def stringAt (image : Image) (address : Int) : Bytes :=
  (load image address (layoutSize - address.toNat)).takeWhile (· ≠ 0)

/-! ## Directories -/

def fsSearchDirByname (image : Image) (name : Bytes) : Option Nat :=
  (List.range fsMaxDir).find? fun i =>
    strcasecmp name (stringAt image (dirAt i + nameField)) = .eq ∧ readInt image (dirAt i) > 0

def fsSeekFreeDirLocation (image : Image) : Option Nat :=
  (List.range fsMaxDir).find? fun i => readInt image (dirAt i) ≤ 0

/-- The assignments to the slot. -/
def fillDir (image : Image) (name : Bytes) (n : Nat) : Image :=
  let image := zeroBytes image (dirAt n) sizeOfDirectory
  let image := writeInt image (dirAt n) ((1 + n) * 65536)
  strcpy image (dirAt n + nameField) name

/-- `fs_allocate_dir`: the bytes, the answer, and the slot that was taken. -/
def fsAllocateDir (image : Image) (name : Bytes) : Image × Int × Option Nat :=
  if strcasecmp name procName = .eq then (image, -17, none)
  else if (fsSearchDirByname image name).isSome then (image, -17, none)
  else match fsSeekFreeDirLocation image with
    | none => (image, -1, none)
    | some n => (fillDir image name n, readInt (fillDir image name n) (dirAt n), some n)

/-! ## Archives -/

/-- The bit of a section, `BIT_MASK[n % 8]` of the byte `n >> 3`. -/
def bitMask (n : Nat) : UInt8 := 1 <<< (n % 8).toUInt8

def setBit (image : Image) (n : Nat) : Image :=
  copyTo image (n / 8 : Nat) [image (n / 8 : Nat) ||| bitMask n]

def fsSearchFreeSection (image : Image) : Option Nat :=
  (List.range fsMaxArch).find? fun n => ~~~ image (n / 8 : Nat) &&& bitMask n ≠ 0

def fsSeekFreeFileLocation (image : Image) : Image × Option Nat :=
  match fsSearchFreeSection image with
  | none => (image, none)
  | some n =>
    let image := setBit image n
    if readInt image (archiveAt n) ≤ 0 then (image, some n) else (image, none)

def fsSearchFileByname (image : Image) (name : Bytes) (dirid : Int) : Option Nat :=
  (List.range fsMaxArch).find? fun i =>
    readInt image (archiveAt i + diridField) = dirid ∧
      strcasecmp (stringAt image (archiveAt i + nameField)) name = .eq

/-- What `memcpy` takes from the buffer, if there is one. -/
def fileBytes (size : Int) (data : Option Bytes) : Bytes := (data.getD []).take size.toNat

/-- The assignments to the slot, in their order. -/
def fillFile (image : Image) (name : Bytes) (dirid size : Int) (data : Option Bytes) (n : Nat) :
    Image :=
  let newnode := archiveAt n
  let image := zeroBytes image newnode sizeOfArchive
  let image := writeInt image (newnode + sectionField) n
  let image := writeInt image newnode (dirid + n + 1)
  let image := writeInt image (newnode + diridField) dirid
  let image := strcpy image (newnode + nameField) name
  let image := writeInt image (newnode + sizeField) size
  copyTo image (newnode + dataField) (fileBytes size data)

/-- `fs_allocate_file`: the bytes, the answer, and the slot that was taken. -/
def fsAllocateFile (image : Image) (name : Bytes) (dirid size : Int) (data : Option Bytes) :
    Image × Int × Option Nat :=
  if size < 0 ∨ dirid ≤ 0 ∨ fsMaxFileSize ≤ size then (image, -1, none)
  else if (fsSearchFileByname image name dirid).isSome then (image, -17, none)
  else match fsSeekFreeFileLocation image with
    | (image, none) => (image, -1, none)
    | (image, some n) =>
      let image := fillFile image name dirid size data n
      (image, readInt image (archiveAt n + sectionField), some n)

/-! ## What is promised -/

/-- What the parser admits as a segment: a string of 1 to 191 bytes. -/
structure Admitted (name : Bytes) : Prop where
  filled : name ≠ []
  noEnd : 0 ∉ name
  short : name.length < Request.maxPreSegSize

/-- The bytes from the address on, up to the first zero, are the name. -/
def ReadsAs (image : Image) (address : Int) (name : Bytes) : Prop :=
  ∀ (i : Nat) (h : i < (name ++ [0]).length), image (address + i) = (name ++ [0])[i]

/-- What is promised of a call that takes the directory slot. -/
structure ProperDir (image image' : Image) (name : Bytes) (n : Nat) : Prop where
  frame : ∀ address, ¬ Covers (dirAt n) sizeOfDirectory address → image' address = image address
  id : load image' (dirAt n) 4 = intBytes ((1 + n) * 65536)
  name : ReadsAs image' (dirAt n + nameField) name

/-- What is promised of a call that takes the archive slot. -/
structure ProperFile (image image' : Image) (name : Bytes) (dirid size : Int) (n : Nat) : Prop where
  frame : ∀ address, ¬ Covers (archiveAt n) sizeOfArchive address → address ≠ (n / 8 : Nat) →
    image' address = image address
  mask : image' (n / 8 : Nat) = image (n / 8 : Nat) ||| bitMask n
  id : load image' (archiveAt n) 4 = intBytes (dirid + n + 1)
  dirid : load image' (archiveAt n + diridField) 4 = intBytes dirid
  size : load image' (archiveAt n + sizeField) 4 = intBytes size
  fsSection : load image' (archiveAt n + sectionField) 4 = intBytes n
  name : ReadsAs image' (archiveAt n + nameField) name

/-- What stands behind the name of the directory slot is the end of the name already. -/
def DirRuns (image : Image) (name : Bytes) (n : Nat) : Prop :=
  ∀ (i : Nat) (h : i < (name ++ [0]).length), nameRoom ≤ i →
    image (dirAt n + nameField + i) = (name ++ [0])[i]

/-- The bytes that a call puts behind the name of an archive slot. -/
def behind (dirid size : Int) (data : Option Bytes) (n : Nat) : Bytes :=
  intBytes dirid ++ intBytes size ++ intBytes n ++ fileBytes size data

/-- As far as both go, they are the end of the name. -/
def FileRuns (name : Bytes) (dirid size : Int) (data : Option Bytes) (n : Nat) : Prop :=
  ∀ (i : Nat) (h : i < (name ++ [0]).length), nameRoom ≤ i →
    ∀ b, (behind dirid size data n)[i - nameRoom]? = some b → (name ++ [0])[i] = b

section Fields

@[simp] theorem length_intBytes (n : Int) : (intBytes n).length = 4 := rfl

theorem length_terminated (name : Bytes) : (name ++ [0]).length = name.length + 1 :=
  List.length_append

end Fields

section Directories
variable {image : Image} {name : Bytes} {n : Nat}

theorem fillDir_name (image : Image) (name : Bytes) (n : Nat) :
    ReadsAs (fillDir image name n) (dirAt n + nameField) name := fun _ h => copyTo_inside h

theorem fillDir_id (image : Image) (name : Bytes) (n : Nat) :
    load (fillDir image name n) (dirAt n) 4 = intBytes ((1 + n) * 65536) := by
  rw [load_eq_iff (length_intBytes _)]
  intro i h
  have four : i < 4 := h
  have field : nameField = 4 := rfl
  rw [fillDir, strcpy, copyTo_outside, writeInt, copyTo_inside h]
  rintro ⟨lower, -⟩
  omega

/-- The bytes in front of the name and behind it stay. -/
theorem fillDir_other {address : Int} (outside : ¬ Covers (dirAt n) sizeOfDirectory address)
    (free : ¬ Covers (dirAt n + nameField) (name ++ [0]).length address) :
    fillDir image name n address = image address := by
  have size : sizeOfDirectory = 132 := rfl
  rw [fillDir, strcpy, copyTo_outside free, writeInt, copyTo_outside, zeroBytes, copyTo_outside]
  · rwa [List.length_replicate]
  · rintro ⟨lower, upper⟩
    rw [length_intBytes] at upper
    exact outside ⟨lower, by omega⟩

/-- A name of 128 bytes or more runs on into what follows the slot, which is unharmed only
if it is what the name says. -/
theorem properDir_iff (image : Image) (name : Bytes) (n : Nat) :
    ProperDir image (fillDir image name n) name n ↔ DirRuns image name n := by
  have size : sizeOfDirectory = 132 := rfl
  have field : nameField = 4 := rfl
  have room : nameRoom = 128 := rfl
  constructor
  · intro proper i h behind
    have out : ¬ Covers (dirAt n) sizeOfDirectory (dirAt n + nameField + i) := by
      rintro ⟨-, upper⟩
      omega
    rw [← proper.frame _ out]
    exact proper.name i h
  · intro runs
    refine ⟨fun address outside => ?_, fillDir_id image name n, fillDir_name image name n⟩
    by_cases covered : Covers (dirAt n + nameField) (name ++ [0]).length address
    · obtain ⟨lower, upper⟩ := covered
      obtain ⟨i, place⟩ := Int.le.dest lower
      subst place
      have inside : i < (name ++ [0]).length := by omega
      have behind : nameRoom ≤ i := by
        by_contra short
        exact outside ⟨by omega, by omega⟩
      rw [runs i inside behind]
      exact fillDir_name image name n i inside
    · exact fillDir_other outside covered

end Directories

section Archives
variable {image : Image} {name : Bytes} {dirid size : Int} {data : Option Bytes} {n : Nat}

/-- The field of a place behind the name. -/
theorem behind_getElem (dirid size : Int) (data : Option Bytes) (n k : Nat) :
    (behind dirid size data n)[k]? =
      if k < 4 then (intBytes dirid)[k]? else if k < 8 then (intBytes size)[k - 4]?
      else if k < 12 then (intBytes n)[k - 8]? else (fileBytes size data)[k - 12]? := by
  rw [behind, List.append_assoc, List.append_assoc, List.getElem?_append, length_intBytes]
  split
  · rfl
  · rw [List.getElem?_append, length_intBytes]
    split
    · rw [if_pos (by omega)]
    · rw [if_neg (by omega), List.getElem?_append, length_intBytes]
      have less : k - 4 - 4 = k - 8 := by omega
      have rest : k - 8 - 4 = k - 12 := by omega
      rw [less, rest]
      split
      · rw [if_pos (by omega)]
      · rw [if_neg (by omega)]

/-- The places that are written before the name is copied. -/
def Early (k : Nat) : Prop := k < 4 ∨ 8 ≤ k ∧ k < 12

instance (k : Nat) : Decidable (Early k) := inferInstanceAs (Decidable (_ ∨ _))

theorem fillFile_late {k : Nat} {b : UInt8} (late : ¬ Early k)
    (assigned : (behind dirid size data n)[k]? = some b) :
    fillFile image name dirid size data n (archiveAt n + diridField + k) = b := by
  have fields : diridField = 132 ∧ sizeField = 136 ∧ dataField = 144 := ⟨rfl, rfl, rfl⟩
  obtain ⟨notFirst, notThird⟩ := not_or.mp late
  rw [behind_getElem, if_neg notFirst] at assigned
  split at assigned
  · rename_i second
    obtain ⟨inside, rfl⟩ := List.getElem?_eq_some_iff.mp assigned
    rw [fillFile, copyTo_outside, writeInt, copyTo_at inside (by omega)]
    rintro ⟨lower, -⟩
    omega
  · rw [if_neg (by omega)] at assigned
    obtain ⟨inside, rfl⟩ := List.getElem?_eq_some_iff.mp assigned
    rw [fillFile, copyTo_at inside (by omega)]

/-- A field that is written before the name keeps its byte unless the name runs over it. -/
theorem fillFile_early {k : Nat} {b : UInt8} (early : Early k)
    (assigned : (behind dirid size data n)[k]? = some b) :
    fillFile image name dirid size data n (archiveAt n + diridField + k) =
      (name ++ [0])[nameRoom + k]?.getD b := by
  have fields : diridField = 132 ∧ sizeField = 136 ∧ sectionField = 140 ∧ dataField = 144 ∧
      nameField = 4 ∧ nameRoom = 128 := ⟨rfl, rfl, rfl, rfl, rfl, rfl⟩
  have beforeData : ¬ Covers (archiveAt n + dataField) (fileBytes size data).length
      (archiveAt n + diridField + k) := by
    rintro ⟨lower, -⟩
    rw [Early] at early
    omega
  have besideSize : ¬ Covers (archiveAt n + sizeField) (intBytes size).length
      (archiveAt n + diridField + k) := by
    rintro ⟨lower, upper⟩
    rw [length_intBytes] at upper
    rw [Early] at early
    omega
  rw [fillFile, copyTo_outside beforeData, writeInt, copyTo_outside besideSize, strcpy]
  by_cases named : nameRoom + k < (name ++ [0]).length
  · rw [copyTo_at named (by omega), List.getElem?_eq_getElem named]
    rfl
  · rw [copyTo_outside, List.getElem?_eq_none (by omega)]
    · rw [behind_getElem] at assigned
      split at assigned
      · obtain ⟨inside, rfl⟩ := List.getElem?_eq_some_iff.mp assigned
        rw [writeInt, copyTo_at inside rfl]
        rfl
      · rename_i notFirst
        have third := early.resolve_left notFirst
        rw [if_neg (by omega), if_pos (by omega)] at assigned
        obtain ⟨inside, rfl⟩ := List.getElem?_eq_some_iff.mp assigned
        have besideDirid : ¬ Covers (archiveAt n + diridField) (intBytes dirid).length
            (archiveAt n + diridField + k) := by
          rintro ⟨-, upper⟩
          rw [length_intBytes] at upper
          omega
        have behindId : ¬ Covers (archiveAt n) (intBytes (dirid + n + 1)).length
            (archiveAt n + diridField + k) := by
          rintro ⟨-, upper⟩
          rw [length_intBytes] at upper
          omega
        rw [writeInt, copyTo_outside besideDirid, writeInt, copyTo_outside behindId, writeInt,
          copyTo_at inside (by omega)]
        rfl
    · rintro ⟨-, upper⟩
      omega

/-- Elsewhere the name is as it was copied. -/
theorem fillFile_name {i : Nat} (h : i < (name ++ [0]).length)
    (free : nameRoom ≤ i → (behind dirid size data n)[i - nameRoom]? = none ∨
      Early (i - nameRoom)) :
    fillFile image name dirid size data n (archiveAt n + nameField + i) = (name ++ [0])[i] := by
  have fields : diridField = 132 ∧ sizeField = 136 ∧ sectionField = 140 ∧ dataField = 144 ∧
      nameField = 4 ∧ nameRoom = 128 := ⟨rfl, rfl, rfl, rfl, rfl, rfl⟩
  have unassigned : ∀ k, 12 ≤ k → (behind dirid size data n)[k]? = none →
      (fileBytes size data).length ≤ k - 12 := by
    intro k far none_
    rw [behind_getElem, if_neg (by omega), if_neg (by omega), if_neg (by omega)] at none_
    exact List.getElem?_eq_none_iff.mp none_
  have beforeData : ¬ Covers (archiveAt n + dataField) (fileBytes size data).length
      (archiveAt n + nameField + i) := by
    rintro ⟨lower, upper⟩
    rcases free (by omega) with none_ | early
    · have short := unassigned _ (by omega) none_
      omega
    · rw [Early] at early
      omega
  have besideSize : ¬ Covers (archiveAt n + sizeField) (intBytes size).length
      (archiveAt n + nameField + i) := by
    rintro ⟨lower, upper⟩
    rw [length_intBytes] at upper
    rcases free (by omega) with none_ | early
    · rw [behind_getElem, if_neg (by omega), if_pos (by omega)] at none_
      have past := List.getElem?_eq_none_iff.mp none_
      rw [length_intBytes] at past
      omega
    · rw [Early] at early
      omega
  rw [fillFile, copyTo_outside beforeData, writeInt, copyTo_outside besideSize, strcpy,
    copyTo_inside h]

theorem fillFile_id (image : Image) (name : Bytes) (dirid size : Int) (data : Option Bytes)
    (n : Nat) : load (fillFile image name dirid size data n) (archiveAt n) 4 =
      intBytes (dirid + n + 1) := by
  have fields : diridField = 132 ∧ sizeField = 136 ∧ dataField = 144 ∧ nameField = 4 :=
    ⟨rfl, rfl, rfl, rfl⟩
  rw [load_eq_iff (length_intBytes _)]
  intro i h
  have four : i < 4 := h
  have apart : ∀ (field : Int) (count : Nat), 4 ≤ field →
      ¬ Covers (archiveAt n + field) count (archiveAt n + i) := by
    rintro field count far ⟨lower, -⟩
    omega
  rw [fillFile, copyTo_outside (apart _ _ (by omega)), writeInt,
    copyTo_outside (apart _ _ (by omega)), strcpy, copyTo_outside (apart _ _ (by omega)),
    writeInt, copyTo_outside (apart _ _ (by omega)), writeInt, copyTo_inside h]

/-- All that a call writes lies in the slot. -/
theorem fillFile_other {address : Int} (short : name.length < 8192) (small : size < fsMaxFileSize)
    (outside : ¬ Covers (archiveAt n) sizeOfArchive address) :
    fillFile image name dirid size data n address = image address := by
  have fields : diridField = 132 ∧ sizeField = 136 ∧ sectionField = 140 ∧ dataField = 144 ∧
      nameField = 4 ∧ sizeOfArchive = 8336 ∧ fsMaxFileSize = 8192 :=
    ⟨rfl, rfl, rfl, rfl, rfl, rfl, rfl⟩
  have apart : ∀ (start : Int) (count : Nat), archiveAt n ≤ start →
      start + count ≤ archiveAt n + sizeOfArchive → ¬ Covers start count address := by
    rintro start count low high ⟨lower, upper⟩
    exact outside ⟨by omega, by omega⟩
  have length : (fileBytes size data).length ≤ size.toNat := List.length_take_le _ _
  have terminated := length_terminated name
  rw [fillFile, copyTo_outside (apart _ _ (by omega) (by omega)), writeInt,
    copyTo_outside (apart _ _ (by omega) (by rw [length_intBytes]; omega)), strcpy,
    copyTo_outside (apart _ _ (by omega) (by omega)), writeInt,
    copyTo_outside (apart _ _ (by omega) (by rw [length_intBytes]; omega)), writeInt,
    copyTo_outside (apart _ _ (by omega) (by rw [length_intBytes]; omega)), writeInt,
    copyTo_outside (apart _ _ (by omega) (by rw [length_intBytes]; omega)), zeroBytes,
    copyTo_outside (apart _ _ (by omega) (by rw [List.length_replicate]))]

/-- The fields are as assigned and the name reads as it was given exactly when the part of
the name that runs over the fields is what they hold. -/
theorem fields_iff (image : Image) (name : Bytes) (dirid size : Int) (data : Option Bytes)
    (n : Nat) :
    (load (fillFile image name dirid size data n) (archiveAt n + diridField) 4 = intBytes dirid ∧
      load (fillFile image name dirid size data n) (archiveAt n + sizeField) 4 = intBytes size ∧
      load (fillFile image name dirid size data n) (archiveAt n + sectionField) 4 = intBytes n ∧
      ReadsAs (fillFile image name dirid size data n) (archiveAt n + nameField) name) ↔
    FileRuns name dirid size data n := by
  have fields : diridField = 132 ∧ sizeField = 136 ∧ sectionField = 140 ∧ nameField = 4 ∧
      nameRoom = 128 := ⟨rfl, rfl, rfl, rfl, rfl⟩
  simp only [load_eq_iff (length_intBytes _)]
  constructor
  · rintro ⟨diridHolds, -, sectionHolds, reads⟩ i h beyond b assigned
    have place : archiveAt n + nameField + i = archiveAt n + diridField + (i - nameRoom : Nat) := by
      omega
    by_cases early : Early (i - nameRoom)
    · have same := @fillFile_early image name dirid size data n _ b early assigned
      have there : nameRoom + (i - nameRoom) = i := by omega
      rw [there, List.getElem?_eq_getElem h] at same
      rw [behind_getElem] at assigned
      rcases early with first | third
      · rw [if_pos first] at assigned
        obtain ⟨inside, rfl⟩ := List.getElem?_eq_some_iff.mp assigned
        exact same.symm.trans (diridHolds _ inside)
      · rw [if_neg (by omega), if_neg (by omega), if_pos third.2] at assigned
        obtain ⟨inside, rfl⟩ := List.getElem?_eq_some_iff.mp assigned
        have holds := sectionHolds _ inside
        have spot : archiveAt n + sectionField + (i - nameRoom - 8 : Nat) =
            archiveAt n + diridField + (i - nameRoom : Nat) := by omega
        rw [spot] at holds
        exact same.symm.trans holds
    · have same := @fillFile_late image name dirid size data n _ b early assigned
      rw [← place] at same
      exact (reads i h).symm.trans same
  · intro runs
    have holds : ∀ (k : Nat) b, (behind dirid size data n)[k]? = some b →
        fillFile image name dirid size data n (archiveAt n + diridField + k) = b := by
      intro k b assigned
      by_cases early : Early k
      · rw [fillFile_early early assigned]
        by_cases named : nameRoom + k < (name ++ [0]).length
        · rw [List.getElem?_eq_getElem named, Option.getD_some]
          exact runs _ named (by omega) b (by rwa [Nat.add_sub_cancel_left])
        · rw [List.getElem?_eq_none (by omega), Option.getD_none]
      · exact fillFile_late early assigned
    refine ⟨fun k h => ?_, fun k h => ?_, fun k h => ?_, fun i h => ?_⟩
    · have four : k < 4 := h
      exact holds k _ (by rw [behind_getElem, if_pos four, List.getElem?_eq_getElem h])
    · have four : k < 4 := h
      have spot : archiveAt n + sizeField + k = archiveAt n + diridField + (k + 4 : Nat) := by omega
      rw [spot]
      refine holds (k + 4) _ ?_
      rw [behind_getElem, if_neg (by omega), if_pos (by omega), Nat.add_sub_cancel,
        List.getElem?_eq_getElem h]
    · have four : k < 4 := h
      have spot : archiveAt n + sectionField + k = archiveAt n + diridField + (k + 8 : Nat) := by
        omega
      rw [spot]
      refine holds (k + 8) _ ?_
      rw [behind_getElem, if_neg (by omega), if_neg (by omega), if_pos (by omega),
        Nat.add_sub_cancel, List.getElem?_eq_getElem h]
    · by_cases beyond : nameRoom ≤ i
      · cases assigned : (behind dirid size data n)[i - nameRoom]? with
        | none => exact fillFile_name h fun _ => Or.inl assigned
        | some b =>
          have place : archiveAt n + nameField + i =
              archiveAt n + diridField + (i - nameRoom : Nat) := by omega
          rw [place, holds _ b assigned]
          exact (runs i h beyond b assigned).symm
      · exact fillFile_name h fun long => absurd long beyond

theorem archiveAt_lower (n : Nat) : 16928 ≤ archiveAt n := by
  have slots : (maskSize : Int) + fsMaxDir * sizeOfDirectory = 16928 := rfl
  have size : (sizeOfArchive : Int) = 8336 := rfl
  rw [archiveAt, slots, size]
  omega

theorem setBit_at (image : Image) (n : Nat) :
    setBit image n (n / 8 : Nat) = image (n / 8 : Nat) ||| bitMask n := by
  have first : 0 < [image (n / 8 : Nat) ||| bitMask n].length := Nat.zero_lt_one
  exact copyTo_at first (Int.add_zero _).symm

theorem properFile_iff (image : Image) {name : Bytes} {dirid size : Int} (data : Option Bytes)
    {n : Nat} (section_ : n < fsMaxArch) (short : name.length < 8192)
    (small : size < fsMaxFileSize) :
    ProperFile image (fillFile (setBit image n) name dirid size data n) name dirid size n ↔
      FileRuns name dirid size data n := by
  rw [← fields_iff (setBit image n)]
  have outside : ¬ Covers (archiveAt n) sizeOfArchive (n / 8 : Nat) := by
    rintro ⟨lower, -⟩
    have behindDirs := archiveAt_lower n
    have sections : fsMaxArch = 256 := rfl
    omega
  constructor
  · intro proper
    exact ⟨proper.dirid, proper.size, proper.fsSection, proper.name⟩
  · rintro ⟨diridHolds, sizeHolds, sectionHolds, reads⟩
    refine ⟨fun address out other => ?_, ?_, fillFile_id _ _ _ _ _ _, diridHolds, sizeHolds,
      sectionHolds, reads⟩
    · rw [fillFile_other short small out, setBit, copyTo_outside]
      rintro ⟨lower, upper⟩
      rw [List.length_singleton] at upper
      omega
    · rw [fillFile_other short small outside]
      exact setBit_at image n

end Archives

section Calls

theorem fsAllocateDir_of_taken {image : Image} {name : Bytes} {n : Nat}
    (taken : (fsAllocateDir image name).2.2 = some n) :
    (fsAllocateDir image name).1 = fillDir image name n := by
  revert taken
  rw [fsAllocateDir]
  split
  · intro taken
    cases taken
  · split
    · intro taken
      cases taken
    · cases fsSeekFreeDirLocation image with
      | none =>
        intro taken
        cases taken
      | some m =>
        intro taken
        obtain rfl : m = n := Option.some.inj taken
        rfl

theorem fsSeekFreeFileLocation_of_found {image image' : Image} {n : Nat}
    (found : fsSeekFreeFileLocation image = (image', some n)) :
    n < fsMaxArch ∧ image' = setBit image n := by
  rw [fsSeekFreeFileLocation] at found
  cases free : fsSearchFreeSection image with
  | none =>
    rw [free] at found
    cases found
  | some m =>
    rw [free] at found
    dsimp only at found
    split at found
    · cases found
      exact ⟨List.mem_range.mp (List.mem_of_find?_eq_some free), rfl⟩
    · cases found

theorem fsAllocateFile_of_taken {image : Image} {name : Bytes} {dirid size : Int}
    {data : Option Bytes} {n : Nat}
    (taken : (fsAllocateFile image name dirid size data).2.2 = some n) :
    n < fsMaxArch ∧ size < fsMaxFileSize ∧
      (fsAllocateFile image name dirid size data).1 =
        fillFile (setBit image n) name dirid size data n := by
  revert taken
  rw [fsAllocateFile]
  split
  · intro taken
    cases taken
  · rename_i bounds
    have small : size < fsMaxFileSize := by
      by_contra large
      exact bounds (Or.inr (Or.inr (by omega)))
    split
    · intro taken
      cases taken
    · rcases located : fsSeekFreeFileLocation image with ⟨image', _ | m⟩
      · intro taken
        cases taken
      · intro taken
        obtain rfl : m = n := Option.some.inj taken
        obtain ⟨section_, rfl⟩ := fsSeekFreeFileLocation_of_found located
        exact ⟨section_, small, rfl⟩

/-- A directory slot is taken without harm exactly when the bytes behind it are already the
end of the name, an archive slot exactly when its other fields are. Either holds of every
name of less than 128 bytes. -/
theorem allocate_proper_iff (image : Image) {name : Bytes} (admitted : Admitted name) :
    (∀ n, (fsAllocateDir image name).2.2 = some n →
      (ProperDir image (fsAllocateDir image name).1 name n ↔ DirRuns image name n)) ∧
    (∀ dirid size data n, (fsAllocateFile image name dirid size data).2.2 = some n →
      (ProperFile image (fsAllocateFile image name dirid size data).1 name dirid size n ↔
        FileRuns name dirid size data n)) ∧
    (name.length < nameRoom → (∀ n, DirRuns image name n) ∧
      ∀ dirid size data n, FileRuns name dirid size data n) := by
  refine ⟨fun n taken => ?_, fun dirid size data n taken => ?_, fun fits => ⟨?_, ?_⟩⟩
  · rw [fsAllocateDir_of_taken taken]
    exact properDir_iff image name n
  · obtain ⟨section_, small, bytes⟩ := fsAllocateFile_of_taken taken
    have room : Request.maxPreSegSize = 192 := rfl
    have short := admitted.short
    rw [bytes]
    exact properFile_iff image data section_ (by omega) small
  · intro n i h far
    have terminated := length_terminated name
    omega
  · intro dirid size data n i h far
    have terminated := length_terminated name
    omega

/-- A layout without directories and archives. -/
def empty : Image := fun _ => 0

/-- A name that just does not fit. -/
def longName : Bytes := List.replicate 129 97

theorem length_longName : longName.length = 129 := List.length_replicate

theorem longName_admitted : Admitted longName := by
  have room : Request.maxPreSegSize = 192 := rfl
  refine ⟨List.replicate_succ_ne_nil, fun ended => ?_, ?_⟩
  · exact absurd (List.eq_of_mem_replicate ended) (by decide)
  · rw [length_longName]
    omega

theorem longName_long : 128 < (longName ++ [0]).length := by
  rw [length_terminated, length_longName]
  omega

theorem longName_at (h : 128 < (longName ++ [0]).length) : (longName ++ [0])[128] = 97 := by
  have named : 128 < longName.length := by
    rw [length_longName]
    omega
  rw [List.getElem_append_left named]
  exact List.getElem_replicate _

theorem readInt_empty (address : Int) : readInt empty address = 0 := rfl

theorem empty_takes_dir {name : Bytes} (other : strcasecmp name procName ≠ .eq) :
    (fsAllocateDir empty name).2.2 = some 0 := by
  have unknown : fsSearchDirByname empty name = none := by
    rw [fsSearchDirByname, List.find?_eq_none]
    rintro i - found
    have active := (of_decide_eq_true found).2
    rw [readInt_empty] at active
    exact absurd active (Int.lt_irrefl 0)
  have free : fsSeekFreeDirLocation empty = some 0 := by decide
  rw [fsAllocateDir, if_neg other, unknown, free]
  rfl

/-- The directory "log" is made and nothing else is changed. -/
theorem allocate_proper_iff_log : (fsAllocateDir empty [108, 111, 103]).2.2 = some 0 ∧
    ProperDir empty (fsAllocateDir empty [108, 111, 103]).1 [108, 111, 103] 0 := by
  have admitted : Admitted [108, 111, 103] := ⟨by decide, by decide, by decide⟩
  have taken : (fsAllocateDir empty [108, 111, 103]).2.2 = some 0 := empty_takes_dir (by decide)
  obtain ⟨dirs, -, fitting⟩ := allocate_proper_iff empty admitted
  exact ⟨taken, (dirs 0 taken).mpr ((fitting (by decide)).1 0)⟩

theorem empty_takes_file (name : Bytes) :
    (fsAllocateFile empty name 65536 0 none).2.2 = some 0 := by
  have unknown : fsSearchFileByname empty name 65536 = none := by
    rw [fsSearchFileByname, List.find?_eq_none]
    rintro i - found
    have dirid := (of_decide_eq_true found).1
    rw [readInt_empty] at dirid
    exact absurd dirid (by decide)
  have free : (fsSeekFreeFileLocation empty).2 = some 0 := by decide
  rcases located : fsSeekFreeFileLocation empty with ⟨image, slot⟩
  rw [located] at free
  cases free
  rw [fsAllocateFile, if_neg (by decide), unknown, located]
  rfl

/-- The byte of the name at 128 becomes the first one of the next directory's id, or stands
where the number of the archive's directory was put. -/
theorem allocate_not_proper : ¬ ∀ image name, Admitted name →
    (∀ n, (fsAllocateDir image name).2.2 = some n →
      ProperDir image (fsAllocateDir image name).1 name n) ∧
    (∀ dirid size data n, (fsAllocateFile image name dirid size data).2.2 = some n →
      ProperFile image (fsAllocateFile image name dirid size data).1 name dirid size n) := by
  intro always
  have taken : (fsAllocateDir empty longName).2.2 = some 0 := empty_takes_dir (by decide)
  have proper := (always empty longName longName_admitted).1 0 taken
  rw [fsAllocateDir_of_taken taken, properDir_iff] at proper
  have runs := proper 128 longName_long (Nat.le_refl _)
  rw [longName_at] at runs
  exact absurd runs (by decide)

/-- The same with an archive. -/
theorem fsAllocateFile_not_proper :
    ¬ ProperFile empty (fsAllocateFile empty longName 65536 0 none).1 longName 65536 0 0 := by
  intro proper
  have short : longName.length < 8192 := by
    rw [length_longName]
    omega
  obtain ⟨section_, small, bytes⟩ := fsAllocateFile_of_taken (empty_takes_file longName)
  rw [bytes, properFile_iff empty none section_ short small] at proper
  have assigned : (behind 65536 0 none 0)[128 - nameRoom]? = some 0 := by
    rw [behind_getElem, if_pos (by decide)]
    decide
  have runs := proper 128 longName_long (Nat.le_refl _) 0 assigned
  rw [longName_at] at runs
  exact absurd runs (by decide)

end Calls

end PackedLayout
