import Cfgd.PackedLayout
import Cfgd.UpdateSeq

/-!
# Archives in the packed layout

The other functions of the fs on the bytes of `struct fs_config_layout`, and what they do
to the `size` members of the archive slots.
-/

namespace PackedFiles

open CText ByteImage PackedLayout
open FsImage (FsLayout fsMaxDir fsMaxArch fsMaxFileSize nameRoom intBytes)

/-! ## The functions -/

def fsSearchFileBysect (image : Image) (sectionNo : Int) : Option Nat :=
  if sectionNo < 0 ∨ fsMaxArch ≤ sectionNo then none
  else if readInt image (archiveAt sectionNo.toNat) > 0 then some sectionNo.toNat
  else none

/-- `fs_read_file_bysect`: the bytes after the call, its answer and where `*dataptr` points. -/
def fsReadFileBysect (image : Image) (sectionNo : Int) : Image × Int × Option Int :=
  match fsSearchFileBysect image sectionNo with
  | none => (image, -1, none)
  | some n =>
    let size := readInt image (archiveAt n + sizeField)
    (copyTo image (archiveAt n + dataField + size) [0], size, some (archiveAt n + dataField))

/-- `fs_override_file`, with the text that `cJSON_PrintUnformatted` made of the document.
The last component says whether `fs_append_sync` was called. -/
def fsOverrideFile (image : Image) (sectionNo : Int) (jsonfiledata : Option Bytes) :
    Image × Int × Bool :=
  match fsSearchFileBysect image sectionNo, jsonfiledata with
  | some n, some text =>
    if text.length ≤ fsMaxFileSize then
      let image := writeInt image (archiveAt n + sizeField) text.length
      let image := copyTo image (archiveAt n + dataField) text
      let behind := archiveAt n + dataField + text.length
      (zeroBytes image behind (fsMaxFileSize - text.length), 0, true)
    else (image, 0, false)
  | _, _ => (image, -1, false)

def fsSetSectionBitmask (image : Image) (index : Int) (used : Bool) : Image :=
  if index < 0 then image
  else
    let i := index.toNat / 8
    let bit := bitMask index.toNat
    if maskSize ≤ i then image
    else copyTo image (i : Nat)
      [if used then image (i : Nat) ||| bit else image (i : Nat) &&& ~~~bit]

/-- The bit of the section that the slot holds, and the slot. -/
def dropArchive (image : Image) (n : Nat) : Image :=
  let image := fsSetSectionBitmask image (readInt image (archiveAt n + sectionField)) false
  zeroBytes image (archiveAt n) sizeOfArchive

def fsDeleteFile (image : Image) (sectionNo : Int) : Image :=
  match fsSearchFileBysect image sectionNo with
  | none => image
  | some n => dropArchive image n

def fsDeleteDir (image : Image) (name : Bytes) : Image :=
  match fsSearchDirByname image name with
  | none => image
  | some d =>
    let dirid := readInt image (dirAt d)
    (List.range fsMaxArch).foldl (fun image i =>
      if readInt image (archiveAt i) > 0 ∧ readInt image (archiveAt i + diridField) = dirid then
        dropArchive image i
      else image) (zeroBytes image (dirAt d) sizeOfDirectory)

/-- The members of the slots, as `fs_update_seq` reads them. -/
def slots (image : Image) : FsLayout where
  mask n := image ((n : Nat) / 8 : Nat) &&& bitMask n ≠ 0
  dir d := ⟨readInt image (dirAt d), stringAt image (dirAt d + nameField)⟩
  archive n :=
    { id := readInt image (archiveAt n)
      name := (load image (archiveAt n + nameField) nameRoom).takeWhile (· ≠ 0)
      dirid := readInt image (archiveAt n + diridField)
      size := readInt image (archiveAt n + sizeField)
      fsSection := readInt image (archiveAt n + sectionField)
      data := load image (archiveAt n + dataField) fsMaxFileSize }

/-- `fs_update_seq` writes the ids of the directories, and the ids and the owners of the
archives. -/
def fsUpdateSeq (image : Image) : Image :=
  match UpdateSeq.fsUpdateSeq (slots image) with
  | none => image
  | some layout =>
    let image := (List.finRange fsMaxDir).foldl (fun image (d : Fin fsMaxDir) =>
      writeInt image (dirAt d) (layout.dir d).id) image
    (List.finRange fsMaxArch).foldl (fun image (n : Fin fsMaxArch) =>
      writeInt (writeInt image (archiveAt n + diridField) (layout.archive n).dirid)
        (archiveAt n) (layout.archive n).id) image

/-! ## Where the sizes are -/

/-- The `size` of a slot. -/
def sizeAt (image : Image) (n : Nat) : Int := readInt image (archiveAt n + sizeField)

/-- Every size is one with which the data and a terminator fit. -/
def Bounded (image : Image) : Prop :=
  ∀ n < fsMaxArch, 0 ≤ sizeAt image n ∧ sizeAt image n < fsMaxFileSize

/-- The range meets no `size`. -/
def Clear (start : Int) (count : Nat) : Prop :=
  ∀ n < fsMaxArch, start + count ≤ archiveAt n + sizeField ∨ archiveAt n + sizeField + 4 ≤ start

section Ranges
variable {image : Image} {start : Int} {count : Nat}

theorem dirAt_eq (d : Nat) : dirAt d = 32 + 132 * d := by
  have base : (maskSize : Int) = 32 := rfl
  have size : (sizeOfDirectory : Int) = 132 := rfl
  rw [dirAt, base, size]
  omega

theorem archiveAt_eq (n : Nat) : archiveAt n = 16928 + 8336 * n := by
  have slots : (maskSize : Int) + fsMaxDir * sizeOfDirectory = 16928 := rfl
  have size : (sizeOfArchive : Int) = 8336 := rfl
  rw [archiveAt, slots, size]
  omega

/-- What lies in front of the archives, or with them in front of the first `size`. -/
theorem clear_of_front (low : start + count ≤ 17064) : Clear start count := by
  intro n _
  have field : sizeField = 136 := rfl
  have place := archiveAt_eq n
  left
  omega

/-- What lies in the data of a slot. -/
theorem clear_of_data {n : Nat} (low : archiveAt n + 140 ≤ start)
    (high : start + count ≤ archiveAt n + 8472) : Clear start count := by
  intro m _
  have field : sizeField = 136 := rfl
  have place := archiveAt_eq n
  have other := archiveAt_eq m
  by_cases before : m ≤ n
  · right
    omega
  · left
    omega

/-- What lies in front of the `size` of a slot, in the slot. -/
theorem clear_of_head {n : Nat} (low : archiveAt n ≤ start)
    (high : start + count ≤ archiveAt n + 136) : Clear start count := by
  intro m _
  have field : sizeField = 136 := rfl
  have place := archiveAt_eq n
  have other := archiveAt_eq m
  by_cases before : n ≤ m
  · left
    omega
  · right
    omega

theorem sizeAt_congr {image' : Image} {n : Nat}
    (same : ∀ address, Covers (archiveAt n + sizeField) 4 address →
      image' address = image address) :
    sizeAt image' n = sizeAt image n := by
  unfold sizeAt readInt
  rw [load_congr same]

theorem sizeAt_copyTo {data : Bytes} (clear : Clear start data.length) {n : Nat}
    (section_ : n < fsMaxArch) : sizeAt (copyTo image start data) n = sizeAt image n := by
  apply sizeAt_congr
  rintro address ⟨lower, upper⟩
  apply copyTo_outside
  rintro ⟨first, last⟩
  rcases clear n section_ with before | behind
  · omega
  · push_cast at upper
    omega

theorem bounded_copyTo (bounded : Bounded image) {data : Bytes} (clear : Clear start data.length) :
    Bounded (copyTo image start data) := by
  intro n section_
  rw [sizeAt_copyTo clear section_]
  exact bounded n section_

theorem sizeAt_writeInt (image : Image) (n : Nat) {size : Int} (low : 0 ≤ size)
    (high : size ≤ fsMaxFileSize) :
    sizeAt (writeInt image (archiveAt n + sizeField) size) n = size := by
  have limit : fsMaxFileSize = 8192 := rfl
  rw [sizeAt, readInt, writeInt]
  have stored := load_copyTo image (archiveAt n + sizeField) (intBytes size)
  rw [length_intBytes] at stored
  rw [stored]
  apply SlotTables.bytesInt_intBytes
  · omega
  · omega

end Ranges

/-! ## What the functions do to the sizes -/

section Functions
variable {image : Image} {sectionNo : Int} {n : Nat}

theorem search_some (found : fsSearchFileBysect image sectionNo = some n) :
    n < fsMaxArch ∧ sectionNo = n ∧ 0 < readInt image (archiveAt n) := by
  rw [fsSearchFileBysect] at found
  split at found
  · cases found
  · rename_i inside
    split at found
    · rename_i active
      obtain rfl : sectionNo.toNat = n := Option.some.inj found
      have bounds := not_or.mp inside
      refine ⟨?_, ?_, active⟩
      · omega
      · omega
    · cases found

theorem bounded_readFile (bounded : Bounded image) (sectionNo : Int) :
    Bounded (fsReadFileBysect image sectionNo).1 := by
  have fields : dataField = 144 ∧ fsMaxFileSize = 8192 := ⟨rfl, rfl⟩
  cases found : fsSearchFileBysect image sectionNo with
  | none =>
    rw [fsReadFileBysect, found]
    exact bounded
  | some n =>
    rw [fsReadFileBysect, found]
    obtain ⟨low, high⟩ := bounded n (search_some found).1
    unfold sizeAt at low high
    apply bounded_copyTo bounded
    rw [List.length_singleton]
    apply @clear_of_data _ _ n
    · omega
    · omega

theorem sizeAt_overrideFile {text : Bytes} (found : fsSearchFileBysect image sectionNo = some n)
    (fits : text.length ≤ fsMaxFileSize) {m : Nat} (section_ : m < fsMaxArch) :
    sizeAt (fsOverrideFile image sectionNo (some text)).1 m =
      if m = n then (text.length : Int) else sizeAt image m := by
  have fields : dataField = 144 ∧ fsMaxFileSize = 8192 ∧ sizeField = 136 := ⟨rfl, rfl, rfl⟩
  unfold fsOverrideFile
  rw [found]
  dsimp only
  rw [if_pos fits]
  change sizeAt (zeroBytes _ _ _) m = _
  rw [zeroBytes, sizeAt_copyTo _ section_, sizeAt_copyTo _ section_]
  · split
    · rename_i here
      subst here
      apply sizeAt_writeInt
      · omega
      · omega
    · rename_i elsewhere
      apply sizeAt_congr
      rintro address ⟨lower, upper⟩
      apply copyTo_outside
      rintro ⟨first, last⟩
      rw [length_intBytes] at last
      have place := archiveAt_eq n
      have other := archiveAt_eq m
      omega
  · apply @clear_of_data _ _ n
    · omega
    · omega
  · rw [List.length_replicate]
    apply @clear_of_data _ _ n
    · omega
    · omega

/-- Only a text that fills the data to the last byte harms the bound. -/
theorem bounded_overrideFile (bounded : Bounded image) (sectionNo : Int) {text : Option Bytes}
    (room : ∀ n bytes, fsSearchFileBysect image sectionNo = some n → text = some bytes →
      bytes.length ≠ fsMaxFileSize) : Bounded (fsOverrideFile image sectionNo text).1 := by
  cases found : fsSearchFileBysect image sectionNo with
  | none =>
    unfold fsOverrideFile
    rw [found]
    exact bounded
  | some n =>
    cases text with
    | none =>
      unfold fsOverrideFile
      rw [found]
      exact bounded
    | some bytes =>
      by_cases fits : bytes.length ≤ fsMaxFileSize
      · intro m section_
        rw [sizeAt_overrideFile found fits section_]
        have unequal := room n bytes found rfl
        split
        · constructor
          · omega
          · omega
        · exact bounded m section_
      · unfold fsOverrideFile
        rw [found]
        dsimp only
        rw [if_neg fits]
        exact bounded

theorem bounded_setBitmask (bounded : Bounded image) (index : Int) (used : Bool) :
    Bounded (fsSetSectionBitmask image index used) := by
  unfold fsSetSectionBitmask
  split
  · exact bounded
  · dsimp only
    split
    · exact bounded
    · rename_i inside
      have mask : maskSize = 32 := rfl
      apply bounded_copyTo bounded
      rw [List.length_singleton]
      apply clear_of_front
      omega

theorem sizeAt_zeroed (image : Image) (n : Nat) :
    sizeAt (zeroBytes image (archiveAt n) sizeOfArchive) n = 0 := by
  have fields : sizeField = 136 ∧ sizeOfArchive = 8336 := ⟨rfl, rfl⟩
  have zeros : load (zeroBytes image (archiveAt n) sizeOfArchive) (archiveAt n + sizeField) 4 =
      [0, 0, 0, 0] := by
    have count : ([0, 0, 0, 0] : Bytes).length = 4 := rfl
    rw [load_eq_iff count]
    intro i h
    have four : i < 4 := h
    have inside : 136 + i < (List.replicate sizeOfArchive (0 : UInt8)).length := by
      rw [List.length_replicate]
      omega
    rw [zeroBytes, copyTo_at inside (by omega), List.getElem_replicate]
    have each : ∀ j (h : j < 4), ([0, 0, 0, 0] : Bytes)[j] = 0 := by decide
    exact (each i four).symm
  rw [sizeAt, readInt, zeros]
  rfl

theorem bounded_dropArchive (bounded : Bounded image) (n : Nat) :
    Bounded (dropArchive image n) := by
  have fields : sizeField = 136 ∧ sizeOfArchive = 8336 := ⟨rfl, rfl⟩
  intro m section_
  by_cases here : m = n
  · subst here
    rw [dropArchive, sizeAt_zeroed]
    exact ⟨Int.le_refl 0, by decide⟩
  · have kept : sizeAt (dropArchive image n) m = sizeAt (fsSetSectionBitmask image
        (readInt image (archiveAt n + sectionField)) false) m := by
      apply sizeAt_congr
      rintro address ⟨lower, upper⟩
      apply copyTo_outside
      rintro ⟨first, last⟩
      rw [List.length_replicate] at last
      have place := archiveAt_eq n
      have other := archiveAt_eq m
      omega
    rw [kept]
    exact bounded_setBitmask bounded _ _ m section_

theorem bounded_deleteFile (bounded : Bounded image) (sectionNo : Int) :
    Bounded (fsDeleteFile image sectionNo) := by
  unfold fsDeleteFile
  split
  · exact bounded
  · exact bounded_dropArchive bounded _

theorem bounded_foldl {α : Type} {f : Image → α → Image}
    (each : ∀ image a, Bounded image → Bounded (f image a)) (list : List α)
    (bounded : Bounded image) : Bounded (list.foldl f image) := by
  induction list generalizing image with
  | nil => exact bounded
  | cons a rest ih => exact ih (each image a bounded)

theorem bounded_dirZeroed (bounded : Bounded image) {d : Nat} (slot : d < fsMaxDir) :
    Bounded (zeroBytes image (dirAt d) sizeOfDirectory) := by
  have sizes : fsMaxDir = 128 ∧ sizeOfDirectory = 132 := ⟨rfl, rfl⟩
  have place := dirAt_eq d
  apply bounded_copyTo bounded
  rw [List.length_replicate]
  apply clear_of_front
  omega

theorem bounded_deleteDir (bounded : Bounded image) (name : Bytes) :
    Bounded (fsDeleteDir image name) := by
  unfold fsDeleteDir
  split
  · exact bounded
  · rename_i d found
    have slot : d < fsMaxDir := List.mem_range.mp (List.mem_of_find?_eq_some found)
    apply bounded_foldl
    · intro image i bounded
      split
      · exact bounded_dropArchive bounded i
      · exact bounded
    · exact bounded_dirZeroed bounded slot

theorem bounded_updateSeq (bounded : Bounded image) : Bounded (fsUpdateSeq image) := by
  have fields : diridField = 132 := rfl
  unfold fsUpdateSeq
  split
  · exact bounded
  · apply bounded_foldl
    · intro image n bounded
      apply bounded_copyTo
      · apply bounded_copyTo bounded
        rw [length_intBytes]
        apply @clear_of_head _ _ n
        · omega
        · omega
      · rw [length_intBytes]
        apply @clear_of_head _ _ n
        · omega
        · omega
    · apply bounded_foldl
      · intro image d bounded
        have sizes : fsMaxDir = 128 := rfl
        have place := dirAt_eq d
        have slot := d.isLt
        apply bounded_copyTo bounded
        rw [length_intBytes]
        apply clear_of_front
        omega
      · exact bounded

/-- The longest name of a directory ends in front of the first `size`. -/
theorem bounded_allocateDir (bounded : Bounded image) {name : Bytes} (admitted : Admitted name) :
    Bounded (fsAllocateDir image name).1 := by
  have room : Request.maxPreSegSize = 192 := rfl
  have short := admitted.short
  have fields : fsMaxDir = 128 ∧ nameField = 4 := ⟨rfl, rfl⟩
  unfold fsAllocateDir
  split
  · exact bounded
  · split
    · exact bounded
    · split
      · exact bounded
      · rename_i d found
        have slot : d < fsMaxDir := List.mem_range.mp (List.mem_of_find?_eq_some found)
        have place := dirAt_eq d
        apply bounded_copyTo
        · apply bounded_copyTo (bounded_dirZeroed bounded slot)
          rw [length_intBytes]
          apply clear_of_front
          omega
        · rw [length_terminated]
          apply clear_of_front
          omega

theorem sizeAt_fillFile (image : Image) {name : Bytes} {dirid size : Int} (data : Option Bytes)
    {n : Nat} (low : 0 ≤ size) (high : size < fsMaxFileSize) :
    sizeAt (fillFile image name dirid size data n) n = size := by
  have fields : dataField = 144 ∧ sizeField = 136 := ⟨rfl, rfl⟩
  rw [fillFile]
  have kept : ∀ image : Image,
      sizeAt (copyTo image (archiveAt n + dataField) (fileBytes size data)) n =
      sizeAt image n := by
    intro image
    apply sizeAt_congr
    rintro address ⟨lower, upper⟩
    apply copyTo_outside
    rintro ⟨first, last⟩
    push_cast at upper
    omega
  rw [kept]
  exact sizeAt_writeInt _ n low (Int.le_of_lt high)

theorem bounded_allocateFile (bounded : Bounded image) {name : Bytes} (admitted : Admitted name)
    (dirid size : Int) (data : Option Bytes) :
    Bounded (fsAllocateFile image name dirid size data).1 := by
  have room : Request.maxPreSegSize = 192 := rfl
  have short := admitted.short
  have marked : ∀ n, n < fsMaxArch → Bounded (setBit image n) := by
    intro n section_
    have sections : fsMaxArch = 256 := rfl
    apply bounded_copyTo bounded
    rw [List.length_singleton]
    apply clear_of_front
    omega
  unfold fsAllocateFile
  split
  · exact bounded
  · rename_i bounds
    have low : 0 ≤ size := by
      by_contra negative
      exact bounds (Or.inl (by omega))
    have high : size < fsMaxFileSize := by
      by_contra large
      exact bounds (Or.inr (Or.inr (by omega)))
    split
    · exact bounded
    · split
      · rename_i image' located
        rw [fsSeekFreeFileLocation] at located
        cases free : fsSearchFreeSection image with
        | none =>
          rw [free] at located
          cases located
          exact bounded
        | some n =>
          rw [free] at located
          dsimp only at located
          split at located
          · cases located
          · cases located
            exact marked n (List.mem_range.mp (List.mem_of_find?_eq_some free))
      · rename_i image' n located
        obtain ⟨section_, rfl⟩ := fsSeekFreeFileLocation_of_found located
        intro m inside
        by_cases here : m = n
        · subst here
          rw [sizeAt_fillFile _ data low high]
          exact ⟨low, high⟩
        · have kept : sizeAt (fillFile (setBit image n) name dirid size data n) m =
              sizeAt (setBit image n) m := by
            have fields : sizeField = 136 ∧ sizeOfArchive = 8336 := ⟨rfl, rfl⟩
            apply sizeAt_congr
            rintro address ⟨lower, upper⟩
            apply fillFile_other (by omega) high
            rintro ⟨first, last⟩
            have place := archiveAt_eq n
            have other := archiveAt_eq m
            push_cast at upper
            omega
          dsimp only
          rw [kept]
          exact marked n section_ m inside

theorem bounded_empty : Bounded empty := by
  have zero : ∀ n, sizeAt empty n = 0 := fun n => readInt_empty _
  intro n _
  rw [zero n]
  exact ⟨Int.le_refl 0, by decide⟩

end Functions

end PackedFiles
