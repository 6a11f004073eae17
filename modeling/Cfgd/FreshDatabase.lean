import Cfgd.PackedFiles
import Cfgd.SyncProtocol

/-!
# A database made anew

A database file that has not the size of the layout is overwritten by
`fs_zerolization_range` with a block from the heap, of which `memset` clears as many bytes
as an `int` has. `fs_load_config_database` then reads the file back and numbers what it
finds. A read that stops early counts as a success, and leaves the rest of the second block
as the heap gave it.
-/

namespace FreshDatabase

open CText ByteImage PackedLayout PackedFiles
open FsImage (fsMaxDir fsMaxArch intBytes bytesInt FsLayout)
open SlotTables (DirActive dirIdOf)

/-- What the calls of one load give back. `heap` is the block that `malloc` found for the
zeroes and `buffer` the one that the file is read into. `written` is how many bytes
`ifos_file_write` has written, less than all when the disk is full, and `fileWrite` its
answer: this number, or an error on the way. -/
structure Calls where
  fileOpen : Bool
  fileSize : Bool
  malloc : Bool
  heap : Bytes
  block : heap.length = layoutSize
  written : Nat
  bound : written ≤ layoutSize
  fileWrite : Int
  answer : (fileWrite < 0 ∧ written < layoutSize) ∨ fileWrite = written
  fileRead : Bool
  buffer : Bytes
  room : buffer.length = layoutSize

/-- `fs_zerolization_range`: the file and the answer. -/
def fsZerolizationRange (calls : Calls) (size : Nat) (file : Bytes) : Bytes × Int :=
  if size = 0 then (file, -1)
  else if !calls.malloc then (file, -12)
  else
    let zeroization := List.replicate 4 0 ++ calls.heap.drop 4
    (zeroization.take calls.written ++ file.drop calls.written, calls.fileWrite)

/-- The bytes of a file in memory. -/
def imageOf (bytes : Bytes) : Image := fun address =>
  if 0 ≤ address then bytes.getD address.toNat 0 else 0

/-- What is in `buffer` when as much of the file as fits was read. -/
def readInto (buffer file : Bytes) : Bytes := file.take layoutSize ++ buffer.drop file.length

/-- What a load leaves: the file, and the layout that it installs, if it succeeds. -/
structure Load where
  file : Bytes
  config : Option Image

/-- `fs_load_config_database` -/
def fsLoadConfigDatabase (calls : Calls) (file : Bytes) : Load :=
  if !calls.fileOpen ∨ !calls.fileSize then ⟨file, none⟩
  else
    let made := if file.length ≠ layoutSize then fsZerolizationRange calls layoutSize file
      else (file, 0)
    if made.2 < 0 ∨ !calls.fileRead then ⟨made.1, none⟩
    else ⟨made.1, some (fsUpdateSeq (imageOf (readInto calls.buffer made.1)))⟩

/-- Every byte of the layout is zero. -/
def AllZero (image : Image) : Prop := ∀ address, Covers 0 layoutSize address → image address = 0

/-- The first block is zero as far as it is written behind its first four bytes, the file
where the write does not reach, and the second block where the file has then still no
bytes. -/
def CleanHeap (calls : Calls) (file : Bytes) : Prop :=
  ∀ i < layoutSize,
    if i < calls.written then 4 ≤ i → calls.heap[i]? = some 0
    else if i < file.length then file[i]? = some 0
    else calls.buffer[i]? = some 0

section Ints

theorem intBytes_bytesInt {s : Bytes} (size : s.length = 4) : intBytes (bytesInt s) = s := by
  obtain ⟨a, b, c, d, rfl⟩ := List.length_eq_four.mp size
  have ha := a.toNat_lt
  have hb := b.toNat_lt
  have hc := c.toNat_lt
  have hd := d.toNat_lt
  have whole : (BitVec.ofInt 32 (bytesInt [a, b, c, d])).toNat =
      a.toNat + 256 * (b.toNat + 256 * (c.toNat + 256 * d.toNat)) := by
    rw [bytesInt, BitVec.ofInt_toInt, BitVec.toNat_ofNat]
    simp only [List.foldr_cons, List.foldr_nil, Nat.mul_zero, Nat.add_zero]
    omega
  rw [intBytes, whole]
  have byte : ∀ {n : Nat} {x : UInt8}, n = x.toNat → n.toUInt8 = x := by
    rintro n x rfl
    exact UInt8.ofNat_toNat
  simp only [List.range, List.range.loop, List.map_cons, List.map_nil, List.cons.injEq, and_true]
  refine ⟨byte ?_, byte ?_, byte ?_, byte ?_⟩
  · omega
  · omega
  · omega
  · omega

/-- An `int` that is written back where it was read changes nothing. -/
theorem writeInt_readInt (image : Image) (address : Int) :
    writeInt image address (readInt image address) = image := by
  rw [writeInt, readInt, intBytes_bytesInt (length_load _ _ _)]
  funext place
  by_cases inside : Covers address (load image address 4).length place
  · obtain ⟨low, high⟩ := inside
    have bound : (place - address).toNat < (load image address 4).length := by omega
    rw [copyTo_at bound (by omega), getElem_load]
    congr 1
    omega
  · exact copyTo_outside inside

end Ints

section Folds
variable {α : Type} {f : Image → α → Image} {l : List α}

theorem foldl_same {image : Image} (same : ∀ x ∈ l, f image x = image) :
    l.foldl f image = image := by
  induction l with
  | nil => rfl
  | cons x rest ih =>
    obtain ⟨here, later⟩ := List.forall_mem_cons.mp same
    rw [List.foldl_cons, here, ih later]

/-- Writes elsewhere leave a byte alone. -/
theorem foldl_apart {address : Int} (apart : ∀ image, ∀ x ∈ l, f image x address = image address)
    (image : Image) : l.foldl f image address = image address := by
  induction l generalizing image with
  | nil => rfl
  | cons x rest ih =>
    rw [List.foldl_cons, ih (fun image x mem => apart image x (List.mem_cons_of_mem _ mem))]
    exact apart image x List.mem_cons_self

end Folds

section Numbering
variable {image : Image}

theorem slots_dir (image : Image) (d : Fin fsMaxDir) :
    ((slots image).dir d).id = readInt image (dirAt d) := rfl

theorem slots_archive (image : Image) (n : Fin fsMaxArch) :
    ((slots image).archive n).id = readInt image (archiveAt n) ∧
      ((slots image).archive n).dirid = readInt image (archiveAt n + diridField) := by
  rw [slots]
  exact ⟨rfl, rfl⟩

/-- The ids of a layout written into an image. -/
def writeDir (layout : FsLayout) (image : Image) (d : Fin fsMaxDir) : Image :=
  writeInt image (dirAt d) (layout.dir d).id

def writeArchive (layout : FsLayout) (image : Image) (n : Fin fsMaxArch) : Image :=
  writeInt (writeInt image (archiveAt n + diridField) (layout.archive n).dirid)
    (archiveAt n) (layout.archive n).id

theorem fsUpdateSeq_eq {layout : FsLayout}
    (run : UpdateSeq.fsUpdateSeq (slots image) = some layout) :
    fsUpdateSeq image = (List.finRange fsMaxArch).foldl (writeArchive layout)
      ((List.finRange fsMaxDir).foldl (writeDir layout) image) := by
  unfold fsUpdateSeq
  simp only [run]
  rfl

/-- Where no directory has an id, nothing is renumbered. -/
theorem fsUpdateSeq_idle (idle : ∀ d : Fin fsMaxDir, ¬ DirActive (slots image) d) :
    fsUpdateSeq image = image := by
  have same := UpdateSeq.fsUpdateSeq_same fun d active => absurd active (idle d)
  have dirs : ∀ d ∈ List.finRange fsMaxDir, writeDir (slots image) image d = image := by
    intro d _
    rw [writeDir, slots_dir, writeInt_readInt]
  have archives : ∀ n ∈ List.finRange fsMaxArch, writeArchive (slots image) image n = image := by
    intro n _
    rw [writeArchive, (slots_archive image n).1, (slots_archive image n).2, writeInt_readInt,
      writeInt_readInt]
  rw [fsUpdateSeq_eq same, foldl_same dirs, foldl_same archives]

/-- The write of one slot leaves what is outside of it. -/
theorem writeDir_outside (layout : FsLayout) (image : Image) {d : Fin fsMaxDir} {address : Int}
    (outside : ¬ Covers (dirAt d) 4 address) : writeDir layout image d address = image address :=
  copyTo_outside outside

theorem writeArchive_before (layout : FsLayout) (image : Image) (n : Fin fsMaxArch) {address : Int}
    (before : address < archiveAt 0) : writeArchive layout image n address = image address := by
  have first := archiveAt_eq 0
  have here := archiveAt_eq n
  have field : diridField = 132 := rfl
  have inner : ¬ Covers (archiveAt n + diridField) (intBytes (layout.archive n).dirid).length
      address := by
    rintro ⟨low, -⟩
    omega
  have outer : ¬ Covers (archiveAt n) (intBytes (layout.archive n).id).length address := by
    rintro ⟨low, -⟩
    omega
  rw [writeArchive, writeInt, copyTo_outside outer, writeInt, copyTo_outside inner]

/-- The id of a directory after all of them were written. -/
theorem load_dirs (layout : FsLayout) (image : Image) (d : Fin fsMaxDir) :
    load ((List.finRange fsMaxDir).foldl (writeDir layout) image) (dirAt d) 4 =
      intBytes (layout.dir d).id := by
  obtain ⟨front, back, split⟩ := List.append_of_mem (List.mem_finRange d)
  have nodup := List.nodup_finRange fsMaxDir
  rw [split] at nodup
  have later : d ∉ back := (List.nodup_cons.mp (List.nodup_append.mp nodup).2.1).1
  rw [split, List.foldl_append, List.foldl_cons]
  generalize front.foldl (writeDir layout) image = start
  have written : load (writeDir layout start d) (dirAt d) 4 = intBytes (layout.dir d).id :=
    load_copyTo start (dirAt d) (intBytes (layout.dir d).id)
  rw [← written]
  refine load_congr fun address inside => ?_
  refine foldl_apart (fun image e mem => writeDir_outside layout image ?_) _
  intro other
  have here := dirAt_eq d
  have there := dirAt_eq e
  obtain ⟨low, high⟩ := inside
  obtain ⟨low', high'⟩ := other
  have same : (d : Nat) = e := by omega
  exact later (Fin.ext same ▸ mem)

/-- After renumbering, a directory in use has the id of its slot. -/
theorem load_dirAt {d : Fin fsMaxDir} (active : DirActive (slots image) d) :
    load (fsUpdateSeq image) (dirAt d) 4 = intBytes (dirIdOf d) := by
  have id : UpdateSeq.renumbered (slots image) d = ⟨dirIdOf d, ((slots image).dir d).name⟩ :=
    if_pos active
  obtain ⟨layout, run, dirs⟩ : ∃ layout, UpdateSeq.fsUpdateSeq (slots image) = some layout ∧
      layout.dir = UpdateSeq.renumbered (slots image) := by
    refine ⟨_, UpdateSeq.fsUpdateSeq_eq (slots image), ?_⟩
    split <;> rfl
  have whole := load_dirs layout image d
  rw [dirs, id] at whole
  rw [← whole, fsUpdateSeq_eq run]
  refine load_congr fun address inside => ?_
  have first := archiveAt_eq 0
  have here := dirAt_eq d
  have last : (d : Nat) < 128 := d.isLt
  obtain ⟨low, high⟩ := inside
  have before : address < archiveAt 0 := by omega
  rw [foldl_apart fun image n _ => writeArchive_before layout image n before]

theorem readInt_zero {address : Int}
    (zero : ∀ place, Covers address 4 place → image place = 0) : readInt image address = 0 := by
  have bytes : load image address 4 = List.replicate 4 0 := by
    refine List.eq_replicate_iff.mpr ⟨length_load _ _ _, fun b mem => ?_⟩
    obtain ⟨i, small, rfl⟩ := List.mem_map.mp mem
    have bound := List.mem_range.mp small
    exact zero _ ⟨by omega, by omega⟩
  rw [readInt, bytes]
  rfl

/-- Renumbering makes a zero layout of a zero layout only. -/
theorem allZero_fsUpdateSeq (image : Image) : AllZero (fsUpdateSeq image) ↔ AllZero image := by
  have size : layoutSize = 2150944 := rfl
  have dirInside : ∀ (d : Fin fsMaxDir) (place : Int), Covers (dirAt d) 4 place →
      Covers 0 layoutSize place := by
    rintro d place ⟨low, high⟩
    have here := dirAt_eq d
    have last : (d : Nat) < 128 := d.isLt
    constructor
    · omega
    · omega
  constructor
  · intro zero
    by_cases idle : ∀ d : Fin fsMaxDir, ¬ DirActive (slots image) d
    · rwa [fsUpdateSeq_idle idle] at zero
    · obtain ⟨d, active⟩ := not_forall.mp idle
      have id := load_dirAt (Decidable.not_not.mp active)
      have none := @readInt_zero (fsUpdateSeq image) (dirAt d)
        fun place inside => zero place (dirInside d place inside)
      have last : (d : Nat) < 128 := d.isLt
      rw [readInt, id, SlotTables.bytesInt_intBytes (by rw [dirIdOf]; omega)
        (by rw [dirIdOf]; omega), dirIdOf] at none
      omega
  · intro zero
    have idle : ∀ d : Fin fsMaxDir, ¬ DirActive (slots image) d := by
      intro d active
      have none := readInt_zero fun place inside => zero place (dirInside d place inside)
      rw [DirActive, slots_dir, none] at active
      exact lt_irrefl 0 active
    rwa [fsUpdateSeq_idle idle]

end Numbering

section Load
variable {calls : Calls} {file : Bytes}

theorem allZero_imageOf {bytes : Bytes} (enough : layoutSize ≤ bytes.length) :
    AllZero (imageOf bytes) ↔ ∀ i < layoutSize, bytes[i]? = some 0 := by
  have byte : ∀ i < layoutSize, imageOf bytes (i : Nat) = 0 ↔ bytes[i]? = some 0 := by
    intro i small
    rw [imageOf, if_pos (Int.natCast_nonneg i), Int.toNat_natCast, List.getD_eq_getElem?_getD,
      List.getElem?_eq_getElem (by omega), Option.getD_some, Option.some_inj]
  constructor
  · exact fun zero i small => (byte i small).mp (zero i ⟨by omega, by omega⟩)
  · rintro zero address ⟨low, high⟩
    obtain ⟨i, rfl⟩ := Int.eq_ofNat_of_zero_le low
    have small : i < layoutSize := by omega
    exact (byte i small).mpr (zero i small)

/-- The layout in memory is as long as a layout, however long the file is. -/
theorem length_readInto {buffer : Bytes} (room : buffer.length = layoutSize) (file : Bytes) :
    (readInto buffer file).length = layoutSize := by
  rw [readInto, List.length_append, List.length_take, List.length_drop, room]
  omega

/-- A byte in memory is one of the file, or what the heap held. -/
theorem readInto_getElem? (buffer file : Bytes) {i : Nat} (small : i < layoutSize) :
    (readInto buffer file)[i]? = if i < file.length then file[i]? else buffer[i]? := by
  rw [readInto]
  by_cases inside : i < file.length
  · rw [if_pos inside, List.getElem?_append_left (by rw [List.length_take]; omega),
      List.getElem?_take_of_lt small]
  · have front : (file.take layoutSize).length = file.length := by
      rw [List.length_take]
      omega
    rw [if_neg inside, List.getElem?_append_right (by omega), front, List.getElem?_drop]
    congr 1
    omega

/-- The file that a write of the block leaves. -/
def rewritten (calls : Calls) (file : Bytes) : Bytes :=
  (List.replicate 4 0 ++ calls.heap.drop 4).take calls.written ++ file.drop calls.written

theorem length_rewritten (calls : Calls) (file : Bytes) :
    (rewritten calls file).length = max calls.written file.length := by
  have block := calls.block
  have bound := calls.bound
  have size : layoutSize = 2150944 := rfl
  rw [rewritten, List.length_append, List.length_take, List.length_append, List.length_replicate,
    List.length_drop, List.length_drop]
  omega

/-- The bytes that are written and those that stay. -/
theorem rewritten_getElem? (calls : Calls) (file : Bytes) (i : Nat) : (rewritten calls file)[i]? =
    if i < calls.written then if i < 4 then some 0 else calls.heap[i]? else file[i]? := by
  have block := calls.block
  have bound := calls.bound
  have size : layoutSize = 2150944 := rfl
  have front : ((List.replicate 4 0 ++ calls.heap.drop 4).take calls.written).length =
      calls.written := by
    rw [List.length_take, List.length_append, List.length_replicate, List.length_drop]
    omega
  rw [rewritten]
  by_cases written : i < calls.written
  · rw [if_pos written, List.getElem?_append_left (by omega), List.getElem?_take_of_lt written]
    by_cases first : i < 4
    · rw [if_pos first, List.getElem?_append_left (by rw [List.length_replicate]; exact first),
        List.getElem?_replicate_of_lt first]
    · rw [if_neg first, List.getElem?_append_right (by rw [List.length_replicate]; omega),
        List.length_replicate, List.getElem?_drop]
      congr 1
      omega
  · rw [if_neg written, List.getElem?_append_right (by omega), front, List.getElem?_drop]
    congr 1
    omega

theorem zerolization_eq (calls : Calls) (file : Bytes) :
    fsZerolizationRange calls layoutSize file =
      if calls.malloc = true then (rewritten calls file, calls.fileWrite) else (file, -12) := by
  have size : ¬ layoutSize = 0 := by decide
  rw [fsZerolizationRange, if_neg size]
  cases calls.malloc <;> rfl

/-- The load of a database that is made anew. -/
theorem load_other (other : file.length ≠ layoutSize) : fsLoadConfigDatabase calls file =
    if calls.fileOpen = true ∧ calls.fileSize = true ∧ calls.malloc = true then
      ⟨rewritten calls file, if calls.fileWrite < 0 ∨ !calls.fileRead then none
        else some (fsUpdateSeq (imageOf (readInto calls.buffer (rewritten calls file))))⟩
    else ⟨file, none⟩ := by
  rw [fsLoadConfigDatabase, if_pos other, zerolization_eq]
  cases calls.fileOpen with
  | false => rfl
  | true =>
    cases calls.fileSize with
    | false => rfl
    | true =>
      cases calls.malloc with
      | false => rfl
      | true => by_cases failed : calls.fileWrite < 0 ∨ calls.fileRead = false <;> simp [failed]

/-- What a load that succeeds installs, when the file had another size. -/
theorem loaded_eq (other : file.length ≠ layoutSize) {config : Image}
    (loaded : (fsLoadConfigDatabase calls file).config = some config) :
    config = fsUpdateSeq (imageOf (readInto calls.buffer (rewritten calls file))) := by
  rw [load_other other] at loaded
  split at loaded
  · dsimp only at loaded
    split at loaded
    · cases loaded
    · exact (Option.some.inj loaded).symm
  · cases loaded

/-- A database made anew is zero exactly when the blocks from the heap were. -/
theorem freshDatabase_zero_iff (calls : Calls) (file : Bytes) (other : file.length ≠ layoutSize)
    (config : Image) (loaded : (fsLoadConfigDatabase calls file).config = some config) :
    AllZero config ↔ CleanHeap calls file := by
  have whole := length_readInto calls.room (rewritten calls file)
  rw [loaded_eq other loaded, allZero_fsUpdateSeq, allZero_imageOf whole.ge]
  refine forall_congr' fun i => forall_congr' fun small => ?_
  rw [readInto_getElem? _ _ small, length_rewritten, rewritten_getElem?]
  by_cases written : i < calls.written
  · rw [if_pos (lt_max_of_lt_left written), if_pos written, if_pos written]
    by_cases first : i < 4
    · rw [if_pos first]
      exact iff_of_true rfl fun late => absurd late (Nat.not_le.mpr first)
    · rw [if_neg first]
      exact ⟨fun h _ => h, fun h => h (Nat.not_lt.mp first)⟩
  · rw [if_neg written, if_neg written]
    by_cases inside : i < file.length
    · rw [if_pos (lt_max_of_lt_right inside), if_pos inside]
    · rw [if_neg (by omega), if_neg inside]

end Load

section Protocol

instance : SyncProtocol.LayoutImage Image where
  updateSeq := fsUpdateSeq
  zero := fun _ => 0

@[simp] theorem updateSeq_image (image : Image) :
    SyncProtocol.LayoutImage.updateSeq image = fsUpdateSeq image := rfl

/-- A file as the sync protocol sees it: a whole layout, or none. -/
def layoutOf (file : Bytes) : Option Image :=
  if file.length = layoutSize then some (imageOf file) else none

/-- The calls of a load as the sync protocol sees them. -/
def protocolCalls (calls : Calls) (file : Bytes) (rest : SyncProtocol.Calls Image) :
    SyncProtocol.Calls Image :=
  { rest with
    fileOpen := calls.fileOpen && calls.fileSize
    fileRead := calls.fileRead
    fileWrite := calls.malloc && decide ((rewritten calls file).length = layoutSize)
    heap := imageOf (rewritten calls file)
    shortRead := if calls.malloc = true ∧ 0 ≤ calls.fileWrite then
      some (imageOf (readInto calls.buffer (rewritten calls file))) else none }

/-- A file of the right size is read as a whole. -/
theorem readInto_whole {file : Bytes} (size : file.length = layoutSize) {buffer : Bytes}
    (room : buffer.length = layoutSize) : readInto buffer file = file := by
  rw [readInto, ← size, List.take_length, List.drop_eq_nil_of_le (by omega), List.append_nil]

/-- The load of the sync protocol is this one. -/
theorem load_refines (calls : Calls) (file : Bytes) (rest : SyncProtocol.Calls Image)
    (fs : SyncProtocol.FsServer Image) {disk : SyncProtocol.Disk Image}
    (there : disk SyncProtocol.configDb = layoutOf file) :
    SyncProtocol.fsLoadConfigDatabase (protocolCalls calls file rest) fs disk =
      ((fsLoadConfigDatabase calls file).config.map fun config => { fs with config },
        Function.update disk SyncProtocol.configDb
          (layoutOf (fsLoadConfigDatabase calls file).file)) := by
  have same : Function.update disk SyncProtocol.configDb (layoutOf file) = disk := by
    rw [← there, Function.update_eq_self]
  by_cases size : file.length = layoutSize
  · have found : disk SyncProtocol.configDb = some (imageOf file) := by
      rw [there, layoutOf, if_pos size]
    have load : fsLoadConfigDatabase calls file =
        ⟨file, if calls.fileOpen && calls.fileSize && calls.fileRead then
          some (fsUpdateSeq (imageOf file)) else none⟩ := by
      rw [fsLoadConfigDatabase, if_neg (not_not.mpr size)]
      dsimp only
      rw [readInto_whole size calls.room]
      cases calls.fileOpen <;> cases calls.fileSize <;> cases calls.fileRead <;> rfl
    rw [load, same, SyncProtocol.fsLoadConfigDatabase]
    cases opened : calls.fileOpen && calls.fileSize <;> cases read : calls.fileRead <;>
      simp [protocolCalls, opened, read, found]
  · have missing : disk SyncProtocol.configDb = none := by rw [there, layoutOf, if_neg size]
    have long := length_rewritten calls file
    rw [load_other size, SyncProtocol.fsLoadConfigDatabase]
    cases opened : calls.fileOpen && calls.fileSize with
    | false =>
      have failed : ¬ (calls.fileOpen = true ∧ calls.fileSize = true ∧ calls.malloc = true) := by
        rintro ⟨open_, size, _⟩
        simp [open_, size] at opened
      rw [if_neg failed, same]
      simp [protocolCalls, opened]
    | true =>
      obtain ⟨open_, size_⟩ := (Bool.and_eq_true ..).mp opened
      cases memory : calls.malloc with
      | false => simp [protocolCalls, opened, memory, missing, same]
      | true =>
        have ok : calls.fileOpen = true ∧ calls.fileSize = true ∧ true = true := ⟨open_, size_, rfl⟩
        rw [if_pos ok]
        by_cases whole : (rewritten calls file).length = layoutSize
        · -- the file has got the size of a layout, so all of it was written
          have written : ¬ calls.fileWrite < 0 := by
            have answer := calls.answer
            omega
          cases read : calls.fileRead <;> simp [protocolCalls, opened, memory, missing, whole,
            written, read, layoutOf, readInto_whole whole calls.room]
        · have none_ : Function.update disk SyncProtocol.configDb none = disk := by
            rw [← missing, Function.update_eq_self]
          by_cases failed : calls.fileWrite < 0
          · simp [protocolCalls, opened, memory, missing, whole, layoutOf, failed, none_,
              Int.not_le.mpr failed]
          · cases read : calls.fileRead <;> simp [protocolCalls, opened, memory, missing, whole,
              layoutOf, failed, none_, read, Int.not_lt.mp failed]

end Protocol

section Runs

/-- Calls that succeed, with blocks that hold the same byte everywhere. -/
def callsWith (byte : UInt8) : Calls where
  fileOpen := true
  fileSize := true
  malloc := true
  heap := List.replicate layoutSize byte
  block := List.length_replicate
  written := layoutSize
  bound := Nat.le_refl _
  fileWrite := layoutSize
  answer := Or.inr rfl
  fileRead := true
  buffer := List.replicate layoutSize byte
  room := List.length_replicate

theorem empty_other : ([] : Bytes).length ≠ layoutSize := by decide

theorem load_callsWith (byte : UInt8) : (fsLoadConfigDatabase (callsWith byte) []).config =
    some (fsUpdateSeq
      (imageOf (readInto (callsWith byte).buffer (rewritten (callsWith byte) [])))) := by
  have written : ¬ (callsWith byte).fileWrite < 0 := Int.not_lt.mpr (Int.natCast_nonneg layoutSize)
  have read : ¬ (!(callsWith byte).fileRead) = true := by
    change ¬ (!true) = true
    decide
  rw [load_other empty_other, if_pos ⟨rfl, rfl, rfl⟩]
  dsimp only
  rw [if_neg (not_or.mpr ⟨written, read⟩)]

/-- A new file, and a heap that happens to be zero. -/
theorem freshDatabase_zero_callsWith :
    ∃ config, (fsLoadConfigDatabase (callsWith 0) []).config = some config ∧ AllZero config := by
  refine ⟨_, load_callsWith 0,
    (freshDatabase_zero_iff (callsWith 0) [] empty_other _ (load_callsWith 0)).mpr ?_⟩
  intro i small
  have all : i < (callsWith 0).written := small
  rw [if_pos all]
  exact fun _ => List.getElem?_replicate_of_lt small

/-- A new file, and a heap that holds other bytes. -/
theorem freshDatabase_not_zero :
    ∃ config, (fsLoadConfigDatabase (callsWith 1) []).config = some config ∧ ¬ AllZero config := by
  refine ⟨_, load_callsWith 1, ?_⟩
  have size : layoutSize = 2150944 := rfl
  have whole := length_readInto (callsWith 1).room (rewritten (callsWith 1) [])
  have written : 4 < (callsWith 1).written := by
    change 4 < layoutSize
    omega
  have heap : (callsWith 1).heap[4]? = some 1 := List.getElem?_replicate_of_lt (by omega)
  rw [allZero_fsUpdateSeq, allZero_imageOf whole.ge]
  intro zero
  have fifth := zero 4 (by omega)
  rw [readInto_getElem? _ _ (by omega), length_rewritten, if_pos (lt_max_of_lt_left written),
    rewritten_getElem?, if_pos written, if_neg (by decide), heap] at fifth
  cases fifth

end Runs

end FreshDatabase
