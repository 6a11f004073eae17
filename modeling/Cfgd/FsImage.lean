import Cfgd.CText
import Mathlib.Data.List.FinRange
import Mathlib.Logic.Function.Basic

/-!
# The slots of the fs layout

`struct fs_config_layout`: a bit for each archive section, a table of directory
slots and a table of archive slots. A slot is packed, so a name that does not fit
into the 128 bytes of `name` and `unused` runs on into the members behind them.
-/

namespace FsImage

open CText

def fsMaxDir : Nat := 128
def fsMaxArch : Nat := 256
def fsMaxFileSize : Nat := 8192

/-- The bytes of `name` and `unused`. -/
def nameRoom : Nat := 128

structure FsDirectory where
  id : Int
  name : Bytes
  deriving DecidableEq, Repr

/-- `name` is what was written into `name` and `unused`, `data` what was written from
the start of `data`; all behind it is zero. -/
structure FsArchive where
  id : Int
  name : Bytes
  dirid : Int
  size : Int
  fsSection : Int
  data : Bytes
  deriving DecidableEq, Repr

structure FsLayout where
  mask : Fin fsMaxArch → Bool
  dir : Fin fsMaxDir → FsDirectory
  archive : Fin fsMaxArch → FsArchive

def FsDirectory.zero : FsDirectory := ⟨0, []⟩

def FsArchive.zero : FsArchive := ⟨0, [], 0, 0, 0, []⟩

/-- The bytes of a little-endian 32-bit `int`. -/
def intBytes (n : Int) : Bytes :=
  (List.range 4).map fun i => ((BitVec.ofInt 32 n).toNat / 256 ^ i % 256).toUInt8

def bytesInt (bytes : Bytes) : Int :=
  (BitVec.ofNat 32 (bytes.foldr (fun b n => b.toNat + 256 * n) 0)).toInt

/-- The `int` at an offset behind the start of `name` after `strcpy` of a name. -/
def overrun (offset : Nat) (name : Bytes) (old : Int) : Int :=
  bytesInt (((name ++ [0]).drop offset).take 4 ++
    (intBytes old).drop (((name ++ [0]).drop offset).take 4).length)

/-- `strcpy` into the name of an archive slot. -/
def FsArchive.setName (archive : FsArchive) (name : Bytes) : FsArchive where
  id := archive.id
  name := name.take nameRoom
  dirid := overrun nameRoom name archive.dirid
  size := overrun (nameRoom + 4) name archive.size
  fsSection := overrun (nameRoom + 8) name archive.fsSection
  data := if name.length < nameRoom + 12 then archive.data
    else name.drop (nameRoom + 12) ++ archive.data.drop (name.length - (nameRoom + 12))

/-- The name as a C string, read on into the members behind it while no byte is zero. -/
def FsArchive.readName (archive : FsArchive) : Bytes :=
  if archive.name.length < nameRoom then archive.name
  else (archive.name ++ intBytes archive.dirid ++ intBytes archive.size ++
    intBytes archive.fsSection ++ archive.data).takeWhile (· ≠ 0)

def fsSearchDirByname (fs : FsLayout) (name : Bytes) : Option FsDirectory :=
  ((List.finRange fsMaxDir).find? fun i =>
    strcasecmp name (fs.dir i).name = .eq ∧ (fs.dir i).id > 0).map fs.dir

def procName : Bytes := ofChars ['p', 'r', 'o', 'c']

def fsSeekFreeDirLocation (fs : FsLayout) : Option (Fin fsMaxDir) :=
  (List.finRange fsMaxDir).find? fun i => (fs.dir i).id ≤ 0

/-- `fs_allocate_dir`. A name that does not end within its slot has no result. -/
def fsAllocateDir (fs : FsLayout) (name : Bytes) : Option (FsLayout × Int) :=
  if strcasecmp name procName = .eq then some (fs, -17)
  else if (fsSearchDirByname fs name).isSome then some (fs, -17)
  else match fsSeekFreeDirLocation fs with
    | none => some (fs, -1)
    | some n =>
      if nameRoom ≤ name.length then none
      else
        let newnode : FsDirectory := ⟨(1 + n) * 65536, name⟩
        some ({ fs with dir := Function.update fs.dir n newnode }, newnode.id)

def fsSearchFreeSection (fs : FsLayout) : Option (Fin fsMaxArch) :=
  (List.finRange fsMaxArch).find? fun i => fs.mask i = false

def fsSearchFileByname (fs : FsLayout) (name : Bytes) (dirid : Int) :
    Option (Fin fsMaxArch) :=
  (List.finRange fsMaxArch).find? fun i =>
    (fs.archive i).dirid = dirid ∧ strcasecmp (fs.archive i).readName name = .eq

def fsSearchFileBysect (fs : FsLayout) (sectionNo : Int) : Option (Fin fsMaxArch) :=
  (List.finRange fsMaxArch).find? fun i => (i : Int) = sectionNo ∧ (fs.archive i).id > 0

def fsSetSectionBitmask (fs : FsLayout) (index : Int) (used : Bool) : FsLayout :=
  { fs with mask := fun i => if (i : Int) = index then used else fs.mask i }

/-- `fs_seek_free_file_location`: the bit is taken before the slot is looked at. -/
def fsSeekFreeFileLocation (fs : FsLayout) : FsLayout × Option (Fin fsMaxArch) :=
  match fsSearchFreeSection fs with
  | none => (fs, none)
  | some n =>
    let fs := fsSetSectionBitmask fs n true
    if (fs.archive n).id ≤ 0 then (fs, some n) else (fs, none)

/-- `fs_allocate_file`. A negative answer is -1 or `-EEXIST`; otherwise it is the
section that the slot holds after its name was copied in. -/
def fsAllocateFile (fs : FsLayout) (name : Bytes) (dirid size : Int) (data : Option Bytes) :
    FsLayout × Int :=
  if size < 0 ∨ dirid ≤ 0 ∨ fsMaxFileSize ≤ size then (fs, -1)
  else if (fsSearchFileByname fs name dirid).isSome then (fs, -17)
  else match fsSeekFreeFileLocation fs with
    | (fs, none) => (fs, -1)
    | (fs, some n) =>
      let named := ({ FsArchive.zero with
        id := dirid + n + 1, dirid := dirid, fsSection := n } : FsArchive).setName name
      let archive := { named with
        size := size
        data := match data with
          | none => named.data
          | some data => data.take size.toNat ++ named.data.drop size.toNat }
      ({ fs with archive := Function.update fs.archive n archive }, archive.fsSection)

/-- `fs_override_file`, with the text that `cJSON_PrintUnformatted` made of the document.
The last component says whether `fs_append_sync` was called. -/
def fsOverrideFile (fs : FsLayout) (sectionNo : Int) (jsonfiledata : Option Bytes) :
    FsLayout × Int × Bool :=
  match fsSearchFileBysect fs sectionNo, jsonfiledata with
  | some n, some text =>
    if text.length ≤ fsMaxFileSize then
      let archive := { fs.archive n with size := text.length, data := text }
      ({ fs with archive := Function.update fs.archive n archive }, 0, true)
    else (fs, 0, false)
  | _, _ => (fs, -1, false)

def fsDeleteFile (fs : FsLayout) (sectionNo : Int) : FsLayout :=
  match fsSearchFileBysect fs sectionNo with
  | none => fs
  | some n =>
    let fs := fsSetSectionBitmask fs (fs.archive n).fsSection false
    { fs with archive := Function.update fs.archive n .zero }

/-- The directory slot found and every archive slot that carries its id are cleared. -/
def fsDeleteDir (fs : FsLayout) (name : Bytes) : FsLayout :=
  match (List.finRange fsMaxDir).find? fun i =>
      strcasecmp name (fs.dir i).name = .eq ∧ (fs.dir i).id > 0 with
  | none => fs
  | some d =>
    let dirid := (fs.dir d).id
    let fs := { fs with dir := Function.update fs.dir d .zero }
    (List.finRange fsMaxArch).foldl (fun fs i =>
      if (fs.archive i).id > 0 ∧ (fs.archive i).dirid = dirid then
        let fs := fsSetSectionBitmask fs (fs.archive i).fsSection false
        { fs with archive := Function.update fs.archive i .zero }
      else fs) fs

/-- The layout of a server without any configuration, which `fs_clear_config` leaves. -/
def FsLayout.zero : FsLayout := ⟨fun _ => false, fun _ => .zero, fun _ => .zero⟩

def fsClearConfig (_ : FsLayout) : FsLayout := .zero

end FsImage
