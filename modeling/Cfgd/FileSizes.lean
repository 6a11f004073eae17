import Cfgd.PackedFiles
import Cfgd.SyncProtocol

/-!
# The sizes of the archives

A file request ends the data of the archive with a zero byte. The byte lies in the slot
as long as the size is less than the room, which `fs_allocate_file` checks and
`fs_override_file` checks with another comparison.
-/

namespace FileSizes

open CText ByteImage PackedLayout PackedFiles Transition
open FsImage (fsMaxDir fsMaxArch fsMaxFileSize)
open SyncProtocol (configDb configSwap)

/-- A name that the parser hands on. -/
abbrev Name := { name : Bytes // Admitted name }

/-- The calls of the PRO thread on the cache. -/
inductive FsCall where
  | allocateDir (name : Name)
  | allocateFile (name : Name) (dirid size : Int) (data : Option Bytes)
  | readFile (sectionNo : Int)
  | overrideFile (sectionNo : Int) (jsonfiledata : Option Bytes)
  | deleteFile (sectionNo : Int)
  | deleteDir (name : Name)

def perform (image : Image) : FsCall → Image
  | .allocateDir name => (fsAllocateDir image name).1
  | .allocateFile name dirid size data => (fsAllocateFile image name dirid size data).1
  | .readFile sectionNo => (fsReadFileBysect image sectionNo).1
  | .overrideFile sectionNo text => (fsOverrideFile image sectionNo text).1
  | .deleteFile sectionNo => fsDeleteFile image sectionNo
  | .deleteDir name => fsDeleteDir image name

/-- Where the program keeps an image. `buffer` is what a task of the DPC thread has read. -/
structure State where
  cache : Image
  config : Image
  buffer : Option Image
  files : String → Option Image

/-- What the program does with images. Which of it may follow on which does not matter
here: any order is a run. -/
inductive Act where
  | call (call : FsCall)
  /-- `fs_clear_config`. -/
  | clear
  /-- The copy that `fs_sync` makes. -/
  | sync
  /-- `fs_fsync` and `fs_create_checkpoint` take the config image. -/
  | takeConfig
  /-- `fs_recover_checkpoint` takes a checkpoint. -/
  | takeFile (file : String)
  /-- The swap file or a checkpoint is written. -/
  | writeFile (file : String)
  /-- `fs_swap_database`. -/
  | swapDatabase
  /-- `fs_zerolization_range` makes a database of the memory that it has got. -/
  | rebuild (heap : Image)
  /-- `fs_load_config_database`. -/
  | load
  /-- `fs_load_config_cache`. -/
  | loadCache

def step (s : State) : Act → Option State
  | .call call => some { s with cache := perform s.cache call }
  | .clear =>
    some { s with cache := empty, config := empty, files := Function.update s.files configDb none }
  | .sync => some { s with config := s.cache }
  | .takeConfig => some { s with buffer := some s.config }
  | .takeFile file => match s.files file with
    | none => none
    | some image => some { s with buffer := some image }
  | .writeFile file => match s.buffer with
    | none => none
    | some image => some { s with files := Function.update s.files file (some image) }
  | .swapDatabase =>
    some { s with
      files :=
        Function.update (Function.update s.files configDb (s.files configSwap)) configSwap none }
  | .rebuild heap => some { s with files := Function.update s.files configDb (some heap) }
  | .load => match s.files configDb with
    | none => none
    | some image => some { s with config := fsUpdateSeq image }
  | .loadCache => some { s with cache := s.config }

/-- A server without any file. -/
def initial : State := ⟨empty, empty, none, fun _ => none⟩

/-- Every active archive has room for the terminator, and a file request changes nothing
outside the slot of the archive. -/
structure Contained (image : Image) : Prop where
  sizes : ∀ n < fsMaxArch, 0 < readInt image (archiveAt n) → sizeAt image n < fsMaxFileSize
  reads : ∀ sectionNo address,
    (∀ n, fsSearchFileBysect image sectionNo = some n →
      ¬ Covers (archiveAt n) sizeOfArchive address) →
    (fsReadFileBysect image sectionNo).1 address = image address

/-- No document of exactly the room's length is written into an active archive, and no
database made of what stood in the memory with a size out of bounds. -/
def Roomy (s : State) : Act → Prop
  | .call (.overrideFile sectionNo text) => ∀ n bytes,
    fsSearchFileBysect s.cache sectionNo = some n → text = some bytes → bytes.length ≠ fsMaxFileSize
  | .rebuild heap => Bounded heap
  | _ => True

/-! ## Runs -/

/-- Every image there is has its sizes in bounds. -/
structure Kept (s : State) : Prop where
  cache : Bounded s.cache
  config : Bounded s.config
  buffer : ∀ image, s.buffer = some image → Bounded image
  files : ∀ file image, s.files file = some image → Bounded image

theorem kept_initial : Kept initial :=
  ⟨bounded_empty, bounded_empty, fun _ none_ => absurd none_ (by nofun),
    fun _ _ none_ => absurd none_ (by nofun)⟩

theorem bounded_perform {image : Image} (bounded : Bounded image) (call : FsCall)
    (room : ∀ sectionNo text, call = .overrideFile sectionNo text → ∀ n bytes,
      fsSearchFileBysect image sectionNo = some n → text = some bytes →
        bytes.length ≠ fsMaxFileSize) : Bounded (perform image call) := by
  cases call with
  | allocateDir name => exact bounded_allocateDir bounded name.2
  | allocateFile name dirid size data => exact bounded_allocateFile bounded name.2 dirid size data
  | readFile sectionNo => exact bounded_readFile bounded sectionNo
  | overrideFile sectionNo text =>
    exact bounded_overrideFile bounded sectionNo (room sectionNo text rfl)
  | deleteFile sectionNo => exact bounded_deleteFile bounded sectionNo
  | deleteDir name => exact bounded_deleteDir bounded name

/-- A file gets an image in bounds, or none. -/
theorem bounded_update {files : String → Option Image}
    (kept : ∀ file image, files file = some image → Bounded image) (file : String)
    {content : Option Image} (new : ∀ image, content = some image → Bounded image) :
    ∀ other image, Function.update files file content other = some image → Bounded image := by
  intro other image held
  by_cases same : other = file
  · subst same
    rw [Function.update_self] at held
    exact new image held
  · rw [Function.update_of_ne same] at held
    exact kept other image held

theorem kept_step (s : State) (a : Act) (t : State) (kept : Kept s) (roomy : Roomy s a)
    (h : step s a = some t) : Kept t := by
  obtain ⟨cache, config, buffer, files⟩ := kept
  have nothing : ∀ image : Image, none = some image → Bounded image := by nofun
  cases a with
  | call call =>
    obtain rfl := Option.some.inj h
    refine ⟨bounded_perform cache call ?_, config, buffer, files⟩
    rintro sectionNo text rfl
    exact roomy
  | clear =>
    obtain rfl := Option.some.inj h
    exact ⟨bounded_empty, bounded_empty, buffer, bounded_update files _ nothing⟩
  | sync =>
    obtain rfl := Option.some.inj h
    exact ⟨cache, cache, buffer, files⟩
  | takeConfig =>
    obtain rfl := Option.some.inj h
    refine ⟨cache, config, ?_, files⟩
    rintro image ⟨⟩
    exact config
  | takeFile file =>
    rw [step] at h
    split at h
    · cases h
    · rename_i image there
      obtain rfl := Option.some.inj h
      refine ⟨cache, config, ?_, files⟩
      rintro other ⟨⟩
      exact files file image there
  | writeFile file =>
    rw [step] at h
    split at h
    · cases h
    · rename_i image there
      obtain rfl := Option.some.inj h
      refine ⟨cache, config, buffer, bounded_update files file ?_⟩
      rintro other ⟨⟩
      exact buffer image there
  | swapDatabase =>
    obtain rfl := Option.some.inj h
    refine ⟨cache, config, buffer, ?_⟩
    apply bounded_update
    · exact bounded_update files _ (files configSwap)
    · exact nothing
  | rebuild heap =>
    obtain rfl := Option.some.inj h
    refine ⟨cache, config, buffer, bounded_update files configDb ?_⟩
    rintro image ⟨⟩
    exact roomy
  | load =>
    rw [step] at h
    split at h
    · cases h
    · rename_i image there
      have loaded : Bounded (fsUpdateSeq image) := bounded_updateSeq (files configDb image there)
      obtain rfl := Option.some.inj h
      refine ⟨cache, ?_, buffer, files⟩
      dsimp only
      exact loaded
  | loadCache =>
    obtain rfl := Option.some.inj h
    exact ⟨config, config, buffer, files⟩

section Blank
variable {image : Image}

end Blank

end FileSizes
