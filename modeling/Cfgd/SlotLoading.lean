import Cfgd.LoadSlots
import Cfgd.SearchSound
import Cfgd.SyncProtocol
import Cfgd.UpdateSeq

/-!
# The tree that the slots hold

What `ldr_load_filesystem` builds from a layout, and what it means that a layout rebuilds
the configuration that clients read.
-/

namespace SlotLoading

open AvlTree CText CJson ConfigNode FsImage Loader Request Runtime SearchSound SyncProtocol
open UpdateSeq

variable {ν : Type} [DoubleText ν]

instance : LayoutImage FsLayout where
  updateSeq fs := (fsUpdateSeq fs).getD fs
  zero := .zero

section Load
variable (parse : Bytes → Option (Item ν))

/-- The document that the data of an archive slot parses to. -/
def documentOf (data : Bytes) : Item ν :=
  (parse (data.takeWhile (· ≠ 0))).getD (.mk 0 none .cjsonObject [])

def imageOf (fs : FsLayout) (dir : Fin fsMaxDir × List (Fin fsMaxArch)) : DirImage ν where
  ident := dir.1
  name := (fs.dir dir.1).name
  archives := dir.2.map fun s =>
    ⟨(fs.archive s).readName, (fs.archive s).fsSection, documentOf parse (fs.archive s).data⟩

/-- `ldr_load_filesystem` on an empty tree. -/
def ldrLoadFilesystem (fs : FsLayout) : Avl Node :=
  loadedRoot (((LoadSlots.ldrFilesystemLoadDir fs).getD []).map (imageOf parse fs))

end Load

/-- A key outside of `proc`. -/
def Persisted (jrp : Jrp) : Prop :=
  ∀ segm ∈ jrp.segm.head?, fold segm.name ≠ fold procName

/-- Every key under a persisted directory resolves as in the other tree. -/
def SameAnswers (root other : Avl Node) : Prop :=
  ∀ jrp, Persisted jrp → rtSearch root jrp = rtSearch other jrp

/-- Loading the image gives the configuration. -/
def Rebuilds (parse : Bytes → Option (Item ν)) (image : FsLayout) (root : Avl Node) : Prop :=
  SameAnswers (ldrLoadFilesystem parse (LayoutImage.updateSeq image)) root

end SlotLoading
