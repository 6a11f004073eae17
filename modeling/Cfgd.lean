import Cfgd.SyncFresh
import Cfgd.SyncDurable
import Cfgd.Runtime
import Cfgd.DocSearch
import Cfgd.KeyShape
import Cfgd.SearchSound
import Cfgd.KeyText
import Cfgd.PlainDoc
import Cfgd.DeleteRange
import Cfgd.DeleteTargets
import Cfgd.CopiedNames
import Cfgd.HeapEdit
import Cfgd.Reach
import Cfgd.Levels
import Cfgd.AppendSteps
import Cfgd.ReadBack
import Cfgd.UpdateCases
import Cfgd.WriteFrame
import Cfgd.WriteThenRead
import Cfgd.LoadSlots
import Cfgd.UpdateSeq
import Cfgd.Framing
import Cfgd.Reassembly
import Cfgd.PermitOverride
import Cfgd.RecoverLaw
import Cfgd.RegularTree
import Cfgd.Catalog
import Cfgd.Correspondence
import Cfgd.Saving
import Cfgd.DeleteDoc
import Cfgd.DeleteLaw
import Cfgd.KeyGrammar
import Cfgd.Payload
import Cfgd.Exchange
import Cfgd.Publish
import Cfgd.LastScope
import Cfgd.ScopeView
import Cfgd.Handlers
import Cfgd.TaskTable
import Cfgd.Pipeline
import Cfgd.WindowAccount
import Cfgd.LinkWindow
import Cfgd.StatusLines
import Cfgd.Stages
import Cfgd.AllOrNothing
import Cfgd.AvlCalls
import Cfgd.BinaryRegion
import Cfgd.ObjectTable
import Cfgd.ObjectCalls
import Cfgd.ObjectClosing
import Cfgd.ObjectHandles
import Cfgd.PackedLayout
import Cfgd.SendOrder
import Cfgd.Readiness
import Cfgd.PackedFiles
import Cfgd.FileSizes
import Cfgd.DeleteSteps
import Cfgd.HeapGrowth
import Cfgd.TreeWide
import Cfgd.ItemNumbers
import Cfgd.LittleEndian
import Cfgd.ReplyBuffer
import Cfgd.Serialize
import Cfgd.ServerConf
import Cfgd.Subscriptions
import Cfgd.FreshDatabase
import Cfgd.CList
import Cfgd.Logger
import Cfgd.PlainArrayKey
import Cfgd.LoaderNames
import Cfgd.Backing
import Cfgd.SideBySide
import Cfgd.WriteEffects
import Cfgd.ChangeNotice
import Cfgd.LoadedTree
import Cfgd.CheckpointFiles
import Cfgd.RingBuffer
import Cfgd.Base64
import Cfgd.Des
import Cfgd.Ipv4Text
import Cfgd.StringCompare
import Cfgd.Encrypt
import Cfgd.MatrixMemory
import Cfgd.BinaryHeap
import Cfgd.PriorityTask
import Cfgd.EtcPairs
import Cfgd.EtcTexts
import Cfgd.Coherence
import Cfgd.WrittenDocument
import Cfgd.Restart
import Cfgd.MatrixBounds
import Cfgd.HexStream
import Cfgd.JsonText
import Cfgd.JsonBounds
import Cfgd.JsonAccepted
import Cfgd.JsonRoundTrip
import Cfgd.JsonEscapes
import Cfgd.JsonPrinting
import Cfgd.DirRequests
import Cfgd.SavedTexts
import Cfgd.AnsweredAlike
import Cfgd.StartUp
import Cfgd.Buckets
import Cfgd.DictCalls
import Cfgd.DictLoad
import Cfgd.DictScan
import Cfgd.DictIterator
import Cfgd.TcpWrite
