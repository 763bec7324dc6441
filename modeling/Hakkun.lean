import Hakkun.Machine.A64.Instr
import Hakkun.Soundness.Mutex
import Hakkun.Soundness.Guard
import Hakkun.Soundness.SwitchFutex
import Hakkun.Soundness.ResultTrace
import Hakkun.Soundness.WriteRo
import Hakkun.Soundness.Hash
import Hakkun.Soundness.BakeHashes
import Hakkun.Soundness.SelfRelocation
import Hakkun.Soundness.Relocation
import Hakkun.Soundness.PoolAllocator
import Hakkun.Soundness.RoModuleList
import Hakkun.Soundness.OneOf
import Hakkun.Soundness.Map
import Hakkun.Soundness.VecContents
import Hakkun.Soundness.VecBuffers
import Hakkun.Soundness.VecLifetimes
import Hakkun.Soundness.NameCollision
import Hakkun.Soundness.VersionSets
import Hakkun.Soundness.Resolution
import Hakkun.Soundness.VersionWindow
import Hakkun.Soundness.Arena
import Hakkun.Soundness.BufferOwnership
import Hakkun.Soundness.Stream
import Hakkun.Soundness.FixedString
import Hakkun.Model.Sf.Hipc
import Hakkun.Model.Sf.Request
import Hakkun.Soundness.PointerBudget
import Hakkun.Soundness.ServiceOwnership
import Hakkun.Soundness.Candidates
import Hakkun.Soundness.WeakReferences
import Hakkun.Soundness.ReplyExtent
import Hakkun.Soundness.RequestRoundTrip
import Hakkun.Soundness.ModuleRanges
import Hakkun.Soundness.RelocationTables
import Hakkun.Soundness.InstalledState
import Hakkun.Soundness.BranchPatching
import Hakkun.Soundness.AdrpGlobal
import Hakkun.Soundness.MovImm
import Hakkun.Soundness.DataBlockSearch
import Hakkun.Soundness.Tokenizer
import Hakkun.Soundness.SymbolFile
import Hakkun.Soundness.SymbolLookup
import Hakkun.Soundness.StringSearch
import Hakkun.Soundness.MultiIterator
import Hakkun.Soundness.Crc32
import Hakkun.Soundness.WildcardBits
import Hakkun.Soundness.SpanOperations
import Hakkun.Soundness.BuildId
import Hakkun.Soundness.MapPlacement
import Hakkun.Soundness.ModuleDiscovery
import Hakkun.Soundness.MurmurFeeding
import Hakkun.Soundness.HeapCell
import Hakkun.Soundness.PcRelative
import Hakkun.Soundness.EmittedCode
import Hakkun.Soundness.LiteralPool
import Hakkun.Soundness.FailedInstall
import Hakkun.Soundness.BinarySearch
import Hakkun.Soundness.DbAgreement
import Hakkun.Soundness.AbortMessage
import Hakkun.Soundness.Uleb128
import Hakkun.Soundness.Ipv4
import Hakkun.Soundness.ModuleOrder
import Hakkun.Soundness.PackedInput
import Hakkun.Soundness.NroLayout
import Hakkun.Soundness.VertexBuffer
import Hakkun.Soundness.KernelCapabilities
import Hakkun.Soundness.HookSystem
import Hakkun.Soundness.StringCopy
import Hakkun.Soundness.VersionRoundTrip
import Hakkun.Soundness.HeapRelease
import Hakkun.Soundness.HeapRequests
import Hakkun.Soundness.HookTransparency
