import AsmTest.Lib.ProbeTable
import AsmTest.Lib.LastWriter
import AsmTest.Lib.Worklist
import AsmTest.Lib.Csr
import AsmTest.Lib.Walk
import AsmTest.Lib.OrderedMap
import AsmTest.Lib.Json
import AsmTest.Lib.JsonText
import AsmTest.ValTrace
import AsmTest.LwMap
import AsmTest.RegSlice
import AsmTest.DefUse
import AsmTest.Footprint
import AsmTest.Slice
import AsmTest.Method
import AsmTest.Helpers
import AsmTest.Summaries
import AsmTest.GcMove
import AsmTest.ObjId
import AsmTest.CodeImage
import AsmTest.Trace
import AsmTest.Disas
import AsmTest.Execution
import AsmTest.AmdReplay
import AsmTest.ReplayExact
import AsmTest.ReplayHonest
import AsmTest.BsRecon
import AsmTest.Blockstep
import AsmTest.SsBtf
import AsmTest.Descent
import AsmTest.Activation
import AsmTest.DescentExact
import AsmTest.PtraceStep
import AsmTest.BlockstepExact
import AsmTest.Recording
import AsmTest.RecordingUnion
import AsmTest.Streams
import AsmTest.UnionPasses
import AsmTest.NdjsonDf
import AsmTest.DfRoundTrip
import AsmTest.StateDiff
import AsmTest.StateDiffExact
import AsmTest.Lib.Bfs
import AsmTest.Fabric
import AsmTest.FabricHops
import AsmTest.Lineage
import AsmTest.SsFrames
import AsmTest.WindowGuards
import AsmTest.StepParity
import AsmTest.ScopeClose
import AsmTest.AddrChannel
import AsmTest.WindowLoop
import AsmTest.WindowWalk
import AsmTest.WindowComplete
import AsmTest.WindowParity
import AsmTest.Lib.Bsp
import AsmTest.AmdStitch
import AsmTest.VecAlias
import AsmTest.PtReplay
import AsmTest.RunParallel
import AsmTest.LiveSession
import AsmTest.Projection
import AsmTest.AtlasLayout
import AsmTest.AtlasLookup
import AsmTest.DfpStepLoop
import AsmTest.ScopedComplete
import AsmTest.Lib.Closure
import AsmTest.Lib.Influence
import AsmTest.TakeView
import AsmTest.TakeCone
import AsmTest.HelperPointers
import AsmTest.ObjIdExact
import AsmTest.Lib.JsonString
import AsmTest.EscapeExact
import AsmTest.Lib.Fips180
import AsmTest.Sha256
import AsmTest.Lib.Wildcard
import AsmTest.GlobMatch
import AsmTest.GlobClass
import AsmTest.StreamsExact
import AsmTest.Lib.Hops
import AsmTest.DtWalk
import AsmTest.LineageSelect
import AsmTest.AutoRegion
import AsmTest.StepOver
import AsmTest.ValSink
import AsmTest.Lib.SelfDelimiting
import AsmTest.Vmmap
import AsmTest.IbsBlocks
import AsmTest.Extents
import AsmTest.StealthCopy
import AsmTest.Lib.ExchangeSort
import AsmTest.HopStitch
import AsmTest.AmdSpaced
import AsmTest.CaptureBounds
import AsmTest.Lib.FreeBits
import AsmTest.UndefFlags
import AsmTest.GapBarrier
import AsmTest.GapRuns
import AsmTest.GapCourses
import AsmTest.GapEdges
import AsmTest.GapLoops
import AsmTest.Lib.Hilbert
import AsmTest.HilbertCurve
import AsmTest.Lib.Packing
import AsmTest.HilbertLookup
import AsmTest.RegionCells
import AsmTest.Lib.Nesting
import AsmTest.TreeFilter
import AsmTest.Lib.Endian
import AsmTest.Lib.Scan
import AsmTest.Jitdump
import AsmTest.JitdumpReads
import AsmTest.JitdumpFormat
import AsmTest.JitdumpLookup
import AsmTest.Lib.Intervals
import AsmTest.ObservedSpans
import AsmTest.Timeline
import AsmTest.Reweave
import AsmTest.TakeVerdicts
import AsmTest.Lib.CStr
import AsmTest.EdgeHash
import AsmTest.Ghash
import AsmTest.RegionRegistry
import AsmTest.Shrink
import AsmTest.Lib.Circular
import AsmTest.AuxDrain
import AsmTest.Lib.Framing
import AsmTest.AmdRing
import AsmTest.AmdTiers
import AsmTest.Lib.InPlace
import AsmTest.Selection
import AsmTest.Lib.Lines
import AsmTest.TapReport
import AsmTest.Lib.Utf8
import AsmTest.Lib.Xml
import AsmTest.JunitReport
import AsmTest.JunitEscape
import AsmTest.JunitDocument
import AsmTest.Lib.Sweep
import AsmTest.Disjointify
import AsmTest.Grow
import AsmTest.Lib.Interaction
import AsmTest.PtraceSample
import AsmTest.PtraceRules
import AsmTest.PtraceSafety
import AsmTest.PtraceRun
import AsmTest.PtraceText
import AsmTest.Lib.Numeral
import AsmTest.DeepLink
import AsmTest.Lib.Trail
import AsmTest.NavHistory
import AsmTest.Lib.RunningTotals
import AsmTest.DataTerrain
import AsmTest.DataLayers
import AsmTest.Lib.Forest
import AsmTest.ProcTree
import AsmTest.EmuFork
import AsmTest.Fuzz
