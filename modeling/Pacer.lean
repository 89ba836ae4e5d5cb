import Pacer.Lib.Run
import Pacer.Lib.PopWhile
import Pacer.Core.F64
import Pacer.Core.LimboBag
import Pacer.Core.AnnouncementTable
import Pacer.Core.ThreadState
import Pacer.Core.Scc
import Pacer.Core.PacerSystem
import Pacer.Store.Model
import Pacer.Store.Chain
import Pacer.Store.Protection
import Pacer.Store.Completeness
import Pacer.Reclaim.Backlog
import Pacer.Reclaim.DrainComplete
import Pacer.Reclaim.BagHistory
import Pacer.Atomic.SccSteps
import Pacer.Atomic.SccInvariant
import Pacer.Atomic.SccClaim
import Pacer.Atomic.SccMonotone
import Pacer.Atomic.SccWindow
import Pacer.Atomic.SccRate
import Pacer.Atomic.SystemSteps
import Pacer.Atomic.TableSteps
import Pacer.Atomic.Scan
import Pacer.Atomic.Registration
import Pacer.Atomic.ScanSound
import Pacer.Atomic.Coordinator
import Pacer.Atomic.SnapshotCut
import Pacer.Atomic.EpochCount
import Pacer.Atomic.Announce
import Pacer.Lib.TokenRing
import Pacer.Reclaimer.Model
import Pacer.Reclaimer.Ring
import Pacer.Reclaimer.Bags
import Pacer.Reclaimer.GracePeriod
import Pacer.Reclaimer.RecordTypes
import Pacer.Ffi.Model
import Pacer.Ffi.Steps
import Pacer.Ffi.GracePeriod
import Pacer.Ffi.Clock
import Pacer.Ffi.Stamps
import Pacer.Ffi.Cadence
import Pacer.Reclaimer.Thread
import Pacer.Reclaimer.Lag
import Pacer.Reclaimer.TokenCount
import Pacer.Reclaimer.Lifecycle
import Pacer.Lib.Hysteresis
import Pacer.Control.Selector
import Pacer.Control.NoFlapping
import Pacer.Lib.Ema
import Pacer.Control.Rounds
import Pacer.Control.Settling
import Pacer.Control.Stride
import Pacer.Control.Parameters
import Pacer.Reclaimer.Controller
import Pacer.Reclaimer.Regulation
import Pacer.Lib.Histogram
import Pacer.Instr.Bucket
import Pacer.Instr.Stats
import Pacer.Instr.Percentile
import Pacer.Lib.Binary64
import Pacer.Instr.Report
import Pacer.Lib.TextSearch
import Pacer.Instr.Parse
import Pacer.Instr.Sweep
import Pacer.Lib.Separators
import Pacer.Lib.RangeGraph
import Pacer.Lib.Linearizable
import Pacer.Abtree.Node
import Pacer.Abtree.Provider
import Pacer.Abtree.Model
import Pacer.Abtree.Invariant
import Pacer.Abtree.Change
import Pacer.Abtree.Leaves
import Pacer.Abtree.Weight
import Pacer.Abtree.Degree
import Pacer.Abtree.Content
import Pacer.Abtree.Steps
import Pacer.Abtree.Threads
import Pacer.Abtree.Commit
import Pacer.Abtree.Safety
import Pacer.Abtree.Balance
import Pacer.Abtree.Retire
import Pacer.Abtree.Guard
import Pacer.Abtree.History
import Pacer.Managed.Model
import Pacer.Managed.Frame
import Pacer.Managed.Pool
import Pacer.Managed.Pace
import Pacer.Managed.Safety
import Pacer.Managed.Progress
