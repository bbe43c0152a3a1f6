import Tartine.Basis.Action
import Tartine.Basis.Bytes
import Tartine.Basis.Decoder
import Tartine.Basis.FrameLog
import Tartine.Basis.FrameStore
import Tartine.Basis.Greedy
import Tartine.Basis.Numeral
import Tartine.Basis.Ordered
import Tartine.Basis.ShiftRegister
import Tartine.Basis.SquareLog
import Tartine.Basis.TopSet
import Tartine.Proto
import Tartine.Kcore.Placement
import Tartine.Kcore.LogAccuracy
import Tartine.Kcore.PlacementGreedy
import Tartine.Kcore.PlacementGuarantees
import Tartine.Kcore.PlacementOrder
import Tartine.Kcore.PlacementRanking
import Tartine.Kcore.PlacementWeight
import Tartine.Kcore.ScoreOrder
import Tartine.Kcore.WritePath
import Tartine.Core.Disk
import Tartine.Core.Crc32c
import Tartine.Core.Placement
import Tartine.Core.PlacementOrder
import Tartine.Core.RedundancySpec
import Tartine.Core.Segment
import Tartine.Core.SegmentRecovery
import Tartine.Meta.Codec
import Tartine.Meta.CodecRoundTrip
import Tartine.Meta.Wal
import Tartine.Meta.LogScan
import Tartine.Meta.Store
import Tartine.Meta.Replay
import Tartine.Meta.Recovery
import Tartine.Meta.Durability
import Tartine.Meta.Rejection
import Tartine.Meta.TornWrite
import Tartine.Meta.Corruption
import Tartine.Meta.Pool
import Tartine.Meta.PoolStep
import Tartine.Meta.Directory
import Tartine.Meta.PoolRun
import Tartine.Meta.PoolData
import Tartine.Meta.Layout
import Tartine.Meta.Capacity
import Tartine.Meta.PoolLog
import Tartine.Meta.Table
import Tartine.Meta.PoolRecords
import Tartine.Meta.PoolContent
import Tartine.Meta.PoolFaults
import Tartine.Meta.PoolTable
import Tartine.Meta.PoolPolicy
import Tartine.Meta.PoolRefinement
import Tartine.Meta.PoolReopen
import Tartine.Meta.PoolAppend
import Tartine.Meta.PoolProgress
import Tartine.Meta.PoolRoot
import Tartine.Meta.WholeFile
import Tartine.Fuse.Ioctl
import Tartine.Fuse.PolicyWire
import Tartine.Fuse.Fs
import Tartine.Fuse.Requests
import Tartine.Fuse.Listing
import Tartine.Fuse.TableInvariant
import Tartine.Fuse.Policies
import Tartine.Kernel.Ioctl
import Tartine.Kernel.Policies
import Tartine.Fuse.Conversion
import Tartine.Fuse.Immutability
import Tartine.Fuse.Resize
import Tartine.Daemon.Host
import Tartine.Daemon.History
import Tartine.Meta.PolicyRoom
import Tartine.Basis.Simulation
import Tartine.Fuse.FileSystem
import Tartine.Fuse.Mirror
import Tartine.Fuse.Refinement
import Tartine.Fuse.Answered
import Tartine.Fuse.Restart
import Tartine.Fuse.Durable
import Tartine.Meta.Room
import Tartine.Fuse.Exact
