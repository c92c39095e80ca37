import Cmem.Core.LTS
import Cmem.Core.Links
import Cmem.Core.Bits
import Cmem.Core.Boxes
import Cmem.Core.Bytes
import Cmem.Core.Owners
import Cmem.L1Layout.Block
import Cmem.L1Layout.Flags
import Cmem.L1Layout.Snapshot
import Cmem.L1Layout.IdList
import Cmem.L2Arena.Model
import Cmem.L2Arena.Insert
import Cmem.L2Arena.Ops
import Cmem.L2Arena.Run
import Cmem.L2Arena.Payload
import Cmem.L2Arena.Validate
import Cmem.L2Arena.Retire
import Cmem.L2Arena.Release
import Cmem.L2Tlsf.Model
import Cmem.L2Tlsf.Index
import Cmem.L2Tlsf.Gap
import Cmem.L2Tlsf.Ops
import Cmem.L2Tlsf.Pool
import Cmem.L2Tlsf.Heap
import Cmem.L2Tlsf.Cache
import Cmem.L2Tlsf.Run
import Cmem.L2Tlsf.Calls
import Cmem.L2Tlsf.Contents
import Cmem.L2Arena.Calls
import Cmem.L2Tlsf.Range
import Cmem.L2Tlsf.Search
import Cmem.L2Tlsf.Static
import Cmem.L2Slab.RemoteFree
import Cmem.L2Slab.PerCpu
import Cmem.L2Slab.Refill
import Cmem.L2Slab.Transit
import Cmem.L2Ring.Ring
import Cmem.L2Ring.EventLog
import Cmem.L2Ring.Sequential
import Cmem.L2Ring.TypedPool
import Cmem.L2Ring.Create
import Cmem.L2Compress.Lz4
import Cmem.L2Compress.RoundTrip
import Cmem.L2Compress.Bound
import Cmem.L2Compress.Safe
import Cmem.L2Compress.Store
import Cmem.L2Compress.Refine
import Cmem.L2Compress.Reset
import Cmem.L2Compress.Table
import Cmem.L3Pool.Model
import Cmem.L3Pool.Account
import Cmem.L3Pool.Balance
import Cmem.L3Pool.Limit
import Cmem.L3Pool.Book
import Cmem.L3Pool.Parity
import Cmem.L3Pool.Peak
import Cmem.L3Pool.Reserve
import Cmem.L3Pool.Fast
import Cmem.L3Pool.Pages
import Cmem.L3Pool.Canary
import Cmem.L3Pool.Tiers
import Cmem.L3Pool.Backing
import Cmem.L3Pool.Committed
import Cmem.L3Pool.Regions
import Cmem.L3Pool.SlotExact
import Cmem.L3Pool.SlotKeep
import Cmem.L3Pool.SlotLive
import Cmem.L3Pool.Relink
import Cmem.L3Pool.Handover
import Cmem.L3Pool.Header
import Cmem.L3Pool.Isolation
import Cmem.L3Pool.Frame
import Cmem.L3Pool.Export
import Cmem.L3Pool.Tree
import Cmem.L3Pool.BatchFree
import Cmem.L3Pool.ActiveList
import Cmem.L3Pool.BatchSlots
import Cmem.L3Pool.BatchRun
import Cmem.L3Pool.Latency
import Cmem.L3Pool.LeakReport
import Cmem.L3Pool.Compact
import Cmem.L3Pool.Enumerate
import Cmem.L3Pool.Purge
import Cmem.L3Pool.Bindings
import Cmem.L3Pool.Classes
import Cmem.L4Tools.Diff
import Cmem.L4Tools.TopLeaks
