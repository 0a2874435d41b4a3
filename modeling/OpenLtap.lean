import OpenLtap.Schema
import OpenLtap.Base.StableSort
import OpenLtap.Base.LatestPerKey
import OpenLtap.Base.KeyedLog
import OpenLtap.Base.NestedTx
import OpenLtap.Base.Splice
import OpenLtap.Wal.Reader
import OpenLtap.Wal.Framing
import OpenLtap.Wal.Reassembly
import OpenLtap.Wal.Chunking
import OpenLtap.Wal.Record
import OpenLtap.Wal.Heap
import OpenLtap.Wal.Pglz
import OpenLtap.Wal.PglzReads
import OpenLtap.Wal.HeaderWalk
import OpenLtap.Wal.Assembly
import OpenLtap.Base.Decimal
import OpenLtap.Wal.Numeric
import OpenLtap.Base.Utf8
import OpenLtap.Wal.Jsonb
import OpenLtap.Wal.Tuple
import OpenLtap.Wal.InsertPaths
import OpenLtap.Wal.DecodePanics
import OpenLtap.Wal.ToastReads
import OpenLtap.Wal.AttrLoop
import OpenLtap.Wal.Datum
import OpenLtap.Wal.Encode
import OpenLtap.Wal.NumericText
import OpenLtap.Wal.DecimalRoundTrip
import OpenLtap.Wal.Reencode
import OpenLtap.Wal.Faithful
import OpenLtap.Wal.Evolved
import OpenLtap.Wal.OutOfLine
import OpenLtap.Page.Clog
import OpenLtap.Page.MultiXact
import OpenLtap.Page.Reconstruct
import OpenLtap.Page.Visibility
import OpenLtap.Page.Fragment
import OpenLtap.Page.HotChains
import OpenLtap.Page.RoundTrip
import OpenLtap.Page.RawRebuild
import OpenLtap.Page.Geometry
import OpenLtap.Page.RawSlots
import OpenLtap.CopyBinary
import OpenLtap.EpochShift
import OpenLtap.TxBuffer
import OpenLtap.Sink
import OpenLtap.Serve
import OpenLtap.Engine.State
import OpenLtap.Engine.Record
import OpenLtap.Engine.Remap
import OpenLtap.Engine.Startup
import OpenLtap.Driver.Main
import OpenLtap.Driver.Embed
import OpenLtap.Engine.Moves
import OpenLtap.Engine.Sinks
import OpenLtap.Engine.Columns
import OpenLtap.Compaction
import OpenLtap.Engine.Reached
import OpenLtap.Recovery.Held
import OpenLtap.Recovery.Calls
import OpenLtap.Recovery.Emission
import OpenLtap.Recovery.Run
import OpenLtap.Recovery.ExactlyOnce
import OpenLtap.Recovery.RestartFloor
import OpenLtap.Resnapshot.RemapTable
import OpenLtap.Resnapshot.Interrupted
import OpenLtap.Resnapshot.Complete
import OpenLtap.Recovery.GapCheck
import OpenLtap.CurrentState
import OpenLtap.Freshness
import OpenLtap.Isolation
import OpenLtap.SlotPosition
import OpenLtap.Paths
import OpenLtap.Outcomes
import OpenLtap.UpdatePaths
import OpenLtap.Tail
import OpenLtap.Routing
import OpenLtap.Detached
import OpenLtap.InFlight
import OpenLtap.Evolutions
import OpenLtap.Resnapshot.FastDefaults
import OpenLtap.Preimage
import OpenLtap.Reload
import OpenLtap.Vanished
import OpenLtap.TimeTravel
import OpenLtap.ToastIsolation
import OpenLtap.RefusedColumns
import OpenLtap.Catalog.Discover
import OpenLtap.CopyTruncated
import OpenLtap.Suspects
import OpenLtap.Wal.ReaderRuns
import OpenLtap.Page.ClogLookup
import OpenLtap.Base.Incremental
import OpenLtap.Base.PointerTree
import OpenLtap.Wire.Messages
import OpenLtap.Wire.Stream
import OpenLtap.Wire.WalStream
import OpenLtap.Wire.Lsn
import OpenLtap.Wire.Commands
import OpenLtap.Wire.Startup
import OpenLtap.Wire.Rows
import OpenLtap.Wire.Server
import OpenLtap.Wire.Handshake
import OpenLtap.Wire.Pagestream
import OpenLtap.Wire.PageAnswers
import OpenLtap.Wire.PageOracle
import OpenLtap.Catalog.Pagestream
import OpenLtap.Catalog.Relmap
import OpenLtap.Catalog.Toast
import OpenLtap.HttpRequest
import OpenLtap.ServeHttp
import OpenLtap.Harness
import OpenLtap.Layer.Summary
import OpenLtap.Layer.Index
import OpenLtap.Layer.Image
import OpenLtap.Layer.Table
