import Lug.Core.Log
import Lug.Core.Fold
import Lug.Core.Append
import Lug.Core.Archive
import Lug.Core.Noop
import Lug.Core.Atomicity
import Lug.Core.Sound
import Lug.Server.Actor
import Lug.Server.Commit
import Lug.Server.Group
import Lug.Server.Guarantees
import Lug.Server.Stream
import Lug.Server.Delivery
import Lug.Cavlc.Avl
import Lug.Cavlc.Balanced
import Lug.Cavlc.AvlMap
import Lug.Cavlc.Value
import Lug.Cavlc.Edit
import Lug.Cavlc.Wire
import Lug.Cavlc.Store
import Lug.Cavlc.History
import Lug.Cavlc.Truncate
import Lug.Core.Recovery
import Lug.Cavlc.Reopen
import Lug.Core.Frontier
import Lug.Core.Durable
import Lug.Server.Frontier
import Lug.Cavlc.Reencode
import Lug.Server.Sources
import Lug.Server.Preamble
import Lug.Client.Frames
import Lug.Client.Credit
import Lug.Client.Overrun
import Lug.Client.View
import Lug.Ts.FrameDecoder
import Lug.Ts.SseParser
import Lug.Ts.Patch
import Lug.Ts.Validate
import Lug.Ts.Shared
import Lug.Ts.Agreement
import Lug.Ts.Subscription
import Lug.Ts.Pulls
import Lug.Lib.Incremental
import Lug.Lib.Utf8
import Lug.Proto.Codec
import Lug.Proto.Framed
import Lug.Server.Sendable
import Lug.Server.Isolation
import Lug.Lib.Faulty
import Lug.Lib.Octets
import Lug.Lib.Edits
import Lug.Wal.Format
import Lug.Wal.Segment
import Lug.Wal.Sys
import Lug.Wal.Store
import Lug.Wal.Recovery
import Lug.Wal.Load
import Lug.Wal.Piece
import Lug.Wal.Layout
import Lug.Wal.Adopt
import Lug.Wal.Kept
import Lug.Wal.Append
import Lug.Wal.Checkpoint
import Lug.Wal.Run
import Lug.Wal.Mark
import Lug.Wal.Tail
import Lug.Wal.Reading
import Lug.Wal.Unsettled
import Lug.Wal.Counter
import Lug.Client.Http
import Lug.Client.Steering
import Lug.Ts.EventStream
import Lug.Client.Conn
import Lug.Client.Exchanges
import Lug.Client.Multiplexer
import Lug.Cavlc.Merge
import Lug.Cavlc.MergeLaws
import Lug.Cavlc.Reference
import Lug.Client.Follower
import Lug.Client.Following
import Lug.Client.Contiguous
import Lug.Wal.Scanned
import Lug.Wal.Vectored
import Lug.Client.Dropping
import Lug.Wal.Header
import Lug.Client.Rooted
import Lug.Lib.Radix
import Lug.Client.Body
import Lug.Client.Framing
import Lug.Load.Check
import Lug.Load.Books
import Lug.Load.Sound
import Lug.Wal.Loadable
import Lug.Wal.Publish
import Lug.Wal.Firm
import Lug.Wal.Retry
import Lug.Lib.Fields
import Lug.Proto.Message
import Lug.Proto.Spelled
import Lug.Ts.Wire
import Lug.Lib.Raising
import Lug.Wal.Mending
import Lug.Wal.Serving
import Lug.Wal.Disk
import Lug.Core.Recall
import Lug.Wal.Restart
import Lug.Lib.Table
import Lug.Ts.Client
import Lug.Ts.Unix
import Lug.Ts.Effects
import Lug.Ts.Settled
import Lug.Ts.Matched
import Lug.Ts.Written
import Lug.Ts.Connection
