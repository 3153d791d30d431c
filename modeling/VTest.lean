import VTest.Lib.Bytes
import VTest.Lib.Base64
import VTest.Lib.Bits
import VTest.Lib.CodeTree
import VTest.Lib.Run
import VTest.Lib.Defined
import VTest.Lib.Keyed
import VTest.Lib.Matching
import VTest.Lib.Pool
import VTest.Lib.Text
import VTest.Lib.Tlv
import VTest.Lib.Varint
import VTest.Lib.Weighted
import VTest.Lib.Moves
import VTest.Lib.HeapOrder
import VTest.Script.Parse
import VTest.Script.Quote
import VTest.Script.Faithful
import VTest.Script.Malformed
import VTest.Script.Ends
import VTest.Macro.Argv
import VTest.Macro.Func
import VTest.Macro.Table
import VTest.Macro.Expand
import VTest.Http1.Rx
import VTest.Http1.Tx
import VTest.Http1.Resp
import VTest.Http1.RxSpec
import VTest.Http1.RoundTrip
import VTest.Http1.Chunk
import VTest.Http1.ChunkSize
import VTest.Http1.NulBody
import VTest.Http1.Piecewise
import VTest.Http1.Stale
import VTest.Hpack.Table
import VTest.Hpack.Huffman
import VTest.Hpack.Codec
import VTest.Hpack.HuffCode
import VTest.Hpack.HuffmanSpec
import VTest.Hpack.TableSpec
import VTest.Hpack.Sync
import VTest.Hpack.Integer
import VTest.Hpack.Literal
import VTest.Hpack.NameIndex
import VTest.Hpack.Progress
import VTest.Http2.Frame
import VTest.Http2.HdrFrame
import VTest.Http2.HdrBlock
import VTest.Http2.Window
import VTest.Http2.RxLoop
import VTest.Http2.Assembly
import VTest.Http2.BlockDecode
import VTest.Http2.Wire
import VTest.Http2.Body
import VTest.Http2.Credit
import VTest.Http2.Threads
import VTest.Http2.Delivery
import VTest.Http2.Schedule
import VTest.Http2.Settings
import VTest.Http2.SizeUpdate
import VTest.Http2.Streams
import VTest.Http2.Upgrade
import VTest.Http2.Wanted
import VTest.Gzip.Zlib
import VTest.Gzip.Gunzip
import VTest.Logexpect.Model
import VTest.Logexpect.Account
import VTest.Logexpect.Block
import VTest.Logexpect.Decision
import VTest.Logexpect.Sound
import VTest.Logexpect.Rerun
import VTest.Logexpect.Verdict
import VTest.Barrier.Cond
import VTest.Barrier.Rounds
import VTest.Tunnel.Machine
import VTest.Tunnel.Forward
import VTest.Tunnel.Transfer
import VTest.Tunnel.Pause
import VTest.Proxy.Send
import VTest.Proxy.Format
import VTest.Jobs.Model
import VTest.Jobs.Exact
import VTest.Event.Pages
import VTest.Event.Vbh
import VTest.Event.HeapRun
import VTest.Event.Vev
import VTest.Event.Once
import VTest.Term.Vram
import VTest.Term.Copy
import VTest.Term.Screen
import VTest.Term.Match
import VTest.Term.Teken
import VTest.Term.TekenInput
import VTest.Term.TekenSafe
import VTest.Term.TekenRead
import VTest.Term.TekenText
import VTest.Haproxy.Cli
