import Libubox.Lib.Bytes
import Libubox.Lib.Blocks
import Libubox.Lib.Binary64
import Libubox.Lib.Decimal
import Libubox.Lib.Numeral
import Libubox.Lib.Nearest
import Libubox.Lib.Chain
import Libubox.Lib.Machine
import Libubox.Lib.Shell
import Libubox.Lib.ShellVars
import Libubox.Lib.Walks
import Libubox.Lib.Hooks
import Libubox.Lib.Circle
import Libubox.Lib.Rings
import Libubox.Lib.Row
import Libubox.Lib.Trees
import Libubox.Lib.TreeHeap
import Libubox.Lib.Writer
import Libubox.Avl.Rebalance
import Libubox.Avl.Tree
import Libubox.Avl.Search
import Libubox.Avl.Insert
import Libubox.Avl.Delete
import Libubox.Avl.Run
import Libubox.Avl.Neighbour
import Libubox.Avl.Depth
import Libubox.Vlist.Sweep
import Libubox.SafeList.List
import Libubox.SafeList.Refine
import Libubox.SafeList.ForEach
import Libubox.Runqueue.Queue
import Libubox.Runqueue.Bookkeeping
import Libubox.Runqueue.Stall
import Libubox.Uloop.Timeout
import Libubox.Uloop.TimerService
import Libubox.Uloop.Fd
import Libubox.Uloop.FdDelete
import Libubox.Uloop.FdEdge
import Libubox.Uloop.Process
import Libubox.Uloop.ProcessService
import Libubox.Ustream.Buffer
import Libubox.Ustream.Stream
import Libubox.Ustream.Shape
import Libubox.Ustream.Output
import Libubox.Ustream.Input
import Libubox.Ustream.Events
import Libubox.Ustream.Accounting
import Libubox.Ustream.Fd
import Libubox.Ustream.Interest
import Libubox.Ustream.LinkError
import Libubox.Blob.Attr
import Libubox.Blob.Buffer
import Libubox.Blob.Layout
import Libubox.Blob.Tree
import Libubox.Blob.RoundTrip
import Libubox.Blob.Parse
import Libubox.Blobmsg.Attr
import Libubox.Blobmsg.Build
import Libubox.Blobmsg.Append
import Libubox.Blobmsg.Failure
import Libubox.Blobmsg.Sizes
import Libubox.Blobmsg.Message
import Libubox.Blobmsg.RoundTrip
import Libubox.Blobmsg.Check
import Libubox.Blobmsg.Parse
import Libubox.Blobmsg.Lookup
import Libubox.Blobmsg.FormatJson
import Libubox.Blobmsg.Render
import Libubox.Blobmsg.ReadBack
import Libubox.Blobmsg.AddJson
import Libubox.Json.Node
import Libubox.Json.String
import Libubox.Json.Parse
import Libubox.Json.Grammar
import Libubox.Json.Body
import Libubox.Json.Escapes
import Libubox.Json.Accepts
import Libubox.Json.ChildList
import Libubox.Json.ChildListRefine
import Libubox.Json.Print
import Libubox.Json.PrintText
import Libubox.Json.PrintFits
import Libubox.Json.Printable
import Libubox.Json.Integers
import Libubox.Json.PrintParse
import Libubox.Json.Denote
import Libubox.Json.File
import Libubox.Jshn.Parse
import Libubox.Jshn.Complete
import Libubox.Jshn.Functions
import Libubox.Jshn.Names
import Libubox.Jshn.Store
import Libubox.Jshn.Load
import Libubox.Jshn.Format
import Libubox.Jshn.Cleanup
import Libubox.Jshn.Dump
import Libubox.Jshn.Chart
import Libubox.Jshn.Select
import Libubox.Jsonrpc.Client
import Libubox.Jsonrpc.Receive
import Libubox.Jsonrpc.Procedures
import Libubox.Jsonrpc.Output
import Libubox.Unformat.Atomic
import Libubox.Unformat.Good
import Libubox.Unformat.Input
import Libubox.Unformat.Left
import Libubox.Unformat.Moves
import Libubox.Unformat.Parse
import Libubox.Unformat.Scan
import Libubox.Unformat.Text
import Libubox.Unformat.Integer
import Libubox.Format.VaFormat
import Libubox.Format.Pieces
import Libubox.Unformat.RoundTrip
import Libubox.Unformat.Literal
import Libubox.Unformat.UnixFile
import Libubox.Lib.Sextets
import Libubox.B64.Codec
import Libubox.B64.Encode
import Libubox.B64.Decode
import Libubox.Lib.Effect
import Libubox.JsonScript.Script
import Libubox.JsonScript.Variables
import Libubox.JsonScript.Strings
import Libubox.JsonScript.Calls
import Libubox.JsonScript.Abort
import Libubox.JsonScript.Return
import Libubox.JsonScript.Members
import Libubox.JsonScript.Twins
import Libubox.JsonScript.Values
import Libubox.JsonScript.Locality
import Libubox.JsonScript.DeMorgan
import Libubox.PrintBuffer.Buffer
import Libubox.PrintBuffer.Run
import Libubox.Md5.Body
import Libubox.Md5.Rounds
import Libubox.Md5.Digest
import Libubox.Kv.Kvlist
import Libubox.Kv.Map
import Libubox.ListHead.List
import Libubox.ListHead.Refine
import Libubox.Utils.CallocA
