import WylesLibs.Library.Outcome
import WylesLibs.Library.Ends
import WylesLibs.Library.Runs
import WylesLibs.Library.Endless
import WylesLibs.EStream.Types
import WylesLibs.EStream.Stream
import WylesLibs.EStream.Memory
import WylesLibs.EStream.Cursor
import WylesLibs.EStream.ByteStream
import WylesLibs.Json.Parser
import WylesLibs.Json.Object
import WylesLibs.Json.Iterator
import WylesLibs.Json.Mapper
import WylesLibs.EStream.Reads
import WylesLibs.EStream.ByteReads
import WylesLibs.Json.Key
import WylesLibs.Json.Token
import WylesLibs.Json.Reading
import WylesLibs.Json.Turns
import WylesLibs.Json.Accepts
import WylesLibs.Json.Reads
import WylesLibs.Json.Document
import WylesLibs.Json.OnStream
import WylesLibs.Json.Layout
import WylesLibs.Json.Termination
import WylesLibs.Json.Members
import WylesLibs.Library.Brackets
import WylesLibs.Json.Brackets
import WylesLibs.Json.RoundTrip
import WylesLibs.Library.Ledger
import WylesLibs.Threads.ETasker
import WylesLibs.Threads.Turns
import WylesLibs.Threads.Bounds
import WylesLibs.Threads.Stranding
import WylesLibs.Threads.Timeout
import WylesLibs.Threads.OnExit
import WylesLibs.Threads.Accounts
import WylesLibs.Threads.Settling
import WylesLibs.KeyGenerator.Codec
import WylesLibs.KeyGenerator.Generator
import WylesLibs.Library.Links
import WylesLibs.Memory.Heap
import WylesLibs.Memory.HeapLists
import WylesLibs.Memory.Blocks
import WylesLibs.Memory.Emalloc
import WylesLibs.Memory.Refinement
import WylesLibs.Memory.Safety
import WylesLibs.Memory.Draining
import WylesLibs.Memory.Availability
import WylesLibs.Memory.Pointers
import WylesLibs.Sorting.Oracle
import WylesLibs.Sorting.Scratch
import WylesLibs.Sorting.InPlace
import WylesLibs.Sorting.Iterative
import WylesLibs.Sorting.Neighbours
import WylesLibs.Validation
import WylesLibs.Etimeout
import WylesLibs.Library.Digits
import WylesLibs.EStream.Tape
import WylesLibs.Format.NumToString
import WylesLibs.Format.Decimal
import WylesLibs.Format.Widths
import WylesLibs.Format.Format
import WylesLibs.Format.FirstPass
import WylesLibs.Format.SecondPass
import WylesLibs.Format.OnStream
import WylesLibs.Format.Verbatim
import WylesLibs.Library.Gregorian
import WylesLibs.Calendar.ETime
import WylesLibs.Calendar.ECal
import WylesLibs.Calendar.DateText
import WylesLibs.Calendar.Printed
import WylesLibs.Calendar.Tables
import WylesLibs.Calendar.Years
import WylesLibs.Calendar.Accepted
import WylesLibs.Calendar.Parsed
import WylesLibs.Calendar.RoundTrip
import WylesLibs.Base64
import WylesLibs.EStream.Chains
import WylesLibs.Datastructures
import WylesLibs.KeyValue.Parse
import WylesLibs.Library.Delimited
import WylesLibs.KeyValue.RoundTrip
import WylesLibs.EStream.RegularFile
import WylesLibs.KeyGenerator.Store
import WylesLibs.KeyGenerator.HexArray
import WylesLibs.Library.Iostream
import WylesLibs.EStream.IStreamEStream
import WylesLibs.File.FileManager
import WylesLibs.File.Update
import WylesLibs.Library.Calls
import WylesLibs.Library.Counted
import WylesLibs.Csv.Csv
import WylesLibs.Csv.Lexer
import WylesLibs.Csv.Storing
import WylesLibs.Csv.Batches
import WylesLibs.Csv.Table
import WylesLibs.Csv.Header
import WylesLibs.Csv.Spent
import WylesLibs.Csv.Printed
import WylesLibs.Library.StableSort
import WylesLibs.Datastructures.Buffer
import WylesLibs.Datastructures.Sort
import WylesLibs.Datastructures.MergeInPlace
import WylesLibs.Datastructures.RingIndex
import WylesLibs.C.Array
import WylesLibs.C.Reader
import WylesLibs.Datastructures.SortPasses
import WylesLibs.Datastructures.SortOrder
import WylesLibs.Library.Loops
import WylesLibs.Datastructures.Array
import WylesLibs.Datastructures.ArrayList
import WylesLibs.Datastructures.ArrayCalls
import WylesLibs.Datastructures.ArrayBoundary
import WylesLibs.Datastructures.SortedFlag
import WylesLibs.EStream.EndOfFile
import WylesLibs.EStream.ReadUntil
import WylesLibs.EStream.Bail
import WylesLibs.EStream.Trim
import WylesLibs.EStream.Reuse
import WylesLibs.EStream.Naturals
import WylesLibs.EStream.ReadsEnd
import WylesLibs.EStream.Extract
import WylesLibs.EStream.Lent
import WylesLibs.EStream.SharedArrays
import WylesLibs.Json.Numbers
import WylesLibs.Json.Depth
import WylesLibs.Library.JsonText
import WylesLibs.Json.Pretty
import WylesLibs.Json.Strings
import WylesLibs.Paths
import WylesLibs.Web.StaticPaths
import WylesLibs.Web.ConnectionTimer
import WylesLibs.Multipart.FormData
import WylesLibs.Web.HttpTypes
import WylesLibs.Web.HttpText
import WylesLibs.Web.Routing
import WylesLibs.Calendar.Zoned
import WylesLibs.Web.WebsocketUpgrade
import WylesLibs.File.StreamFactory
import WylesLibs.Library.Acts
import WylesLibs.EStream.Elements
import WylesLibs.Web.RequestHead
import WylesLibs.Web.Serving
import WylesLibs.Web.Connection
import WylesLibs.File.Writers
import WylesLibs.File.Store
