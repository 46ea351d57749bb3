import CWebServer.Lib.Runs
import CWebServer.Lib.Chain
import CWebServer.Lib.Delimiters
import CWebServer.Lib.Slots
import CWebServer.Lib.Lines
import CWebServer.Lib.Tokens
import CWebServer.Lib.Machines
import CWebServer.Lib.Loops
import CWebServer.Lib.Multimap
import CWebServer.Lib.Memory
import CWebServer.Lib.Blocks
import CWebServer.Lib.Files
import CWebServer.Lib.Pieces
import CWebServer.Lib.Lexicographic
import CWebServer.Lib.Searches
import CWebServer.WorkerThreadPool.Model
import CWebServer.WorkerThreadPool.Lists
import CWebServer.WorkerThreadPool.Transitions
import CWebServer.WorkerThreadPool.Calls
import CWebServer.WorkerThreadPool.Wakeup
import CWebServer.WorkerThreadPool.Invariant
import CWebServer.WorkerThreadPool.Queue
import CWebServer.WorkerThreadPool.Results
import CWebServer.WorkerThreadPool.Timeout
import CWebServer.WorkerThreadPool.Records
import CWebServer.WorkerThreadPool.Handover
import CWebServer.Strings.Model
import CWebServer.Strings.Decimal
import CWebServer.Strings.Scan
import CWebServer.Strings.Split
import CWebServer.Strings.Pieces
import CWebServer.Strings.Compare
import CWebServer.Strings.Any
import CWebServer.Strings.Integers
import CWebServer.Http.Headers
import CWebServer.Http.Parse
import CWebServer.Http.RequestLine
import CWebServer.Http.Values
import CWebServer.Http.Fields
import CWebServer.Http.HeaderMap
import CWebServer.Http.Head
import CWebServer.Http.ReadLoop
import CWebServer.Http.Framing
import CWebServer.Http.Cuts
import CWebServer.Http.Recycling
import CWebServer.Http.Response
import CWebServer.Http.Serialize
import CWebServer.Http.Scripts
import CWebServer.Http.Stale
import CWebServer.Http.ResponseRecycling
import CWebServer.Http.NonInterference
import CWebServer.Http.RoundTrip
import CWebServer.Http.ContentLength
import CWebServer.Http.LogText
import CWebServer.Http.Runs
import CWebServer.Http.LineRules
import CWebServer.Http.Limits
import CWebServer.Http.Acceptance
import CWebServer.HttpServer.Model
import CWebServer.HttpServer.Transitions
import CWebServer.HttpServer.Owners
import CWebServer.HttpServer.Ownership
import CWebServer.HttpServer.TaskPool
import CWebServer.HttpServer.Connections
import CWebServer.HttpServer.Lifecycle
import CWebServer.HttpServer.Startup
import CWebServer.HttpServer.Task
import CWebServer.Uri.Coding
import CWebServer.Uri.Cut
import CWebServer.Uri.HostPort
import CWebServer.Uri.Model
import CWebServer.Uri.Parse
import CWebServer.Uri.Components
import CWebServer.Uri.Print
import CWebServer.Uri.RoundTrip
import CWebServer.Uri.Shown
import CWebServer.Uri.EmptyParts
import CWebServer.Uri.Scheme
import CWebServer.Uri.Authority
import CWebServer.Uri.Ports
import CWebServer.Uri.Bounds
import CWebServer.Base64.Model
import CWebServer.Base64.RoundTrip
import CWebServer.Base64.Accepts
import CWebServer.Base64.Canonical
import CWebServer.Streams.Model
import CWebServer.Streams.BufferStream
import CWebServer.Streams.Sources
import CWebServer.Streams.BufferedReader
import CWebServer.Streams.ReadAll
import CWebServer.Strings.Patterns
import CWebServer.Strings.Buffers
import CWebServer.Strings.Representation
import CWebServer.Strings.Operations
import CWebServer.Strings.InPlace
import CWebServer.Lib.Progress
import CWebServer.WorkerThreadPool.Progress
import CWebServer.WorkerThreadPool.Lifecycle
import CWebServer.WorkerThreadPool.Places
import CWebServer.WorkerThreadPool.Shutdown
import CWebServer.WorkerThreadPool.Termination
import CWebServer.HttpServer.Conversations
import CWebServer.HttpServer.Program
import CWebServer.SocketWrapper.Model
import CWebServer.SocketWrapper.Descriptors
import CWebServer.SocketWrapper.Stopping
import CWebServer.Allocations.Strings
import CWebServer.Allocations.Headers
import CWebServer.Allocations.Requests
import CWebServer.Allocations.Parsing
import CWebServer.Allocations.Responses
import CWebServer.Allocations.Writing
import CWebServer.Allocations.Lifetimes
import CWebServer.Allocations.Records
import CWebServer.Allocations.Server
import CWebServer.Allocations.Pointers
import CWebServer.Allocations.Tasks
