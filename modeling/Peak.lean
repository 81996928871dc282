import Peak.Base.Image
import Peak.Packet.Parse
import Peak.Packet.Chain
import Peak.Packet.Termination
import Peak.Packet.Layers
import Peak.Packet.Extension
import Peak.Packet.Locality
import Peak.Packet.Dependence
import Peak.Li.Detect
import Peak.Li.Apps
import Peak.Li.Locality
import Peak.Li.Agreement
import Peak.Base.Terminated
import Peak.Li.Tftp
import Peak.Alloc
import Peak.Guarded
import Peak.Base.Cells
import Peak.Base.TailQueue
import Peak.Base.Ring
import Peak.Base.Run
import Peak.Base.Decimal
import Peak.Stream.Pool
import Peak.Stream.Pages
import Peak.Stream.Calls
import Peak.Stream.Session
import Peak.Stream.Panics
import Peak.Stream.Bounds
import Peak.Stream.References
import Peak.Stream.Conservation
import Peak.Stream.Fifo
import Peak.Stream.FirstFit
import Peak.Stream.Refusals
import Peak.Stream.Memory
import Peak.Stream.Refinement
import Peak.Stream.Simulation
import Peak.Stream.MemoryRuns
import Peak.Stream.MemoryPages
import Peak.Jar.Memory
import Peak.Jar.Calls
import Peak.Jar.History
import Peak.Jar.Reflection
import Peak.Jar.Headers
import Peak.Jar.Lists
import Peak.Jar.Walk
import Peak.Jar.Pack
import Peak.Jar.World
import Peak.Jar.Completeness
import Peak.Jar.Snug
import Peak.Jar.Rounds
import Peak.Base.Bytes
import Peak.Base.File
import Peak.Base.Loop
import Peak.Load.Reader
import Peak.Load.Records
import Peak.Load.Blocks
import Peak.Load.Calls
import Peak.Load.Store
import Peak.Load.Formats
import Peak.Load.Pcapng
import Peak.Load.ByteOrder
import Peak.Base.Ordered
import Peak.Base.Lru
import Peak.PagedList
import Peak.Strings.Trie
import Peak.Strings.Paths
import Peak.Strings.Add
import Peak.Strings.History
import Peak.Strings.Search
import Peak.Strings.Reports
import Peak.Strings.Complete
import Peak.Number
import Peak.Track.Key
import Peak.Track.Tracker
import Peak.Track.Recency
import Peak.Track.Runs
import Peak.Track.Memory
import Peak.Track.Refinement
import Peak.Track.MemoryRuns
import Peak.Flowsplit.Program
import Peak.Flowsplit.Flows
import Peak.Flowsplit.Outputs
import Peak.Flowsplit.Runs
import Peak.Flowsplit.Rereading
import Peak.Base.Words
import Peak.Token.Credit
import Peak.Token.Rate
import Peak.Token.Concurrent
import Peak.Token.Polling
import Peak.Token.Overflow
import Peak.Barrier
import Peak.Base.Rolling
import Peak.Hash
import Peak.Base.Forward
import Peak.Timeslice
import Peak.Base.Search
import Peak.Base.RedBlack
import Peak.Base.Linked
import Peak.Base.Insertion
import Peak.Base.Balance
import Peak.Base.Removal
import Peak.Base.Erasure
import Peak.Base.TreeSet
import Peak.Base.Account
import Peak.Audit
import Peak.Base.Traversal
import Peak.Base.Ranges
import Peak.Locate.Database
import Peak.Base.Bits
import Peak.Locate.Prefix
import Peak.Locate.Geoconv
import Peak.Base.Pointers
import Peak.Base.Turns
import Peak.Base.Locked
import Peak.Guards
import Peak.Prealloc
import Peak.Chunks
import Peak.Locate.Helpers
import Peak.Locate.Freeing
import Peak.Netmap.Rings
import Peak.Netmap.Slots
import Peak.Netmap.Kernel
import Peak.Netmap.Ownership
import Peak.Netmap.Contents
import Peak.Netmap.Traffic
import Peak.Netmap.Runs
import Peak.Netmap.Devices
import Peak.Netmap.Netfuse
import Peak.Peek.Program
import Peak.Peek.Reports
