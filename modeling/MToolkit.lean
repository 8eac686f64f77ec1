import MToolkit.Actor.Active
import MToolkit.Actor.Actors
import MToolkit.Actor.Deque
import MToolkit.Actor.Handle
import MToolkit.Actor.Publish
import MToolkit.Actor.Restart
import MToolkit.Actor.Stop
import MToolkit.DBus.Client
import MToolkit.DBus.Subscriptions
import MToolkit.Efficient.AnnularCache
import MToolkit.Efficient.Capacity
import MToolkit.Efficient.Container
import MToolkit.Efficient.Fifo
import MToolkit.Efficient.INSTWLinkList
import MToolkit.Efficient.Queue
import MToolkit.Efficient.Stack
import MToolkit.HttpClient.Clear
import MToolkit.HttpClient.Client
import MToolkit.HttpClient.Credentials
import MToolkit.HttpClient.Handle
import MToolkit.HttpClient.Options
import MToolkit.HttpClient.Response
import MToolkit.Library.Agenda
import MToolkit.Library.Buckets
import MToolkit.Library.Census
import MToolkit.Library.Condvar
import MToolkit.Library.CyclicBlocks
import MToolkit.Library.Decimal
import MToolkit.Library.DottedQuad
import MToolkit.Library.Fallible
import MToolkit.Library.Handoff
import MToolkit.Library.Layout
import MToolkit.Library.LinkedRing
import MToolkit.Library.Lts
import MToolkit.Library.Memory
import MToolkit.Library.Octets
import MToolkit.Library.PartialMap
import MToolkit.Library.Pieces
import MToolkit.Library.Posix
import MToolkit.Library.PosixMkdir
import MToolkit.Library.PosixSprout
import MToolkit.Library.PosixTree
import MToolkit.Library.Ring
import MToolkit.Library.Sequences
import MToolkit.Library.Settings
import MToolkit.Library.SortedMap
import MToolkit.Library.StableSort
import MToolkit.Library.Streams
import MToolkit.Library.Strings
import MToolkit.LockContainer.Delivery
import MToolkit.LockContainer.LockList
import MToolkit.LockContainer.LockMap
import MToolkit.LockContainer.LockQueue
import MToolkit.LockContainer.TimedPop
import MToolkit.MessageQueue.Builder
import MToolkit.MessageQueue.Delay
import MToolkit.MessageQueue.Dispatcher
import MToolkit.MessageQueue.Looper
import MToolkit.MessageQueue.MainLooper
import MToolkit.MessageQueue.Priority
import MToolkit.MessageQueue.Queue
import MToolkit.MessageQueue.Resend
import MToolkit.MessageQueue.Shutdown
import MToolkit.MessageQueue.Traversal
import MToolkit.MessageQueue.Wakeup
import MToolkit.Module.PlugFactory
import MToolkit.Speaker.GstAudioManager
import MToolkit.Speaker.Lifecycle
import MToolkit.Speaker.Playback
import MToolkit.Speaker.PulseAudioManager
import MToolkit.Speaker.StreamManager
import MToolkit.ThreadPool.Barrier
import MToolkit.ThreadPool.Conserve
import MToolkit.ThreadPool.Drain
import MToolkit.ThreadPool.Pool
import MToolkit.ThreadPool.Release
import MToolkit.Timer.CatchUp
import MToolkit.Timer.Drive
import MToolkit.Timer.Driver
import MToolkit.Timer.Effect
import MToolkit.Timer.Grid
import MToolkit.Timer.Halt
import MToolkit.Timer.Invariant
import MToolkit.Timer.Late
import MToolkit.Timer.Lifetime
import MToolkit.Timer.Manager
import MToolkit.Timer.Node
import MToolkit.Timer.Registration
import MToolkit.Timer.Schedule
import MToolkit.Timer.Stop
import MToolkit.Timer.Timely
import MToolkit.Timer.Track
import MToolkit.Timer.Visit
import MToolkit.Timer.Wheel
import MToolkit.Timer.WheelRefine
import MToolkit.Utilities.Acceptance
import MToolkit.Utilities.CreateDirectories
import MToolkit.Utilities.Directories
import MToolkit.Utilities.Filesystem
import MToolkit.Utilities.Hex
import MToolkit.Utilities.HexPairs
import MToolkit.Utilities.Lines
import MToolkit.Utilities.Math
import MToolkit.Utilities.Net
import MToolkit.Utilities.NetAddress
import MToolkit.Utilities.NetGrammar
import MToolkit.Utilities.NetPorts
import MToolkit.Utilities.NetRange
import MToolkit.Utilities.PrintHex
import MToolkit.Utilities.ReadFile
import MToolkit.Utilities.Remove
import MToolkit.Utilities.RemoveTree
import MToolkit.Utilities.RoundTrip
import MToolkit.Utilities.Serialize
import MToolkit.Utilities.Split
import MToolkit.Utilities.String
import MToolkit.Utilities.WriteFile
