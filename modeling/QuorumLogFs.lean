import QuorumLogFs.Basis.Scanf
import QuorumLogFs.Basis.Memory
import QuorumLogFs.Basis.Lru
import QuorumLogFs.Basis.Tally
import QuorumLogFs.Basis.Runs
import QuorumLogFs.Basis.Ledger
import QuorumLogFs.Basis.Threads
import QuorumLogFs.Basis.Int32
import QuorumLogFs.Basis.Register
import QuorumLogFs.Basis.Linearize
import QuorumLogFs.Vote.Wire
import QuorumLogFs.Vote.Server
import QuorumLogFs.Vote.Sessions
import QuorumLogFs.Vote.PutSession
import QuorumLogFs.Vote.ReaderCount
import QuorumLogFs.Vote.WriteLock
import QuorumLogFs.Vote.LockHolder
import QuorumLogFs.Vote.KeySessions
import QuorumLogFs.Vote.Slots
import QuorumLogFs.Vote.SpinLock
import QuorumLogFs.Vote.Getters
import QuorumLogFs.Vote.ReadersWriter
import QuorumLogFs.Vote.Select
import QuorumLogFs.Vote.Client
import QuorumLogFs.Vote.Responses
import QuorumLogFs.Vote.FirstRound
import QuorumLogFs.Vote.Registry
import QuorumLogFs.Vote.Selection
import QuorumLogFs.Vote.TableBounds
import QuorumLogFs.Vote.Liars
import QuorumLogFs.Vote.Cluster
import QuorumLogFs.Vote.QuorumRead
import QuorumLogFs.Vote.Accusations
import QuorumLogFs.Vote.Commit
import QuorumLogFs.Vote.Network
import QuorumLogFs.Vote.Copies
import QuorumLogFs.Vote.Versions
import QuorumLogFs.Vote.Atomicity
import QuorumLogFs.Vote.Refusals
import QuorumLogFs.Log.Cache
import QuorumLogFs.Log.Recency
import QuorumLogFs.Log.CacheBlocks
import QuorumLogFs.Log.Flush
import QuorumLogFs.Log.Line
import QuorumLogFs.Log.FlushLines
import QuorumLogFs.Log.Replay
import QuorumLogFs.Log.Drops
import QuorumLogFs.Log.Days
import QuorumLogFs.Log.Fs
import QuorumLogFs.Log.Owners
import QuorumLogFs.Log.Mknod
import QuorumLogFs.Log.Window
import QuorumLogFs.Log.ExactWrite
import QuorumLogFs.Log.Namespace
import QuorumLogFs.Log.Metadata
import QuorumLogFs.Log.RoundTrip
import QuorumLogFs.Log.Decode
import QuorumLogFs.Log.WriteThrough
import QuorumLogFs.Log.Lookups
import QuorumLogFs.Log.FileView
import QuorumLogFs.Log.Private
import QuorumLogFs.Log.Isolation
import QuorumLogFs.Log.Stored
import QuorumLogFs.Log.ReadBack
import QuorumLogFs.Log.Bounds
import QuorumLogFs.Log.Accounting
import QuorumLogFs.Log.Balance
import QuorumLogFs.Log.PathArray
import QuorumLogFs.Log.ChunkLimit
import QuorumLogFs.Log.Restart
