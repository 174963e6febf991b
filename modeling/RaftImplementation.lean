import RaftImplementation.Library.Runs
import RaftImplementation.Library.Majority
import RaftImplementation.Library.Maps
import RaftImplementation.Library.Codec
import RaftImplementation.Library.Retry
import RaftImplementation.Library.Histories
import RaftImplementation.Library.ReplicatedLog
import RaftImplementation.Library.LeaderCompleteness
import RaftImplementation.Library.Numerals
import RaftImplementation.Library.Buckets
import RaftImplementation.Library.Grouping
import RaftImplementation.Library.Linearizability
import RaftImplementation.Library.Links
import RaftImplementation.Library.DepthFirst
import RaftImplementation.Library.Intervals
import RaftImplementation.Library.Recorded
import RaftImplementation.Library.TotalOrder
import RaftImplementation.Library.Utf8
import RaftImplementation.Raft.State
import RaftImplementation.Raft.Handlers
import RaftImplementation.Raft.Encoding
import RaftImplementation.Raft.Cluster
import RaftImplementation.Raft.Logs
import RaftImplementation.Raft.Effects
import RaftImplementation.Raft.CommitRule
import RaftImplementation.Raft.Moves
import RaftImplementation.Raft.Exchange
import RaftImplementation.Raft.Deliveries
import RaftImplementation.Raft.Compaction
import RaftImplementation.Raft.Elections
import RaftImplementation.Raft.Durability
import RaftImplementation.Raft.Entries
import RaftImplementation.Raft.Indices
import RaftImplementation.Raft.BackOff
import RaftImplementation.Raft.CatchUp
import RaftImplementation.Raft.LogMatching
import RaftImplementation.Raft.ApplyOrder
import RaftImplementation.Raft.Machines
import RaftImplementation.Raft.InRange
import RaftImplementation.Raft.Refinement
import RaftImplementation.Raft.Simulation
import RaftImplementation.Raft.Safety
import RaftImplementation.Raft.Completeness
import RaftImplementation.Raft.Broadcast
import RaftImplementation.Raft.ApplyStream
import RaftImplementation.Raft.Sections
import RaftImplementation.Raft.StepDown
import RaftImplementation.Raft.Availability
import RaftImplementation.Raft.Goroutines
import RaftImplementation.Raft.MatchIndex
import RaftImplementation.Raft.Snapshots
import RaftImplementation.Raft.Restriction
import RaftImplementation.Raft.Writes
import RaftImplementation.Raft.CrashPoints
import RaftImplementation.Raft.Gradient
import RaftImplementation.Raft.Batches
import RaftImplementation.Raft.Accounting
import RaftImplementation.Raft.Descent
import RaftImplementation.Raft.Replicas
import RaftImplementation.Raft.Registration
import RaftImplementation.Mr.Coordinator
import RaftImplementation.Mr.Calls
import RaftImplementation.Mr.Workers
import RaftImplementation.Mr.Shuffle
import RaftImplementation.Mr.Reduce
import RaftImplementation.Mr.Job
import RaftImplementation.Mr.Apps
import RaftImplementation.Mr.Outcome
import RaftImplementation.Kvsrv.Server
import RaftImplementation.Kvsrv.Clerks
import RaftImplementation.Kvsrv.Overlap
import RaftImplementation.Kvsrv.LiveRequests
import RaftImplementation.Porcupine.Bitset
import RaftImplementation.Porcupine.Checker
import RaftImplementation.Porcupine.LinkedList
import RaftImplementation.Porcupine.Search
import RaftImplementation.Porcupine.CheckSingle
import RaftImplementation.Porcupine.Histories
import RaftImplementation.Porcupine.Parallel
import RaftImplementation.Porcupine.KvModel
import RaftImplementation.Porcupine.Events
import RaftImplementation.Kvsrv.Checked
import RaftImplementation.Labrpc.Network
import RaftImplementation.Labrpc.Calls
import RaftImplementation.Labrpc.Process
import RaftImplementation.Kvsrv.Deployed
