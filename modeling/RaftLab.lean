import RaftLab.Raft.Append
import RaftLab.Lib.Run
import RaftLab.Lib.Ending
import RaftLab.Raft.Snapshot
import RaftLab.Raft.Window
import RaftLab.Raft.Commit
import RaftLab.Raft.Replication
import RaftLab.Raft.Compaction
import RaftLab.Lib.Rounds
import RaftLab.Raft.Exchange
import RaftLab.Cluster.Model
import RaftLab.Cluster.Install
import RaftLab.Cluster.Steps
import RaftLab.Cluster.Voting
import RaftLab.Cluster.Election
import RaftLab.Cluster.Terms
import RaftLab.Cluster.LeaderLog
import RaftLab.Cluster.Acknowledge
import RaftLab.Cluster.StaleAppend
import RaftLab.Cluster.Persistence
import RaftLab.Cluster.LogMatching
import RaftLab.Lib.Ledger
import RaftLab.Lib.Completeness
import RaftLab.Lib.Median
import RaftLab.Cluster.Refinement
import RaftLab.Cluster.Simulation
import RaftLab.Cluster.Safety
import RaftLab.KV.Server
import RaftLab.Raft.Procedures
import RaftLab.KV.Node
import RaftLab.KV.OnLog
import RaftLab.KV.Recovery
import RaftLab.KV.Handover
import RaftLab.KV.Waiting
import RaftLab.KV.Clerk
import RaftLab.KV.History
import RaftLab.KV.ExactlyOnce
import RaftLab.Lib.Fresh
import RaftLab.KV.Filter
import RaftLab.Lib.Backtrack
import RaftLab.Linearizability.Bitset
import RaftLab.Linearizability.BitsetOps
import RaftLab.Linearizability.Nodes
import RaftLab.Lib.Precedence
import RaftLab.Linearizability.Check
import RaftLab.Linearizability.Order
import RaftLab.Linearizability.Decides
import RaftLab.Linearizability.Lifting
import RaftLab.Linearizability.Entries
import RaftLab.Linearizability.Verdict
import RaftLab.Linearizability.Times
import RaftLab.Linearizability.Events
import RaftLab.Linearizability.Collect
import RaftLab.Linearizability.KvCheck
import RaftLab.Lib.Locality
import RaftLab.Linearizability.KvModel
import RaftLab.Rpc.Network
import RaftLab.Rpc.Discipline
import RaftLab.Rpc.Progress
import RaftLab.Lib.Threads
import RaftLab.KV.Deadlock
import RaftLab.Lib.DigitSum
import RaftLab.Lib.Explore
import RaftLab.Gob.CheckType
import RaftLab.Gob.CheckDefault
import RaftLab.Cluster.Committed
import RaftLab.Harness.Monitor
import RaftLab.Harness.Restart
import RaftLab.Cluster.CommittedLog
import RaftLab.KV.Stack
import RaftLab.Lib.Points
import RaftLab.KV.Linearize
import RaftLab.KV.Recorder
import RaftLab.Lib.Reach
import RaftLab.Cluster.Campaign
import RaftLab.Cluster.Catchup
import RaftLab.KV.Return
import RaftLab.Raft.Goroutines
import RaftLab.Raft.Daemons
import RaftLab.Raft.Shutdown
