import Raft2pl.Lib.Run
import Raft2pl.Lib.Ownership
import Raft2pl.Lib.Accounts
import Raft2pl.Lib.History
import Raft2pl.Header
import Raft2pl.TwoPl.Kvs
import Raft2pl.TwoPl.Transaction
import Raft2pl.TwoPl.Mirror
import Raft2pl.Lib.Refinement
import Raft2pl.TwoPl.Paths
import Raft2pl.Server.Log
import Raft2pl.Server.Worker
import Raft2pl.Server.Pipeline
import Raft2pl.Server.Notifier
import Raft2pl.Server.Batches
import Raft2pl.Server.Transfer
import Raft2pl.Server.Leader
import Raft2pl.Server.Threads
import Raft2pl.Server.Commit
import Raft2pl.Server.Journey
import Raft2pl.Server.Locking
import Raft2pl.Server.Balance
import Raft2pl.Server.Serial
import Raft2pl.Server.Cluster
import Raft2pl.Server.Replication
import Raft2pl.Server.Restart
import Raft2pl.Server.Clients
import Raft2pl.Server.Durability
import Raft2pl.Server.LostTask
import Raft2pl.Server.Majority
import Raft2pl.Server.Numbering
import Raft2pl.Server.Matching
import Raft2pl.Server.CommitIndex
import Raft2pl.Server.Requests
import Raft2pl.Server.Reception
import Raft2pl.Server.Accounting
import Raft2pl.Server.Answers
import Raft2pl.Server.Recovery
import Raft2pl.Server.Progress
import Raft2pl.Server.Completion
import Raft2pl.Server.Survival
import Raft2pl.Lib.Records
import Raft2pl.Server.LogFile
import Raft2pl.Server.Election
import Raft2pl.Server.Startup
import Raft2pl.Lib.CString
import Raft2pl.Silo.Tuple
import Raft2pl.Silo.Transaction
import Raft2pl.Silo.Transfer
import Raft2pl.Silo.Sequential
import Raft2pl.Lib.Snapshot
import Raft2pl.Silo.Workers
import Raft2pl.Silo.Validation
import Raft2pl.Silo.Steps
import Raft2pl.Silo.Memory
import Raft2pl.Silo.Abort
import Raft2pl.Silo.Solo
import Raft2pl.Silo.Versions
import Raft2pl.Silo.Dependency
import Raft2pl.Lib.Text
import Raft2pl.Client.Workload
import Raft2pl.Lib.Decimal
import Raft2pl.Client.Input
import Raft2pl.Client.Replay
import Raft2pl.Lib.Loop
import Raft2pl.Server.ConfigFile
import Raft2pl.Lib.ParallelFor
import Raft2pl.Silo.Build
import Raft2pl.Lib.Commits
import Raft2pl.Silo.Prepared
import Raft2pl.Silo.Serial
import Raft2pl.Silo.Balance
import Raft2pl.Silo.Logged
import Raft2pl.Silo.Progress
import Raft2pl.Lib.Pipe
import Raft2pl.Server.Framing
import Raft2pl.Server.Nodes
import Raft2pl.Server.Wire
