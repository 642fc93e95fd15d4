import QEngine.AppendRequests
import QEngine.AsofMatches
import QEngine.BatchUndo
import QEngine.BucketMerge
import QEngine.CandidatePulls
import QEngine.CompactionSwap
import QEngine.DedupExactness
import QEngine.DeleteWatermark
import QEngine.DrForwarder
import QEngine.DurableVotes
import QEngine.FlushRaces
import QEngine.GossipExchange
import QEngine.GroupCommit
import QEngine.LzliteAccesses
import QEngine.LzliteReturn
import QEngine.MpmcRing
import QEngine.OutboxNumbers
import QEngine.PeerRebuild
import QEngine.PushedPartitions
import QEngine.RaftLogRecovery
import QEngine.RaftProposal
import QEngine.RaftSafety
import QEngine.RedoAborts
import QEngine.RedoRecords
import QEngine.ReplicationHandover
import QEngine.RetentionSweep
import QEngine.RingOwners
import QEngine.ScanPlans
import QEngine.SchemaSync
import QEngine.SignedSums
import QEngine.SumAnswers
import QEngine.SymbolDurability
import QEngine.TruncatedStreams
import QEngine.UserSessions
import QEngine.WalRepair
