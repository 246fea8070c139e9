import ReplicatedBank.FixedGroup
import ReplicatedBank.MessageHandler
import ReplicatedBank.Reordering
import ReplicatedBank.IssueOrder
import ReplicatedBank.Conservation
import ReplicatedBank.StateTransfer
import ReplicatedBank.BaseBalance
import ReplicatedBank.Replay
import ReplicatedBank.Snapshot
import ReplicatedBank.OverlappingJoins
import ReplicatedBank.CleanHistory
import ReplicatedBank.Identity
import ReplicatedBank.ReadInput
import ReplicatedBank.Barrier
import ReplicatedBank.SyncedBalance
import ReplicatedBank.FinalBalance
import ReplicatedBank.SharedIds
import ReplicatedBank.LateJoiners
import ReplicatedBank.StableMembership
