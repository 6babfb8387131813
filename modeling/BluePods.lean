import BluePods.Agreement
import BluePods.Ahead
import BluePods.Arrival
import BluePods.Batches
import BluePods.Binding
import BluePods.Blame
import BluePods.Children
import BluePods.CommitOnce
import BluePods.Deposits
import BluePods.EpochWalk
import BluePods.FeeSummary
import BluePods.Ingress
import BluePods.LiveIndex
import BluePods.Placement
import BluePods.ProvedAnswers
import BluePods.Registration
import BluePods.Rewards
import BluePods.SupplyIdentity
import BluePods.Thresholds
import BluePods.TxBinding
import BluePods.Workers
