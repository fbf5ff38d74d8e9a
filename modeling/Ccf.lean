import Ccf.Network.Votes
import Ccf.Kv.Hooks
import Ccf.Kv.SnapshotState
import Ccf.Crypto.SharingRecovery
import Ccf.Network.TxStatus
import Ccf.Ds.RingBufferExactlyOnce
import Ccf.Ds.OversizedArrival
import Ccf.Tasks.OrderedTasksOrder
import Ccf.Node.CommitCallbacksOnce
import Ccf.Node.RecoveryDecisionProtocolQuorum
import Ccf.Node.Rpc.Forwarder
import Ccf.Node.Rpc.Attempts
import Ccf.Node.SnapshotterRelease
import Ccf.Node.LedgerEncryptionUnique
import Ccf.Node.Rpc.SessionConsistent
import Ccf.Node.RootSignatures
import Ccf.Node.Gov.RecentProposals
import Ccf.Network.CommitBound
import Ccf.Service.Members
import Ccf.Aft.Elected
import Ccf.Aft.Matching
import Ccf.Kv.ReadingBounds
import Ccf.Node.LedgerSecrets
import Ccf.Tasks.FanInTasks
import Ccf.Node.SignatureCache
import Ccf.Node.EntryCutting
