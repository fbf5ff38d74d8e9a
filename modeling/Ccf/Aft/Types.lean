import Ccf.Aft.ViewHistory
import Ccf.Lib.Outcome

/-! # The state and the messages of an Aft node

The data types of `raft_types.h`, `state.h` and the fields of `Aft`. Node identifiers, indices and terms are natural
numbers. `Aft` also carries the two channels the class writes to: the host ledger (`ledger`) and the messages handed to
the channel manager (`outbox`). `committableHistory` is a history variable: all indices ever pushed to
`committableIndices`. -/

namespace Ccf

abbrev NodeId := ℕ

/-- `VIEW_UNKNOWN`. -/
def viewUnknown : ℕ := 0

/-- `starting_view_change`. -/
def startingViewChange : ℕ := 2

inductive LeadershipState where
  | none
  | leader
  | follower
  | preVoteCandidate
  | candidate
deriving DecidableEq, Repr

inductive MembershipState where
  | active
  | retired
deriving DecidableEq, Repr

inductive RetirementPhase where
  | ordered
  | signed
  | completed
  | retiredCommitted
deriving DecidableEq, Repr

inductive ElectionType where
  | preVote
  | regularVote
deriving DecidableEq, Repr

/-! ### Ledger entries -/

inductive NodeStatus where
  | pending
  | trusted
  | retired
deriving DecidableEq, Repr

/-- The part of a row of the nodes table that the consensus hooks read. -/
structure NodeInfo where
  status : NodeStatus
  retiredCommitted : Bool
deriving DecidableEq, Repr

/-- A serialised transaction: its size, whether it is a signature (`globally_committable`), its writes
to the nodes table (a map, `none` for a removal) and the rest of its content. -/
structure Tx where
  size : ℕ
  committable : Bool
  nodes : List (NodeId × Option NodeInfo)
  payload : ℕ
  nodup : (nodes.map Prod.fst).Nodup := by decide
deriving DecidableEq, Repr

/-- A ledger entry: a transaction with the view it was replicated in. -/
structure Entry where
  view : ℕ
  tx : Tx
deriving DecidableEq, Repr

/-! ### Messages -/

structure AppendEntries where
  idx : ℕ
  prevIdx : ℕ
  term : ℕ
  prevTerm : ℕ
  leaderCommitIdx : ℕ
  termOfIdx : ℕ
deriving DecidableEq, Repr

/-- `success` is `true` for `AppendEntriesResponseType::OK`. -/
structure AppendEntriesResponse where
  term : ℕ
  lastLogIdx : ℕ
  success : Bool
deriving DecidableEq, Repr

structure RequestVote where
  term : ℕ
  lastCommittableIdx : ℕ
  termOfLastCommittableIdx : ℕ
deriving DecidableEq, Repr

structure RequestVoteResponse where
  term : ℕ
  voteGranted : Bool
deriving DecidableEq, Repr

structure ProposeRequestVote where
  term : ℕ
deriving DecidableEq, Repr

/-- The consensus messages. The entries of an `AppendEntries` are appended by the host of the sender
from its ledger; the two kinds of vote share their layout. -/
inductive Msg where
  | appendEntries (r : AppendEntries) (data : List Entry)
  | appendEntriesResponse (r : AppendEntriesResponse)
  | requestVote (r : RequestVote) (electionType : ElectionType)
  | requestVoteResponse (r : RequestVoteResponse) (electionType : ElectionType)
  | proposeRequestVote (r : ProposeRequestVote)
deriving DecidableEq, Repr

/-- What may go wrong with one entry of a received batch: its bytes are malformed, `deserialize`
returns null, or `apply` returns `FAIL`. -/
inductive Fault where
  | none
  | malformed
  | deserialise
  | apply
deriving DecidableEq, Repr

/-! ### Node state -/

structure Configuration where
  idx : ℕ
  nodes : List NodeId
deriving DecidableEq, Repr

structure NodeState where
  sentIdx : ℕ
  matchIdx : ℕ
  lastAckTimeout : ℕ
deriving DecidableEq, Repr

structure Votes where
  quorum : ℕ
  votes : List NodeId
deriving DecidableEq, Repr

/-- `aft::State`. -/
structure State where
  nodeId : NodeId
  preVoteEnabled : Bool
  currentView : ℕ := 0
  lastIdx : ℕ := 0
  commitIdx : ℕ := 0
  viewHistory : ViewHistory := ViewHistory.empty
  committableIndices : List ℕ := []
  committableHistory : List ℕ := []
  leadershipState : LeadershipState := .none
  membershipState : MembershipState := .active
  retirementPhase : Option RetirementPhase := none
  retirementIdx : Option ℕ := none
  retirementCommittableIdx : Option ℕ := none
  retiredCommittedIdx : Option ℕ := none
deriving DecidableEq, Repr

/-- An Aft node. -/
structure Aft where
  state : State
  votedFor : Option NodeId := none
  leaderId : Option NodeId := none
  votesForMe : List (ℕ × Votes) := []
  timeoutElapsed : ℕ := 0
  isNewFollower : Bool := false
  shouldSign : Bool := false
  requestTimeout : ℕ
  electionTimeout : ℕ
  ticking : Bool := false
  configurations : List Configuration := []
  allOtherNodes : List (NodeId × NodeState) := []
  entrySizeNotLimited : ℕ := 0
  entryCount : ℕ := 0
  entriesBatchSize : ℕ := 20
  batchWindowSum : ℤ := 0
  ledger : List Entry := []
  outbox : List (NodeId × Msg) := []
deriving DecidableEq, Repr

/-- The exceptions of the modelled functions. -/
inductive AftError where
  | viewHistoryBackwards
  | retirementIdxAlreadySet
  | retirementIdxMissing
  | indexBelowRetirementIdx
  | notRetired
  | updateCommitNotLeader
  | unknownNode
  | emptyConfiguration
  | matchBeyondLeader
  | commitBeyondLast
  | voteWhileNotCandidate
  | insufficientData
  | alreadyHasLeader
  | lastCommittableBelowCommit
deriving DecidableEq, Repr

abbrev Result := Outcome AftError Aft

end Ccf
