import Ccf.Aft.Membership

/-! # Votes and role changes

`timeoutElapsed` is restarted at a random value; the draw of an operation is its parameter `draw`. When an operation
draws twice, the first draw is overwritten unread, so one parameter suffices.

`becomePreVoteCandidate`, `becomeCandidate` and `addVoteForMe` call each other: the vote of a node for itself may win
the election on the spot. The recursion is at most two deep, and `addVoteForMeWith` ties the knot. -/

namespace Ccf.Aft

variable (a : Aft)

def restartElectionTimeout (draw : ℕ) : Aft := { a with timeoutElapsed := draw }

def resetLastAckTimeouts : Aft :=
  { a with allOtherNodes := a.allOtherNodes.map fun n => (n.1, { n.2 with lastAckTimeout := 0 }) }

def resetVotesForMe : Aft :=
  { a with votesForMe := a.configurations.map fun c => (c.idx, { quorum := getQuorum c.nodes.length, votes := [] }) }

def becomeFollower (draw : ℕ) : Aft :=
  let b := (restartElectionTimeout { a with leaderId := none } draw).resetLastAckTimeouts
  { b with state.leadershipState := .follower }

def becomeAwareOfNewTerm (draw term : ℕ) : Aft :=
  let b := (resetVotesForMe { a with state.currentView := term, votedFor := none }).becomeFollower draw
  { b with isNewFollower := true }

/-! ### Becoming leader -/

/-- `match_idx` and `sent_idx` of a node at the start of a leadership. -/
def resetNodeIndices (next : ℕ) (n : NodeId × NodeState) : NodeId × NodeState :=
  (n.1, { n.2 with matchIdx := 0, sentIdx := next - 1 })

/-- The loop that ends `become_leader`: reset the indices of every node and send it a heartbeat.
Sending to one node does not touch the indices of another, so they are all reset first. -/
def announceLeadership : Aft :=
  let next := a.state.lastIdx + 1
  let b := { a with allOtherNodes := a.allOtherNodes.map (resetNodeIndices next) }
  b.allOtherNodes.foldl (fun b n => b.sendAppendEntries n.1 next) b

/-- The assignments `become_leader` makes once the log is cut. -/
def takeLeadership : Aft :=
  resetLastAckTimeouts
    { a with
      state.leadershipState := .leader
      leaderId := some a.state.nodeId
      shouldSign := true
      timeoutElapsed := 0 }

/-- Discard the entries no signature covers, except at startup. -/
def discardUncommittable : Aft :=
  if a.state.commitIdx > 0 then a.rollback a.lastCommittableIndex else a

/-- The rest of `become_leader`: commit at once if there are no other nodes, and tell the others. -/
def startLeadership : Result :=
  (if a.otherNodesInActiveConfigs = [] then a.updateCommit else .ok a).andThen fun b => .ok b.announceLeadership

def becomeLeader : Result :=
  if a.isRetiredCommitted then .ok a else a.discardUncommittable.takeLeadership.startLeadership

/-! ### Counting votes -/

/-- `votes_for_me[idx].votes.insert(from)`. -/
def insertVote (idx : ℕ) (source : NodeId) : List (ℕ × Votes) → List (ℕ × Votes)
  | [] => [(idx, { quorum := 0, votes := [source] })]
  | v :: rest =>
    if v.1 = idx then (v.1, { v.2 with votes := v.2.votes.insert source }) :: rest
    else v :: insertVote idx source rest

/-- Add the vote of `source` in each configuration where it is present. -/
def recordVote (source : NodeId) : Aft :=
  { a with
    votesForMe := a.configurations.foldl
      (fun v c => if source ∈ c.nodes then insertVote c.idx source v else v) a.votesForMe }

/-- A quorum of votes in all configurations. -/
abbrev isElected : Prop := ∀ v ∈ a.votesForMe, v.2.quorum ≤ v.2.votes.length

def addVoteForMeWith (becomeCandidate : Aft → Result) (a : Aft) (source : NodeId) : Result :=
  if a.configurations = [] then .ok a
  else
    let b := a.recordVote source
    if b.isElected then
      match b.state.leadershipState with
      | .preVoteCandidate => becomeCandidate b
      | .candidate => b.becomeLeader
      | .none | .leader | .follower => .raised .voteWhileNotCandidate b
    else .ok b

/-- `send_request_vote` and `send_request_pre_vote` to every other node of the active configurations,
with their assertion on the last committable index. -/
def sendRequestVotes (electionType : ElectionType) : Result :=
  if a.otherNodesInActiveConfigs ≠ [] ∧ a.lastCommittableIndex < a.state.commitIdx then
    .raised .lastCommittableBelowCommit a
  else
    .ok (a.otherNodesInActiveConfigs.foldl
      (fun b n => b.send n (.requestVote
        { term := a.state.currentView
          lastCommittableIdx := a.lastCommittableIndex
          termOfLastCommittableIdx := a.getTermInternal a.lastCommittableIndex }
        electionType)) a)

/-- The assignments of `become_candidate`. -/
def startCandidacy (draw : ℕ) : Aft :=
  let b := resetVotesForMe
    { a with state.leadershipState := .candidate, leaderId := none, votedFor := some a.state.nodeId }
  (restartElectionTimeout { b with state.currentView := b.state.currentView + 1 } draw).resetLastAckTimeouts

/-- The own vote of a candidate cannot make it a candidate again: the continuation is not reached. -/
def becomeCandidate (draw : ℕ) (a : Aft) : Result :=
  if a.configurations = [] then .ok a
  else
    (addVoteForMeWith .ok (a.startCandidacy draw) a.state.nodeId).andThen
      (·.sendRequestVotes .regularVote)

def addVoteForMe (draw : ℕ) (source : NodeId) : Result :=
  addVoteForMeWith (becomeCandidate draw) a source

/-- The assignments of `become_pre_vote_candidate`: view and vote are kept. -/
def startPreVote (draw : ℕ) : Aft :=
  (resetVotesForMe { a with state.leadershipState := .preVoteCandidate, leaderId := none }).restartElectionTimeout draw

def becomePreVoteCandidate (draw : ℕ) (a : Aft) : Result :=
  if a.configurations = [] then .ok a
  else
    ((a.startPreVote draw).addVoteForMe draw a.state.nodeId).andThen (·.sendRequestVotes .preVote)

/-! ### Vote messages -/

def sendRequestVoteResponse (dst : NodeId) (answer : Bool) (electionType : ElectionType) : Aft :=
  a.send dst (.requestVoteResponse { term := a.state.currentView, voteGranted := answer } electionType)

abbrev logUpToDate (r : RequestVote) : Prop :=
  r.termOfLastCommittableIdx > a.getTermInternal a.lastCommittableIndex ∨
    (r.termOfLastCommittableIdx = a.getTermInternal a.lastCommittableIndex ∧
      r.lastCommittableIdx ≥ a.lastCommittableIndex)

/-- Whether a vote is granted, in the view of the request. -/
abbrev grantVote (source : NodeId) (r : RequestVote) (electionType : ElectionType) : Prop :=
  ¬(electionType = .regularVote ∧ a.leaderId.isSome) ∧
    ¬(electionType = .regularVote ∧ a.votedFor.isSome ∧ a.votedFor ≠ some source) ∧
    a.logUpToDate r

/-- Record a vote given to `source`: an election is in progress. -/
def voteFor (draw : ℕ) (source : NodeId) : Aft :=
  { a.restartElectionTimeout draw with leaderId := none, votedFor := some source }

/-- The answer to a vote request of the view of the node. -/
def answerRequestVote (draw : ℕ) (source : NodeId) (r : RequestVote) (electionType : ElectionType) : Aft :=
  if a.grantVote source r electionType then
    (if electionType = .regularVote then a.voteFor draw source else a).sendRequestVoteResponse source true electionType
  else a.sendRequestVoteResponse source false electionType

def recvRequestVoteUnsafe (draw : ℕ) (source : NodeId) (r : RequestVote)
    (electionType : ElectionType) : Aft :=
  if a.state.currentView > r.term then a.sendRequestVoteResponse source false electionType
  else
    (if a.state.currentView < r.term then a.becomeAwareOfNewTerm draw r.term else a).answerRequestVote
      draw source r electionType

def recvRequestVoteResponse (draw : ℕ) (source : NodeId) (r : RequestVoteResponse)
    (electionType : ElectionType) : Result :=
  if (a.allOtherNodes.lookup source).isNone then .ok a
  else if a.state.currentView < r.term then .ok (a.becomeAwareOfNewTerm draw r.term)
  else if a.state.currentView ≠ r.term then .ok a
  else if a.state.leadershipState ≠ .preVoteCandidate ∧ a.state.leadershipState ≠ .candidate then .ok a
  else if electionType = .regularVote ∧ a.state.leadershipState ≠ .candidate then .ok a
  else if electionType = .preVote ∧ a.state.leadershipState ≠ .preVoteCandidate then .ok a
  else if !r.voteGranted then .ok a
  else a.addVoteForMe draw source

def recvProposeRequestVote (draw : ℕ) (r : ProposeRequestVote) : Result :=
  if ¬a.isRetiredCommitted ∧ a.ticking ∧ r.term = a.state.currentView then a.becomeCandidate draw else .ok a

def nominateSuccessor : Aft := if a.isLeader then a.sendProposeRequestVote else a

/-- `force_become_primary` of a node that starts a network. -/
def forceBecomePrimary : Result :=
  if a.leaderId.isSome then .raised .alreadyHasLeader a
  else becomeLeader { a with state.currentView := a.state.currentView + startingViewChange }

/-! ### What only talks to other nodes -/

theorem talks_announceLeadership : Talks a a.announceLeadership := by
  unfold announceLeadership
  refine Talks.trans (Eq.refl a.core) ?_
  exact Talks.foldl (fun b (n : NodeId × NodeState) => talks_sendAppendEntries b n.1 _) _ _

theorem talks_sendRequestVotes (electionType : ElectionType) :
    Talks a (a.sendRequestVotes electionType).state := by
  unfold sendRequestVotes
  split_ifs
  · exact Talks.refl a
  · exact Talks.foldl (fun b (n : NodeId) => talks_send b n _) _ _

end Ccf.Aft
