import Ccf.Aft.Send

/-! # Configurations, retirement, commit and rollback

The part of `Aft` that follows the log: the hook that turns writes to the nodes table into configurations, the
retirement phases, `commit` and `rollback`. `commit` runs the store's global hook for every entry it commits and so
tells a node of committed retirements. -/

namespace Ccf

/-- `try_emplace` on the keys of an ordered map. -/
def insertNode (n : NodeId) (nodes : List NodeId) : List NodeId :=
  if n ∈ nodes then nodes else nodes.orderedInsert (· ≤ ·) n

/-- The nodes a transaction adds to (`true`) and removes from (`false`) the configuration, as the
constructor of `ConfigurationChangeHook` collects them. -/
def Tx.cfgDelta (t : Tx) : List (NodeId × Bool) :=
  t.nodes.filterMap fun w =>
    match w.2 with
    | none => none
    | some ni =>
      match ni.status with
      | .pending => none
      | .trusted => some (w.1, true)
      | .retired => some (w.1, false)

/-- The nodes a transaction marks as retired-committed. -/
def Tx.retiredCommittedNodes (t : Tx) : List NodeId :=
  t.nodes.filterMap fun w =>
    match w.2 with
    | none => none
    | some ni => if ni.retiredCommitted then some w.1 else none

/-- The configuration obtained from `conf` by a configuration change. -/
def applyDelta (delta : List (NodeId × Bool)) (conf : List NodeId) : List NodeId :=
  delta.foldl (fun c d => if d.2 then insertNode d.1 c else c.erase d.1) conf

/-- The nodes of the last configuration of a list, none if it is empty. -/
def latestConfiguration (confs : List Configuration) : List NodeId :=
  match confs.getLast? with
  | none => []
  | some c => c.nodes

namespace Aft

variable (a : Aft)

def getLatestConfiguration : List NodeId := latestConfiguration a.configurations

def otherNodesInActiveConfigs : List NodeId :=
  (a.configurations.flatMap (·.nodes)).foldl
    (fun s n => if n = a.state.nodeId ∨ n ∈ s then s else s ++ [n]) []

def isSelfInLatestConfig : Bool := a.state.nodeId ∈ a.getLatestConfiguration

def startTicking : Aft := { a with ticking := true, timeoutElapsed := 0 }

def startTickingIfNecessary : Aft :=
  if !a.ticking ∧ a.isSelfInLatestConfig then a.startTicking else a

/-! ### Node states -/

/-- One iteration of `create_and_remove_node_state`: a new node is sent only future entries. -/
def addNodeState (n : NodeId) : Aft :=
  if n = a.state.nodeId then a
  else if (a.allOtherNodes.lookup n).isSome then a
  else
    let index := a.state.lastIdx + 1
    let b : Aft := { a with
      allOtherNodes := a.allOtherNodes ++ [(n, { sentIdx := index, matchIdx := 0, lastAckTimeout := 0 })] }
    if b.isLeader then b.sendAppendEntries n index else b

def createAndRemoveNodeState : Aft :=
  (a.configurations.flatMap (·.nodes)).foldl addNodeState a

/-! ### Retirement -/

/-- The index of the latest configuration that contains `n`, zero if there is none. -/
def latestReconfId (n : NodeId) : ℕ :=
  match a.configurations.reverse.find? (n ∈ ·.nodes) with
  | none => 0
  | some c => c.idx

/-- The best successor found so far by `send_propose_request_vote`. -/
structure Successor where
  node : Option NodeId := none
  maxMatchIdx : ℕ := 0
  reconfIdOfMaxMatch : ℕ := 0

def considerSuccessor (s : Successor) (n : NodeId × NodeState) : Successor :=
  if n.2.matchIdx ≥ s.maxMatchIdx then
    let latestReconfId := a.latestReconfId n.1
    if ¬(n.2.matchIdx = s.maxMatchIdx ∧ latestReconfId < s.reconfIdOfMaxMatch) then
      { node := some n.1, maxMatchIdx := n.2.matchIdx, reconfIdOfMaxMatch := latestReconfId }
    else s
  else s

def sendProposeRequestVote : Aft :=
  match (a.allOtherNodes.foldl a.considerSuccessor {}).node with
  | none => a
  | some n => a.send n (.proposeRequestVote { term := a.state.currentView })

/-- The last two assignments of `become_retired`. -/
def setRetired (phase : RetirementPhase) : Aft :=
  { a with state.membershipState := .retired, state.retirementPhase := some phase }

def becomeRetired (idx : ℕ) (phase : RetirementPhase) : Result :=
  match phase with
  | .ordered =>
    if a.state.retirementIdx.isSome then .raised .retirementIdxAlreadySet a
    else .ok (setRetired { a with state.retirementIdx := some idx } phase)
  | .signed =>
    match a.state.retirementIdx with
    | none => .raised .retirementIdxMissing a
    | some r =>
      if idx < r then .raised .indexBelowRetirementIdx a
      else .ok (setRetired { a with state.retirementCommittableIdx := some idx } phase)
  | .completed => .ok (a.setRetired phase)
  | .retiredCommitted =>
    let b := if a.isLeader then a.sendProposeRequestVote else a
    .ok (setRetired { b with leaderId := none, state.leadershipState := .none } phase)

/-- The body of the loop of `set_retired_committed`. -/
def setRetiredCommittedNode (seqno : ℕ) (a : Aft) (n : NodeId) : Result :=
  if a.state.nodeId = n then
    if a.isRetired ∧ a.state.retirementPhase = some .completed then
      becomeRetired { a with state.retiredCommittedIdx := some seqno } seqno .retiredCommitted
    else .raised .notRetired a
  else .ok { a with allOtherNodes := Assoc.erase n a.allOtherNodes }

def setRetiredCommitted (seqno : ℕ) (nodes : List NodeId) : Result :=
  Outcome.forEach (setRetiredCommittedNode seqno) nodes a

/-! ### Configurations -/

/-- Push a new configuration and start talking to the nodes it adds. -/
def pushConfiguration (c : Configuration) : Aft :=
  createAndRemoveNodeState { a with configurations := a.configurations ++ [c] }

def addConfiguration (idx : ℕ) (conf : List NodeId) : Result :=
  (if a.configurations ≠ [] ∧ a.state.nodeId ∈ a.getLatestConfiguration ∧ a.state.nodeId ∉ conf then
    a.becomeRetired idx .ordered
  else .ok a).andThen fun b =>
    if b.configurations = [] ∨ conf ≠ b.getLatestConfiguration then .ok (b.pushConfiguration ⟨idx, conf⟩) else .ok b

/-- `ConfigurationChangeHook::call` for the transaction at `version`. -/
def configurationChangeHook (version : ℕ) (t : Tx) : Result :=
  if t.cfgDelta ≠ [] then a.addConfiguration version (applyDelta t.cfgDelta a.getLatestConfiguration) else .ok a

/-- Discard the configurations that are followed by one at or below `idx`. -/
def popConfigurations (idx : ℕ) : List Configuration → List Configuration
  | conf :: next :: rest => if idx < next.idx then conf :: next :: rest else popConfigurations idx (next :: rest)
  | confs => confs

/-! ### Commit -/

/-- The global hooks `store->compact` runs for the entries after `start` up to `idx`. -/
def compactStore (start idx : ℕ) : Result :=
  Outcome.forEach (fun b (e : Entry × ℕ) => b.setRetiredCommitted (e.2 + 1) e.1.tx.retiredCommittedNodes)
    (((a.ledger.take idx).zipIdx).drop start) a

/-- The end of `commit`: pop the configurations that are no longer needed. -/
def discardCommittedConfigurations (idx : ℕ) : Aft :=
  let configurations := popConfigurations idx a.configurations
  let b := { a with configurations := configurations }
  if configurations.length ≠ a.configurations.length then b.createAndRemoveNodeState else b

/-- The retirement of this node is completed once the signature over it is committed. -/
def completeRetirement (idx : ℕ) : Result :=
  if a.isRetired ∧ a.state.retirementPhase = some .signed then
    match a.state.retirementCommittableIdx with
    | none => .ok a
    | some rci => if idx ≥ rci then a.becomeRetired idx .completed else .ok a
  else .ok a

def setCommit (idx : ℕ) : Aft :=
  { a with
    state.committableIndices := a.state.committableIndices.dropWhile (· ≤ idx)
    state.commitIdx := idx }

/-- What follows from the commit of the entries after `start` up to `idx`. -/
def finishCommit (start idx : ℕ) : Result :=
  (a.completeRetirement idx).andThen fun b =>
    (b.compactStore start idx).andThen fun c => .ok (c.discardCommittedConfigurations idx)

def commit (idx : ℕ) : Result :=
  if idx > a.state.lastIdx then .raised .commitBeyondLast a
  else if idx ≤ a.state.commitIdx then .ok a
  else (a.setCommit idx).finishCommit a.state.commitIdx idx

def commitIfPossible (idx : ℕ) : Result :=
  if idx > a.state.commitIdx ∧ a.getTermInternal idx ≤ a.state.currentView then
    match a.findHighestPossibleCommittableIndex idx with
    | none => .ok a
    | some c => a.commit c
  else .ok a

def getQuorum (n : ℕ) : ℕ := n / 2 + 1

/-- The indices matched by the nodes of a configuration; `none` where `all_other_nodes.at` throws. -/
def matchIndices (a : Aft) : List NodeId → Option (List ℕ)
  | [] => some []
  | n :: rest =>
    if n = a.state.nodeId then (a.matchIndices rest).map (a.state.lastIdx :: ·)
    else
      match a.allOtherNodes.lookup n, a.matchIndices rest with
      | some ns, some m => some (ns.matchIdx :: m)
      | _, _ => none

/-- The index a majority of a configuration has reached. -/
def watermark (c : Configuration) : Except AftError ℕ :=
  match a.matchIndices c.nodes with
  | none => .error .unknownNode
  | some m =>
    match (m.insertionSort (· ≤ ·))[(m.length - 1) / 2]? with
    | none => .error .emptyConfiguration
    | some confirmed => .ok confirmed

/-- The loop of `update_commit` over the active configurations. -/
def newAgreementIndex (a : Aft) : List Configuration → Option ℕ → Except AftError (Option ℕ)
  | [], acc => .ok acc
  | c :: rest, acc =>
    match a.watermark c with
    | .error e => .error e
    | .ok confirmed =>
      match acc with
      | none => a.newAgreementIndex rest (some confirmed)
      | some m => a.newAgreementIndex rest (some (if confirmed < m then confirmed else m))

def updateCommit : Result :=
  if ¬a.isLeader then .raised .updateCommitNotLeader a
  else
    match a.newAgreementIndex a.configurations none with
    | .error e => .raised e a
    | .ok none => .ok a
    | .ok (some agreed) =>
      if agreed > a.state.lastIdx then .raised .matchBeyondLeader a
      else
        match a.findHighestPossibleCommittableIndex agreed with
        | none => .ok a
        | some c => if a.getTermInternal c = a.state.currentView then a.commit c else .ok a

/-! ### Rollback -/

/-- `rollback` takes back a retirement that was signed or ordered after `idx`. -/
def rollbackRetirement (s : State) (idx : ℕ) : State :=
  let s₁ :=
    if s.membershipState = .retired ∧ s.retirementPhase = some .signed then
      match s.retirementCommittableIdx with
      | none => s
      | some rci =>
        if rci > idx then { s with retirementCommittableIdx := none, retirementPhase := some .ordered } else s
    else s
  if s₁.membershipState = .retired ∧ s₁.retirementPhase = some .ordered then
    match s₁.retirementIdx with
    | none => s₁
    | some r =>
      if r > idx then { s₁ with retirementIdx := none, retirementPhase := none, membershipState := .active }
      else s₁
  else s₁

/-- The end of `rollback`: pop the configurations above `idx`. -/
def rollbackConfigurations (idx : ℕ) : Aft :=
  let configurations := a.configurations.rdropWhile (·.idx > idx)
  let b := { a with configurations := configurations }
  if configurations.length ≠ a.configurations.length then b.createAndRemoveNodeState else b

def rollback (idx : ℕ) : Aft :=
  if idx < a.state.commitIdx then a
  else
    rollbackConfigurations
      { a with
        ledger := a.ledger.take idx
        state := rollbackRetirement
          { a.state with
            lastIdx := idx
            viewHistory := a.state.viewHistory.rollback idx
            committableIndices := a.state.committableIndices.rdropWhile (· > idx) } idx }
      idx

/-! ### Starting the election timer -/

@[simp] theorem state_startTickingIfNecessary : a.startTickingIfNecessary.state = a.state := by
  unfold startTickingIfNecessary
  split_ifs <;> rfl

@[simp] theorem ledger_startTickingIfNecessary : a.startTickingIfNecessary.ledger = a.ledger := by
  unfold startTickingIfNecessary
  split_ifs <;> rfl

@[simp] theorem configurations_startTickingIfNecessary :
    a.startTickingIfNecessary.configurations = a.configurations := by
  unfold startTickingIfNecessary
  split_ifs <;> rfl

@[simp] theorem allOtherNodes_startTickingIfNecessary :
    a.startTickingIfNecessary.allOtherNodes = a.allOtherNodes := by
  unfold startTickingIfNecessary
  split_ifs <;> rfl

/-! ### What only talks to other nodes -/

theorem talks_addNodeState (n : NodeId) : Talks a (a.addNodeState n) := by
  unfold addNodeState
  split_ifs with hself hknown
  · exact Talks.refl a
  · exact Talks.refl a
  · dsimp only
    split_ifs
    · refine Talks.trans (Eq.refl a.core) (talks_sendAppendEntries _ n _)
    · exact Eq.refl a.core

theorem talks_createAndRemoveNodeState : Talks a a.createAndRemoveNodeState := by
  unfold createAndRemoveNodeState
  exact Talks.foldl talks_addNodeState _ _

theorem talks_sendProposeRequestVote : Talks a a.sendProposeRequestVote := by
  unfold sendProposeRequestVote
  split
  · exact Talks.refl a
  · exact talks_send a _ _

end Aft
end Ccf
