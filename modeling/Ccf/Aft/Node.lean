import Ccf.Aft.Election

/-! # Replication and the operations of a node

`recvAppendEntries` goes through a batch twice, as the source does: `scanEntries` skips the entries the log already
has, cuts the log at the first conflict and collects the rest, which `executeAppendEntriesSync` applies. Entries may be
malformed or fail to deserialise or apply (`Fault`).

`Op` lists the operations of a node and `step` runs one. An exception leaves the state reached when it was thrown. -/

namespace Ccf.Aft

/-! ### Replication on the leader -/

variable (a : Aft)

/-- A retirement that was ordered is signed by the signature at `idx`. -/
def signRetirement (idx : ℕ) : Result :=
  if a.isRetired ∧ a.state.retirementPhase = some .ordered then a.becomeRetired idx .signed else .ok a

def pushCommittable (idx : ℕ) : Aft :=
  { a with
    state.committableIndices := a.state.committableIndices ++ [idx]
    state.committableHistory := a.state.committableHistory ++ [idx] }

/-- The signature case of `replicate`. -/
def replicateSignature (index : ℕ) : Result :=
  (a.signRetirement index).andThen fun b =>
    .ok { (b.pushCommittable index).startTickingIfNecessary with shouldSign := false }

/-- Put a new entry into the ledger of the leader. -/
def putEntry (index : ℕ) (t : Tx) : Aft :=
  { a with
    state.lastIdx := index
    ledger := a.ledger ++ [⟨a.state.currentView, t⟩]
    entrySizeNotLimited := a.entrySizeNotLimited + t.size
    entryCount := a.entryCount + 1 }

/-- The loop body of `replicate` up to the view history. -/
def replicateEntry (index : ℕ) (t : Tx) : Result :=
  (a.configurationChangeHook index t).andThen fun b =>
    (if t.committable then b.replicateSignature index else .ok b).andThen fun c => .ok (c.putEntry index t)

/-- `view_history.update` on the state of a node. -/
def updateViewHistory (idx view : ℕ) : Result :=
  match a.state.viewHistory.update idx view with
  | none => .raised .viewHistoryBackwards a
  | some h => .ok { a with state.viewHistory := h }

/-- Send the pending entries once they reach the size limit. -/
def flushIfFull : Aft :=
  if a.entrySizeNotLimited ≥ appendEntriesSizeLimit then
    sendAppendEntriesToAll { a.updateBatchSize with entryCount := 0, entrySizeNotLimited := 0 }
  else a

/-- The loop of `replicate`; the Boolean tells whether all entries were accepted. -/
def replicateLoop : Aft → List (ℕ × Tx) → Result × Bool
  | a, [] => (.ok a, true)
  | a, (index, t) :: rest =>
    if index ≠ a.state.lastIdx + 1 then (.ok a, false)
    else
      match (a.replicateEntry index t).andThen fun b => b.updateViewHistory index b.state.currentView with
      | .ok b => replicateLoop b.flushIfFull rest
      | .raised e b => (.raised e b, false)

/-- The replication of a batch by the leader: commit at once if there are no other nodes. -/
def replicateBatch (entries : List (ℕ × Tx)) : Result × Bool :=
  match a.replicateLoop entries with
  | (.ok b, true) => (if b.otherNodesInActiveConfigs = [] then b.updateCommit else .ok b, true)
  | r => r

/-- The Boolean is the returned value; it is meaningless when an exception is thrown. -/
def replicate (entries : List (ℕ × Tx)) (term : ℕ) : Result × Bool :=
  if a.isLeader then
    if term ≠ a.state.currentView then (.ok a, false)
    else if a.isRetiredCommitted then (.ok (a.rollback a.state.lastIdx), false)
    else a.replicateBatch entries
  else (.ok (a.rollback a.state.lastIdx), false)

/-! ### Replication on followers -/

def sendAppendEntriesResponse (dst : NodeId) (success : Bool) (term idx : ℕ) : Aft :=
  a.send dst (.appendEntriesResponse { term := term, lastLogIdx := idx, success := success })

def sendAppendEntriesResponseAck (dst : NodeId) (r : AppendEntries) : Aft :=
  a.sendAppendEntriesResponse dst true a.state.currentView r.idx

def sendAppendEntriesResponseNack (dst : NodeId) : Aft :=
  a.sendAppendEntriesResponse dst false a.state.currentView a.state.lastIdx

/-- The NACK for a rejected `prev_idx`, with the best match this node can offer. -/
def sendAppendEntriesResponseNackFor (dst : NodeId) (view seqno : ℕ) : Aft :=
  let responseIdx := a.findHighestPossibleMatch view seqno
  a.sendAppendEntriesResponse dst false (a.getTermInternal responseIdx) responseIdx

/-- What `apply` returns for an entry with expected view `view`: `none` for `FAIL`, otherwise whether
the entry is a signature. -/
def applyEntry (fault : Fault) (view : ℕ) (e : Entry) : Option Bool :=
  if fault = .apply ∨ e.view ≠ view then none else some e.tx.committable

/-- The view history of a follower is only brought up to date at signatures, from the start of the
batch on, since a batch holds entries of one view. -/
def recordSignatureView (r : AppendEntries) (view : ℕ) : Result :=
  if r.termOfIdx = ViewHistory.invalidView then a.updateViewHistory 1 r.term
  else a.updateViewHistory (r.prevIdx + 1) view

/-- The signature case of `execute_append_entries_sync`. -/
def executeSignature (r : AppendEntries) (i : ℕ) (e : Entry) : Result :=
  (a.signRetirement i).andThen fun b =>
    if e.view ≠ 0 then
      ((b.pushCommittable i).recordSignatureView r e.view).andThen fun c => c.commitIfPossible r.leaderCommitIdx
    else .ok (b.pushCommittable i)

/-- The ledger part of an applied entry, where the election timer may start. -/
def recordEntry (e : Entry) : Aft :=
  let b := if e.tx.committable then a.startTickingIfNecessary else a
  { b with ledger := b.ledger ++ [e] }

/-- One applied entry on a follower: `last_idx` moves before the hooks run. -/
def executeEntry (r : AppendEntries) (i : ℕ) (e : Entry) : Result :=
  (configurationChangeHook { a with state.lastIdx := i } i e.tx).andThen fun b =>
    if e.tx.committable then (b.recordEntry e).executeSignature r i e else .ok (b.recordEntry e)

/-- The view of a batch that did not end in a signature started right after the last one. -/
def recordBatchView (r : AppendEntries) : Result :=
  if r.termOfIdx = ViewHistory.invalidView then a.updateViewHistory 1 r.term
  else if r.idx > a.lastCommittableIndex then a.updateViewHistory (a.lastCommittableIndex + 1) r.termOfIdx
  else .ok a

def executeAppendEntriesFinish (r : AppendEntries) (source : NodeId) : Result :=
  (a.commitIfPossible r.leaderCommitIdx).andThen fun b =>
    (b.recordBatchView r).andThen fun c => .ok (c.sendAppendEntriesResponseAck source r)

def executeAppendEntriesSync (faults : ℕ → Fault) (source : NodeId) (r : AppendEntries) :
    List (Entry × ℕ) → Aft → Result
  | [], a => a.executeAppendEntriesFinish r source
  | (e, i) :: rest, a =>
    match applyEntry (faults i) r.termOfIdx e with
    | none => .ok (sendAppendEntriesResponseNack { a with ledger := a.ledger.take (i - 1) } source)
    | some _ => (a.executeEntry r i e).andThen (executeAppendEntriesSync faults source r rest)

/-- The result of the first pass over a batch: the entries left to apply, or the end of the call. -/
inductive Scan where
  | apply (a : Aft) (entries : List (Entry × ℕ))
  | stop (o : Result)

/-- The extraction of one entry of the batch; `none` if it is malformed or cannot be deserialised. -/
def extractEntry (faults : ℕ → Fault) (i : ℕ) : List Entry → Option (Entry × List Entry)
  | [] => none
  | e :: rest => if faults i = .malformed ∨ faults i = .deserialise then none else some (e, rest)

/-- A new follower drops the entries after `k`, which conflict with the batch. -/
def cutAt (k : ℕ) : Aft := { a.rollback k with isNewFollower := false }

/-- The loop of `recv_append_entries` over the indices `i .. i + n - 1`: entries of the log in the view
of the batch are skipped, a conflict is resolved by a new follower and ignored otherwise. -/
def scanEntries (faults : ℕ → Fault) (source : NodeId) (termOfIdx : ℕ) :
    ℕ → ℕ → List Entry → List (Entry × ℕ) → Aft → Scan
  | 0, _, _, acc, a => .apply a acc
  | n + 1, i, data, acc, a =>
    if i ≤ a.state.lastIdx ∧ termOfIdx = a.state.viewHistory.viewAt i then
      match data with
      | [] => .stop (.raised .insufficientData a)
      | _ :: rest => scanEntries faults source termOfIdx n (i + 1) rest acc a
    else if i ≤ a.state.lastIdx ∧ a.isNewFollower = false then .stop (.ok a)
    else
      let b := if i ≤ a.state.lastIdx then a.cutAt (i - 1) else a
      match extractEntry faults i data with
      | none => .stop (.ok (b.sendAppendEntriesResponseNack source))
      | some (e, rest) => scanEntries faults source termOfIdx n (i + 1) rest (acc ++ [(e, i)]) b

/-- The part of `recv_append_entries` after the term checks: entries must not be in the past. -/
def processEntries (faults : ℕ → Fault) (source : NodeId) (r : AppendEntries) (data : List Entry) : Result :=
  if r.prevIdx < a.state.commitIdx then .ok a
  else if r.prevIdx > a.state.lastIdx then .ok a
  else
    match scanEntries faults source r.termOfIdx (r.idx - r.prevIdx) (r.prevIdx + 1) data [] a with
    | .stop o => o
    | .apply b entries => executeAppendEntriesSync faults source r entries b

/-- The terms match up: the sender is the leader of this view. -/
def acceptAppendEntries (draw : ℕ) (faults : ℕ → Fault) (source : NodeId) (r : AppendEntries)
    (data : List Entry) : Result :=
  processEntries { a.restartElectionTimeout draw with leaderId := some source } faults source r data

/-- The check of `prev_idx` and `prev_term` against the log. -/
def checkAppendEntries (draw : ℕ) (faults : ℕ → Fault) (source : NodeId) (r : AppendEntries)
    (data : List Entry) : Result :=
  if a.getTermInternal r.prevIdx ≠ r.prevTerm then
    if a.getTermInternal r.prevIdx = viewUnknown then .ok (a.sendAppendEntriesResponseNack source)
    else .ok (a.sendAppendEntriesResponseNackFor source r.prevTerm r.prevIdx)
  else a.acceptAppendEntries draw faults source r data

/-- Whether an `AppendEntries` of a view that is not older makes the node a follower of that view. -/
abbrev followsTerm (term : ℕ) : Prop :=
  a.state.currentView < term ∨ a.state.leadershipState = .candidate ∨ a.state.leadershipState = .preVoteCandidate

def recvAppendEntries (draw : ℕ) (faults : ℕ → Fault) (source : NodeId) (r : AppendEntries)
    (data : List Entry) : Result :=
  if a.state.currentView > r.term then .ok (a.sendAppendEntriesResponseNack source)
  else
    (if a.followsTerm r.term then a.becomeAwareOfNewTerm draw r.term else a).checkAppendEntries
      draw faults source r data

/-- Assign the state of a known node. -/
def setNode (n : NodeId) (f : NodeState → NodeState) : Aft :=
  { a with allOtherNodes := Assoc.modify n f a.allOtherNodes }

/-- What a leader makes of a response: a stale acknowledgement is dropped, a NACK lowers what the node is
taken to have been sent, an acknowledgement raises its match index. -/
def processResponse (draw : ℕ) (source : NodeId) (r : AppendEntriesResponse) (matchIdx : ℕ) : Result :=
  if a.state.currentView < r.term then .ok (a.becomeAwareOfNewTerm draw r.term)
  else if a.state.currentView ≠ r.term ∧ r.success then .ok a
  else if a.state.currentView = r.term ∧ r.lastLogIdx < matchIdx ∧ r.success then .ok a
  else if !r.success then
    .ok (a.setNode source fun n =>
      { n with sentIdx := max (min (a.findHighestPossibleMatch r.term r.lastLogIdx) n.sentIdx) n.matchIdx })
  else
    updateCommit (a.setNode source fun n => { n with matchIdx := max n.matchIdx r.lastLogIdx })

def recvAppendEntriesResponse (draw : ℕ) (source : NodeId) (r : AppendEntriesResponse) : Result :=
  match a.allOtherNodes.lookup source with
  | none => .ok a
  | some node =>
    if a.isLeader then
      (a.setNode source fun n => { n with lastAckTimeout := 0 }).processResponse draw source r node.matchIdx
    else .ok a

/-! ### Time -/

/-- The nodes of a configuration that are this node or have acknowledged recently. -/
def liveNodesInConfig (c : Configuration) : ℕ :=
  c.nodes.countP fun n =>
    match a.allOtherNodes.lookup n with
    | none => true
    | some ns => ns.lastAckTimeout < a.electionTimeout

abbrev everyActiveConfigHasAQuorum : Prop :=
  ∀ c ∈ a.configurations, a.liveNodesInConfig c ≥ getQuorum c.nodes.length

/-- The periodic sends of a leader. -/
def periodicSend : Aft :=
  if a.timeoutElapsed ≥ a.requestTimeout then
    sendAppendEntriesToAll (updateBatchSize { a with timeoutElapsed := 0 })
  else a

/-- Let time pass since the last acknowledgement of every node. -/
def waitForAcks (elapsed : ℕ) : Aft :=
  { a with
    allOtherNodes := a.allOtherNodes.map fun n => (n.1, { n.2 with lastAckTimeout := n.2.lastAckTimeout + elapsed }) }

/-- A leader that has not heard of a quorum of some configuration steps down. -/
def checkQuorum (draw : ℕ) : Aft := if a.everyActiveConfigHasAQuorum then a else a.becomeFollower draw

/-- `periodic`, once the elapsed time is added. -/
def tick (draw elapsed : ℕ) : Result :=
  if a.isLeader then .ok ((a.periodicSend.waitForAcks elapsed).checkQuorum draw)
  else if ¬a.isRetiredCommitted ∧ a.ticking ∧ a.timeoutElapsed ≥ a.electionTimeout then
    if a.state.preVoteEnabled then a.becomePreVoteCandidate draw else a.becomeCandidate draw
  else .ok a

def periodic (draw elapsed : ℕ) : Result :=
  tick { a with timeoutElapsed := a.timeoutElapsed + elapsed } draw elapsed

/-! ### Operations -/

/-- `recv_message`, after the message is authenticated and decoded. -/
def recvMessage (draw : ℕ) (faults : ℕ → Fault) (source : NodeId) : Msg → Result
  | .appendEntries r data => a.recvAppendEntries draw faults source r data
  | .appendEntriesResponse r => a.recvAppendEntriesResponse draw source r
  | .requestVote r electionType => .ok (a.recvRequestVoteUnsafe draw source r electionType)
  | .requestVoteResponse r electionType => a.recvRequestVoteResponse draw source r electionType
  | .proposeRequestVote r => a.recvProposeRequestVote draw r

inductive Op where
  | replicate (entries : List (ℕ × Tx)) (term : ℕ)
  | recvMessage (draw : ℕ) (faults : ℕ → Fault) (source : NodeId) (m : Msg)
  | periodic (draw elapsed : ℕ)
  | nominateSuccessor
  | rollback (idx : ℕ)
  | forceBecomePrimary

/-- The result of an operation. -/
def perform : Op → Result
  | .replicate entries term => (a.replicate entries term).1
  | .recvMessage draw faults source m => a.recvMessage draw faults source m
  | .periodic draw elapsed => a.periodic draw elapsed
  | .nominateSuccessor => .ok a.nominateSuccessor
  | .rollback idx => .ok (a.rollback idx)
  | .forceBecomePrimary => a.forceBecomePrimary

/-- The state a node is in after an operation. -/
def step (op : Op) : Aft := (a.perform op).state

/-- A node that has just been constructed. -/
def init (nodeId : NodeId) (preVoteEnabled : Bool) (requestTimeout electionTimeout : ℕ) : Aft :=
  { state := { nodeId, preVoteEnabled }, requestTimeout, electionTimeout }

end Ccf.Aft
