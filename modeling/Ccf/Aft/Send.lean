import Ccf.Aft.Types
import Ccf.Lib.Assoc

/-! # Reading the log and sending it

The functions of `Aft` that only read the log state, and the construction of `AppendEntries` batches:
`sendAppendEntries` cuts the range from a start index to the end of the log into messages of one view and at most
`entriesBatchSize` entries, always sending at least one.

`Talks a b` says that `b` differs from `a` at most in what sending changes: what it knows of the other nodes and its
messages. -/

namespace Ccf.Aft

open Assoc

def appendEntriesSizeLimit : ℕ := 20000

def batchWindowSize : ℤ := 100

variable (a : Aft) {α : Type*}

abbrev isLeader : Prop := a.state.leadershipState = .leader

abbrev isRetired : Prop := a.state.membershipState = .retired

abbrev isRetiredCommitted : Prop :=
  a.state.membershipState = .retired ∧ a.state.retirementPhase = some .retiredCommitted

def lastCommittableIndex : ℕ := a.state.committableIndices.getLast?.getD a.state.commitIdx

/-- The highest committable index which is not greater than `idx`. -/
def findHighestPossibleCommittableIndex (idx : ℕ) : Option ℕ :=
  a.state.committableIndices.reverse.find? (· ≤ idx)

def getTermInternal (idx : ℕ) : ℕ :=
  if idx > a.state.lastIdx then viewUnknown else a.state.viewHistory.viewAt idx

/-- The loop of `find_highest_possible_match`: from `probe`, step to the end of the previous view until
its view is at most `view`. Views decrease, so `fuel` many steps suffice when it is the first view. -/
def probeMatch (h : ViewHistory) (view : ℕ) : ℕ → ℕ → ℕ
  | 0, probe => probe
  | fuel + 1, probe =>
    if h.viewAt probe > view then probeMatch h view fuel (h.startOfView (h.viewAt probe) - 1) else probe

def findHighestPossibleMatch (view seqno : ℕ) : ℕ :=
  let probeIndex := min seqno a.state.lastIdx
  probeMatch a.state.viewHistory view (a.state.viewHistory.viewAt probeIndex) probeIndex

def updateBatchSize : Aft :=
  let avgEntrySize := if a.entryCount = 0 then appendEntriesSizeLimit else a.entrySizeNotLimited / a.entryCount
  let batchSize := if avgEntrySize = 0 then appendEntriesSizeLimit / 2 else appendEntriesSizeLimit / avgEntrySize
  let batchAvg := a.batchWindowSum.tdiv batchWindowSize
  let batchWindowSum := a.batchWindowSum + (batchSize - batchAvg)
  { a with
    batchWindowSum := batchWindowSum
    entriesBatchSize := (max (batchWindowSum.tdiv batchWindowSize) 1).toNat }

/-- Hand a message to the channel manager. -/
def send (dst : NodeId) (m : Msg) : Aft := { a with outbox := a.outbox ++ [(dst, m)] }

/-- Cap a batch to `entriesBatchSize` entries of a single view. -/
def calculateEndIndex (start : ℕ) : ℕ :=
  let indexAtEndOfTerm := a.state.viewHistory.endOfView (a.state.viewHistory.viewAt start)
  let maxIdx := if indexAtEndOfTerm ≠ 0 then indexAtEndOfTerm else a.state.lastIdx
  min (start + a.entriesBatchSize - 1) maxIdx

/-- The `AppendEntries` for `startIdx .. endIdx`, with the entries the host appends to it. -/
def appendEntriesFor (startIdx endIdx : ℕ) : Msg :=
  .appendEntries
    { idx := endIdx
      prevIdx := startIdx - 1
      term := a.state.currentView
      prevTerm := a.getTermInternal (startIdx - 1)
      leaderCommitIdx := a.state.commitIdx
      termOfIdx := a.getTermInternal endIdx }
    ((a.ledger.take endIdx).drop (startIdx - 1))

/-- Sends nothing when `dst` is unknown, where `all_other_nodes.at` would throw: every caller passes a
key of `allOtherNodes`. -/
def sendAppendEntriesRange (dst : NodeId) (startIdx endIdx : ℕ) : Aft :=
  if a.isRetiredCommitted ∧ startIdx ≥ endIdx then a
  else if (a.allOtherNodes.lookup dst).isSome then
    { a.send dst (a.appendEntriesFor startIdx endIdx) with
      allOtherNodes := modify dst (fun n => { n with sentIdx := endIdx }) a.allOtherNodes }
  else a

/-- The `do .. while` loop of `send_append_entries`. -/
def sendAppendEntriesLoop : ℕ → Aft → NodeId → ℕ → Aft
  | 0, a, _, _ => a
  | fuel + 1, a, dst, startIdx =>
    let endIdx := a.calculateEndIndex startIdx
    let b := a.sendAppendEntriesRange dst startIdx endIdx
    if endIdx ≠ a.state.lastIdx then sendAppendEntriesLoop fuel b dst (min (endIdx + 1) a.state.lastIdx) else b

def sendAppendEntries (dst : NodeId) (startIdx : ℕ) : Aft :=
  sendAppendEntriesLoop (a.state.lastIdx + 2) a dst startIdx

/-- Send every known node what it has not been sent yet. -/
def sendAppendEntriesToAll : Aft :=
  a.allOtherNodes.foldl (fun b n => b.sendAppendEntries n.1 (n.2.sentIdx + 1)) a

/-! ### What sending leaves alone -/

/-- A node without its knowledge of other nodes and its outgoing messages. -/
def core : Aft := { a with allOtherNodes := [], outbox := [] }

def Talks (a b : Aft) : Prop := b.core = a.core

namespace Talks

variable {a b c : Aft}

theorem refl (a : Aft) : Talks a a := Eq.refl a.core

theorem trans (hab : Talks a b) (hbc : Talks b c) : Talks a c := Eq.trans hbc hab

variable (h : Talks a b)
include h

theorem state_eq : b.state = a.state := by
  have hcore := congrArg Aft.state h
  exact hcore

theorem ledger_eq : b.ledger = a.ledger := by
  have hcore := congrArg Aft.ledger h
  exact hcore

theorem configurations_eq : b.configurations = a.configurations := by
  have hcore := congrArg Aft.configurations h
  exact hcore

theorem entriesBatchSize_eq : b.entriesBatchSize = a.entriesBatchSize := by
  have hcore := congrArg Aft.entriesBatchSize h
  exact hcore

omit h

theorem foldl {f : Aft → α → Aft} (hf : ∀ b x, Talks b (f b x)) (l : List α) (a : Aft) :
    Talks a (l.foldl f a) :=
  l.foldlRecOn f (refl a) fun b hb x _ => hb.trans (hf b x)

end Talks

theorem talks_send (dst : NodeId) (m : Msg) : Talks a (a.send dst m) := Eq.refl a.core

theorem talks_sendAppendEntriesRange (dst : NodeId) (startIdx endIdx : ℕ) :
    Talks a (a.sendAppendEntriesRange dst startIdx endIdx) := by
  unfold sendAppendEntriesRange
  split_ifs
  · exact Talks.refl a
  · exact Eq.refl a.core
  · exact Talks.refl a

/-- The rule for the loop of `send_append_entries`: what every range keeps is kept. -/
theorem sendAppendEntries_rel {R : Aft → Aft → Prop} (hrefl : ∀ a, R a a)
    (htrans : ∀ {a b c}, R a b → R b c → R a c) {dst : NodeId}
    (hrange : ∀ a startIdx endIdx, R a (a.sendAppendEntriesRange dst startIdx endIdx)) (a : Aft) (startIdx : ℕ) :
    R a (a.sendAppendEntries dst startIdx) := by
  unfold sendAppendEntries
  generalize a.state.lastIdx + 2 = fuel
  induction fuel generalizing a startIdx with
  | zero => exact hrefl a
  | succ fuel ih =>
    unfold sendAppendEntriesLoop
    dsimp only
    split_ifs
    · exact htrans (hrange a startIdx _) (ih _ _)
    · exact hrange a startIdx _

theorem talks_sendAppendEntries (dst : NodeId) (startIdx : ℕ) :
    Talks a (a.sendAppendEntries dst startIdx) :=
  sendAppendEntries_rel Talks.refl Talks.trans (fun a => talks_sendAppendEntriesRange a dst) a startIdx

theorem talks_sendAppendEntriesToAll : Talks a a.sendAppendEntriesToAll := by
  unfold sendAppendEntriesToAll
  exact Talks.foldl (fun b (n : NodeId × NodeState) => talks_sendAppendEntries b n.1 (n.2.sentIdx + 1)) _ _

/-! ### The nodes that are known stay the same -/

theorem keys_sendAppendEntriesRange (dst : NodeId) (startIdx endIdx : ℕ) :
    keys (a.sendAppendEntriesRange dst startIdx endIdx).allOtherNodes = keys a.allOtherNodes := by
  unfold sendAppendEntriesRange
  split_ifs
  · rfl
  · simp
  · rfl

theorem keys_sendAppendEntries (dst : NodeId) (startIdx : ℕ) :
    keys (a.sendAppendEntries dst startIdx).allOtherNodes = keys a.allOtherNodes :=
  sendAppendEntries_rel (R := fun a b => keys b.allOtherNodes = keys a.allOtherNodes) (fun _ => rfl)
    (fun hab hbc => hbc.trans hab) (fun a => keys_sendAppendEntriesRange a dst) a startIdx

theorem keys_foldl {f : Aft → α → Aft}
    (hf : ∀ b x, keys (f b x).allOtherNodes = keys b.allOtherNodes) (l : List α) (a : Aft) :
    keys (l.foldl f a).allOtherNodes = keys a.allOtherNodes :=
  l.foldlRecOn f (motive := fun b => keys b.allOtherNodes = _) rfl fun b hb x _ => (hf b x).trans hb

theorem keys_sendAppendEntriesToAll :
    keys a.sendAppendEntriesToAll.allOtherNodes = keys a.allOtherNodes := by
  unfold sendAppendEntriesToAll
  exact keys_foldl (fun b (n : NodeId × NodeState) => keys_sendAppendEntries b n.1 (n.2.sentIdx + 1)) _ _

end Ccf.Aft
