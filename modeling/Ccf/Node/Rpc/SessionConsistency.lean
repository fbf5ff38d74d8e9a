import Ccf.Network.Safety

/-! # Session consistency (`src/node/rpc/frontend.h`)

The requests of a session are executed in turn on a node, while consensus goes on. A request creates a transaction,
whose state is fixed when its handler first uses the store; then the view of the node is compared with the view that
was recorded for the first request of the session, and the transaction is committed.

The store of a node has the transactions of its log and those not replicated yet. A transaction is applied to the
store before it is passed to consensus, which rolls the store back to the end of the log whenever it is passed a batch
while the node does not lead, and as a part of other operations. Whether an operation that leaves the log alone
rolls the store back is left open.

`answers` and the view of an executed request are history variables. -/

namespace Ccf.Node.SessionConsistency

/-! ### Sessions -/

inductive Result where
  /-- The log that has been observed or written. -/
  | success (log : List Entry)
  | sessionConsistencyLost (msg : String)
  | failed
deriving DecidableEq

def Result.log? : Result → Option (List Entry)
  | .success log => some log
  | _ => none

def Result.isLost : Result → Bool
  | .sessionConsistencyLost _ => true
  | _ => false

/-- The answer to a request that was executed on the state of a log. -/
structure Answer where
  read : List Entry
  result : Result
deriving DecidableEq

inductive Phase where
  | idle
  /-- The request has a transaction. -/
  | created
  /-- The handler was executed, on the state of `read`, when the node was in `view`. -/
  | executed (view : ℕ) (read : List Entry)
  | checked (read : List Entry)
  /-- The transaction is applied to the store, as the last one of `log`. -/
  | written (read log : List Entry)
  | closed

structure Session where
  node : NodeId
  clientSessionId : ℕ
  activeView : Option ℕ := none
  phase : Phase := .idle
  answers : List Answer := []

namespace Session

variable (se : Session)

/-- `check_session_consistency`; the message of the error, if the view has changed. -/
def checkSessionConsistency (currentView : ℕ) : Option String × Session :=
  match se.activeView with
  | none => (none, { se with activeView := some currentView })
  | some activeView =>
    if currentView ≠ activeView then
      (some (s!"Potential loss of session consistency on session {se.clientSessionId}. " ++
        s!"Started in view {activeView}, now in view {currentView}. Closing session."), se)
    else (none, se)

def answer (read : List Entry) (result : Result) : Session :=
  { se with phase := .idle, answers := se.answers ++ [⟨read, result⟩] }

/-- A request that is not answered with a lost session is executed on a state that has what earlier requests of the
session have observed or written. -/
def Consistent : Prop :=
  se.answers.Pairwise fun earlier later => ∀ log ∈ earlier.result.log?, later.result.isLost = false → log <+: later.read

instance : Decidable se.Consistent := inferInstanceAs (Decidable (List.Pairwise _ _))

end Session

/-! ### Nodes with sessions -/

structure System where
  world : World
  /-- The transactions in the store of a node that it has not replicated. -/
  unreplicated : NodeId → List Entry
  sessions : ℕ → Session

inductive Action where
  /-- An operation of consensus, and whether it rolls the store back. -/
  | consensus (x : Ccf.Action) (rollsBack : Bool)
  /-- A transaction that belongs to no session is applied to the store. -/
  | apply (i : NodeId) (e : Entry)
  /-- The first `n` transactions are passed to consensus. -/
  | replicate (i : NodeId) (n term : ℕ)
  | create (k : ℕ)
  /-- The request is redirected or rejected before it is executed. -/
  | decline (k : ℕ)
  | forward (k : ℕ)
  | execute (k : ℕ) (throws : Bool)
  | check (k : ℕ)
  /-- There is nothing to write. -/
  | respond (k : ℕ) (shouldApplyWrites : Bool)
  /-- The transaction is in conflict with another one. -/
  | retry (k : ℕ)
  | write (k : ℕ) (e : Entry)
  /-- `Store::commit`, when `n` transactions have become contiguous. -/
  | commit (k : ℕ) (n term : ℕ)
  /-- The transaction is not replicated, or has been in conflict too often. -/
  | fail (k : ℕ)

namespace System

variable (s : System)

def init (g : Genesis) (c : Setup) (home : ℕ → NodeId) : System where
  world := g.start c
  unreplicated _ := []
  sessions k := { node := home k, clientSessionId := k }

/-- The log of the store of a node. -/
def log (i : NodeId) : List Entry := (s.world.nodes i).ledger ++ s.unreplicated i

/-- The node a session is on. -/
def home (k : ℕ) : Aft := s.world.nodes (s.sessions k).node

def setSession (k : ℕ) (se : Session) : System := { s with sessions := Function.update s.sessions k se }

def consensus (x : Ccf.Action) (rollsBack : Bool) : System :=
  let world := s.world.step x
  { s with
    world := world
    unreplicated := fun i =>
      if x.actor = some i ∧ (rollsBack = true ∨ (world.nodes i).ledger ≠ (s.world.nodes i).ledger) then []
      else s.unreplicated i }

def batch (i : NodeId) (n : ℕ) : List (ℕ × Tx) :=
  ((s.unreplicated i).take n).mapIdx fun k e => ((s.world.nodes i).ledger.length + 1 + k, e.tx)

def replicate (i : NodeId) (n term : ℕ) : System :=
  let a := s.world.nodes i
  let world := s.world.step (.replicate i (s.batch i n) term)
  { s with
    world := world
    unreplicated := Function.update s.unreplicated i
      (if a.isLeader ∧ ¬a.isRetiredCommitted then
        (s.unreplicated i).drop ((world.nodes i).ledger.length - a.ledger.length)
      else []) }

/-- The check of a request that has been executed. -/
def check (k : ℕ) (read : List Entry) : System :=
  match (s.sessions k).checkSessionConsistency (s.home k).state.currentView with
  | (some msg, se) => s.setSession k { se.answer read (.sessionConsistencyLost msg) with phase := .closed }
  | (none, se) => s.setSession k { se with phase := .checked read }

/-- The check of a request that is to be forwarded, and is executed elsewhere. -/
def forward (k : ℕ) : System :=
  match (s.sessions k).checkSessionConsistency (s.home k).state.currentView with
  | (some _, se) => s.setSession k { se with phase := .closed }
  | (none, se) => s.setSession k { se with phase := .idle }

/-- A transaction that waits for an earlier one is taken to be committed. -/
def commit (k n term : ℕ) (read written : List Entry) : System :=
  let se := s.sessions k
  if n = 0 then s.setSession k (se.answer read (.success written))
  else
    let accepted := ((s.home k).replicate (s.batch se.node n) term).2
    (s.replicate se.node n term).setSession k (se.answer read (if accepted then .success written else .failed))

def step (s : System) : Action → System
  | .consensus (.replicate ..) _ => s
  | .consensus x rollsBack => s.consensus x rollsBack
  | .apply i e => { s with unreplicated := Function.update s.unreplicated i (s.unreplicated i ++ [e]) }
  | .replicate i n term => s.replicate i n term
  | .create k =>
    match (s.sessions k).phase with
    | .idle => s.setSession k { s.sessions k with phase := .created }
    | _ => s
  | .decline k =>
    match (s.sessions k).phase with
    | .created => s.setSession k { s.sessions k with phase := .idle }
    | _ => s
  | .forward k =>
    match (s.sessions k).phase with
    | .created => s.forward k
    | _ => s
  | .execute k throws =>
    match (s.sessions k).phase with
    | .created =>
      let read := s.log (s.sessions k).node
      -- an exception is answered before the view is compared
      if throws then s.setSession k ((s.sessions k).answer read .failed)
      else s.setSession k { s.sessions k with phase := .executed (s.home k).state.currentView read }
    | _ => s
  | .check k =>
    match (s.sessions k).phase with
    | .executed _ read => s.check k read
    | _ => s
  | .respond k shouldApplyWrites =>
    match (s.sessions k).phase with
    | .checked read =>
      s.setSession k ((s.sessions k).answer read (if shouldApplyWrites then .success read else .failed))
    | _ => s
  | .retry k =>
    match (s.sessions k).phase with
    | .checked _ => s.setSession k { s.sessions k with phase := .created }
    | _ => s
  | .write k e =>
    match (s.sessions k).phase with
    | .checked read =>
      let i := (s.sessions k).node
      { s.setSession k { s.sessions k with phase := .written read (s.log i ++ [e]) } with
        unreplicated := Function.update s.unreplicated i (s.unreplicated i ++ [e]) }
    | _ => s
  | .commit k n term =>
    match (s.sessions k).phase with
    | .written read written => s.commit k n term read written
    | _ => s
  | .fail k =>
    match (s.sessions k).phase with
    | .checked read | .written read _ => s.setSession k ((s.sessions k).answer read .failed)
    | _ => s

/-! ### Conditions -/

/-- Consensus is regular, and entries are well formed. -/
def Lawful : Action → Prop
  | .consensus (.replicate ..) _ => True
  | .consensus x _ => s.world.Regular x
  | .replicate i n term => s.world.Fits (.replicate i (s.batch i n) term)
  | .commit k n term => s.world.Fits (.replicate (s.sessions k).node (s.batch (s.sessions k).node n) term)
  | _ => True

/-- The message acknowledges the log up to `idx` to the leader of `view`. -/
def Acknowledges (view idx : ℕ) : Msg → Prop
  | .appendEntriesResponse r => r.success = true ∧ r.term = view ∧ idx ≤ r.lastLogIdx
  | _ => False

/-- The store has what the node has replicated, which is the log of the leader of the view: the node leads, or has
acknowledged its log in its view, or has committed it. -/
def Settled (i : NodeId) : Prop :=
  let a := s.world.nodes i
  s.unreplicated i = [] ∧ (a.isLeader ∨ a.ledger.length ≤ a.state.commitIdx ∨
    ∃ p ∈ s.world.sent, p.src = i ∧ Acknowledges a.state.currentView a.ledger.length p.msg)

/-- The first request of a session is checked in the view it was executed in. -/
def ChecksInView (k : ℕ) : Phase → Prop
  | .executed view _ => (s.sessions k).activeView = none → (s.home k).state.currentView = view
  | _ => True

/-- A transaction is committed by the leader of the view it began in, in the batch it belongs to. -/
def CommitsInBatch (k n term : ℕ) : Phase → Prop
  | .written _ written =>
    let batch := (s.unreplicated (s.sessions k).node).take n
    (s.home k).isLeader ∧ term = (s.home k).state.currentView ∧
      (∀ e ∈ batch, e.view = (s.home k).state.currentView) ∧ written <+: (s.home k).ledger ++ batch
  | _ => True

/-- Requests are executed on settled stores, and handlers do not throw when the view has changed. -/
def Guarded : Action → Prop
  | .execute k throws =>
    if throws then ∀ view ∈ (s.sessions k).activeView, (s.home k).state.currentView = view
    else s.Settled (s.sessions k).node
  | .check k => s.ChecksInView k (s.sessions k).phase
  | .commit k n term => s.CommitsInBatch k n term (s.sessions k).phase
  | _ => True

instance (s : System) (x : Action) : Decidable (s.Lawful x) := by
  rcases x with ⟨_ | _⟩ | _ <;> unfold Lawful <;> infer_instance

instance (view idx : ℕ) (msg : Msg) : Decidable (Acknowledges view idx msg) := by
  cases msg <;> unfold Acknowledges <;> infer_instance

instance (s : System) (i : NodeId) : Decidable (s.Settled i) := by unfold Settled; infer_instance

instance (s : System) (k : ℕ) (phase : Phase) : Decidable (s.ChecksInView k phase) := by
  cases phase <;> unfold ChecksInView <;> infer_instance

instance (s : System) (k n term : ℕ) (phase : Phase) : Decidable (s.CommitsInBatch k n term phase) := by
  cases phase <;> unfold CommitsInBatch <;> infer_instance

instance (s : System) (x : Action) : Decidable (s.Guarded x) := by cases x <;> unfold Guarded <;> infer_instance

end System

end Ccf.Node.SessionConsistency
