import Ccf.Aft.Reconfiguration

/-! # A network of Aft nodes

A `World` has a node for every identifier and a channel for every pair of nodes. Nodes perform operations one at a
time; what an operation hands to the channel manager is put on the channels. `Action.deliver` may take any message of
a channel; where channels keep the order it is the first one (`Action.Fifo`). `sent` is a history variable.

The service is created by one node, the primary, which forces itself to become leader and replicates a transaction
that makes it the only trusted node, followed by a signature. All other nodes are new. -/

namespace Ccf

open Function

structure Packet where
  src : NodeId
  dst : NodeId
  msg : Msg
deriving DecidableEq, Repr

structure World where
  nodes : NodeId → Aft
  channels : NodeId → NodeId → List Msg
  sent : List Packet

inductive Action where
  | replicate (i : NodeId) (entries : List (ℕ × Tx)) (term : ℕ)
  | periodic (i : NodeId) (draw elapsed : ℕ)
  | nominateSuccessor (i : NodeId)
  | deliver (src dst : NodeId) (k draw : ℕ) (faults : ℕ → Fault)
  | drop (src dst : NodeId) (k : ℕ)

/-- A delivery takes the oldest message of its channel. -/
def Action.Fifo : Action → Prop
  | .deliver _ _ k _ _ => k = 0
  | _ => True

/-- Every entry that is delivered can be deserialised and applied. -/
def Action.Applies : Action → Prop
  | .deliver _ _ _ _ faults => ∀ i, faults i = .none
  | _ => True

/-- The node that performs an operation. -/
def Action.actor : Action → Option NodeId
  | .replicate i .. | .periodic i .. | .nominateSuccessor i => some i
  | .deliver _ dst .. => some dst
  | .drop .. => none

namespace World

/-- Put the messages a node has sent on its channels. -/
def post (src : NodeId) (channels : NodeId → NodeId → List Msg) (outbox : List (NodeId × Msg)) :
    NodeId → NodeId → List Msg :=
  update channels src fun dst =>
    channels src dst ++ outbox.filterMap fun p => if p.1 = dst then some p.2 else none

/-- Node `i` performs an operation. -/
def act (w : World) (i : NodeId) (op : Aft.Op) : World :=
  let a := (w.nodes i).step op
  { nodes := update w.nodes i { a with outbox := [] }
    channels := post i w.channels a.outbox
    sent := w.sent ++ a.outbox.map fun p => ⟨i, p.1, p.2⟩ }

/-- Take message `k` off a channel. -/
def take (w : World) (src dst : NodeId) (k : ℕ) : World :=
  { w with
    channels := update w.channels src
      (update (w.channels src) dst ((w.channels src dst).eraseIdx k)) }

def step (w : World) : Action → World
  | .replicate i entries term => w.act i (.replicate entries term)
  | .periodic i draw elapsed => w.act i (.periodic draw elapsed)
  | .nominateSuccessor i => w.act i .nominateSuccessor
  | .deliver src dst k draw faults =>
    match (w.channels src dst)[k]? with
    | none => w
    | some m => (w.take src dst k).act dst (.recvMessage draw faults src m)
  | .drop src dst k => w.take src dst k

/-- The world after a sequence of actions. -/
abbrev run (w : World) (actions : List Action) : World := Runs.exec step w actions

end World

/-! ### Starting a service -/

/-- The beginning of a ledger: the transaction that creates the service, and its signature. -/
structure Genesis where
  primary : NodeId
  create : Tx
  signature : Tx
  create_unsigned : create.committable = false
  create_delta : create.cfgDelta = [(primary, true)]
  create_marks : create.retiredCommittedNodes = []
  signature_signed : signature.committable = true
  signature_delta : signature.cfgDelta = []
  signature_marks : signature.retiredCommittedNodes = []

/-- The settings of the nodes. -/
structure Setup where
  preVoteEnabled : NodeId → Bool
  requestTimeout : NodeId → ℕ
  electionTimeout : NodeId → ℕ

def Setup.init (c : Setup) (i : NodeId) : Aft :=
  Aft.init i (c.preVoteEnabled i) (c.requestTimeout i) (c.electionTimeout i)

namespace Genesis

variable (g : Genesis)

/-- What the primary does to start the service. -/
def ops : List Aft.Op := [.forceBecomePrimary, .replicate [(1, g.create), (2, g.signature)] startingViewChange]

def log : List Entry := [⟨startingViewChange, g.create⟩, ⟨startingViewChange, g.signature⟩]

def start (c : Setup) : World where
  nodes := update c.init g.primary (Runs.exec Aft.step (c.init g.primary) g.ops)
  channels _ _ := []
  sent := []

end Genesis

end Ccf
