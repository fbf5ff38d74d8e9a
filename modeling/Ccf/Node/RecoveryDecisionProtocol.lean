import Mathlib.Data.Finset.Card
import Mathlib.Data.Prod.Lex
import Ccf.Kv.Store
import Ccf.Lib.Runs

/-! # The recovery decision protocol

The nodes of a service that restarts decide which of them opens it (`src/node/recovery_decision_protocol.cpp` and
`src/node/rpc/self_healing_open_handlers.h`). They gossip the last transaction each has recovered, vote for the
greatest, and a node with the votes of a majority opens the service and tells the others to join it. A second state
machine counts timeouts: a timeout moves a node on if both machines are in the same state.

A node is its tables. Messages are HTTP requests between nodes that run trusted code; a request that fails leaves
the tables as they were. What has been sent may be delivered any number of times, in any order, or never. -/

namespace Ccf.Node.RecoveryDecisionProtocol

open Kv (TxID)

inductive StateMachine where
  | gossiping
  | voting
  | opening
  | joining
  | «open»
deriving DecidableEq

inductive OpenKind where
  | quorum
  | failover
deriving DecidableEq

variable {ν : Type*}

/-- The tables of a node; `nodes` are the keys of `NodeInfoMap`. -/
structure Tables (ν : Type*) where
  smState : StateMachine
  timeoutState : StateMachine
  nodes : Finset ν
  gossips : List (ν × TxID)
  chosen : Option ν
  votes : Finset ν
  openKind : Option OpenKind

/-- The tables after `try_start`. -/
def Tables.start : Tables ν where
  smState := .gossiping
  timeoutState := .gossiping
  nodes := ∅
  gossips := []
  chosen := none
  votes := ∅
  openKind := none

inductive Error (ν : Type*) where
  | noGossip
  | chosenNotSet
  | chosenNotFound (name : ν)
  | alreadyVoted (name : ν)
  | alreadyOpen
deriving DecidableEq

inductive Body where
  | gossip (txid : TxID)
  | vote
  | iamopen
deriving DecidableEq

structure Msg (ν : Type*) where
  source : ν
  target : ν
  body : Body
deriving DecidableEq

/-- What nodes are ordered by. -/
def rank (name : ν) (txid : TxID) : ℕ ×ₗ ℕ ×ₗ ν := toLex (txid.view, toLex (txid.seqno, name))

/-- The name in a rank. -/
def nameOf (r : ℕ ×ₗ ℕ ×ₗ ν) : ν := (ofLex (ofLex r).2).2

variable [LinearOrder ν]

/-- The loop over the gossips. -/
def maximum (gossips : List (ν × TxID)) : Option (ℕ ×ₗ ℕ ×ₗ ν) :=
  gossips.foldl (fun found p =>
    match found with
    | none => some (rank p.1 p.2)
    | some r => if r < rank p.1 p.2 then some (rank p.1 p.2) else some r) none

/-- The timeout state machine. -/
def advanceTimeout (timeout : Bool) (s : Tables ν) : Tables ν :=
  if timeout then
    match s.timeoutState with
    | .gossiping => { s with timeoutState := .voting }
    | .voting => { s with timeoutState := .opening }
    | .opening | .joining | .open => s
  else s

/-- `advance`, for `n` expected locations: the tables it leaves and how it opened the service, if it did. -/
def advance (n : ℕ) (s : Tables ν) (timeout : Bool) : Except (Error ν) (Tables ν × Option OpenKind) :=
  let validTimeout : Bool := timeout && s.smState = s.timeoutState
  let complete : Tables ν := if validTimeout then { s with smState := .open } else s
  match s.smState with
  | .gossiping =>
    if n ≤ s.gossips.length ∨ validTimeout then
      match maximum s.gossips with
      | none => .error .noGossip
      | some r => .ok (advanceTimeout timeout { s with chosen := some (nameOf r), smState := .voting }, none)
    else .ok (advanceTimeout timeout s, none)
  | .voting =>
    let sufficientQuorum : Bool := n / 2 + 1 ≤ s.votes.card
    if sufficientQuorum ∨ validTimeout then
      -- returns before the timeout state machine
      if validTimeout ∧ s.votes.card = 0 then .ok (s, none)
      else
        let kind := if validTimeout ∧ ¬sufficientQuorum then OpenKind.failover else .quorum
        .ok (advanceTimeout timeout { s with openKind := some kind, smState := .opening }, some kind)
    else .ok (advanceTimeout timeout s, none)
  | .joining =>
    match s.chosen with
    | none => .error .chosenNotSet
    | some name =>
      -- asks for a restart and falls through
      if name ∈ s.nodes then .ok (advanceTimeout timeout complete, none) else .error (.chosenNotFound name)
  | .opening => .ok (advanceTimeout timeout complete, none)
  | .open => .ok (advanceTimeout timeout s, none)

/-- The callbacks of the endpoints. -/
def handle (s : Tables ν) (source : ν) : Body → Except (Error ν) (Tables ν)
  | .gossip txid =>
    match s.chosen with
    | some name => .error (.alreadyVoted name)
    | none =>
      if source ∈ s.gossips.map Prod.fst then .ok s
      else .ok { s with gossips := s.gossips ++ [(source, txid)] }
  | .vote => .ok { s with votes := insert source s.votes }
  | .iamopen =>
    if s.smState = .opening ∨ s.smState = .open then .error .alreadyOpen
    else .ok { s with smState := .joining, chosen := some source }

/-- `wrap_recovery_decision_protocol`: the sender is recorded, then the callback runs, then `advance`. -/
def receive (n : ℕ) (s : Tables ν) (source : ν) (body : Body) : Except (Error ν) (Tables ν × Option OpenKind) := do
  let s ← handle { s with nodes := insert source s.nodes } source body
  advance n s false

/-- The nodes that take part, with the last signed transaction each of them has recovered. -/
structure Config (ν : Type*) where
  expectedLocations : List ν
  nodup : expectedLocations.Nodup
  lastRecoveredSignedTxid : ν → TxID

variable (cfg : Config ν)

def gossipTo (name : ν) : List (Msg ν) :=
  cfg.expectedLocations.map fun target => ⟨name, target, .gossip (cfg.lastRecoveredSignedTxid name)⟩

/-- What the retry timer of a node sends. -/
def retry (name : ν) (s : Tables ν) : List (Msg ν) :=
  match s.smState with
  | .gossiping => gossipTo cfg name
  | .voting =>
    match s.chosen with
    | none => []
    | some chosen => if chosen ∈ s.nodes then ⟨name, chosen, .vote⟩ :: gossipTo cfg name else []
  | .opening => (cfg.expectedLocations.filter (· ≠ name)).map fun target => ⟨name, target, .iamopen⟩
  | .joining | .open => []

/-- All nodes, what has been sent, and by a history variable which nodes opened the service. -/
structure World (ν : Type*) where
  nodes : ν → Tables ν
  wire : List (Msg ν)
  opened : List (ν × OpenKind)

def World.start : World ν := ⟨fun _ => .start, [], []⟩

variable (w : World ν) {j : ν}

def World.set (name : ν) (s : Tables ν) : World ν :=
  { w with nodes := Function.update w.nodes name s }

@[simp] theorem World.nodes_set_self (name : ν) (s : Tables ν) : (w.set name s).nodes name = s :=
  Function.update_self _ _ _

theorem World.nodes_set_of_ne {name : ν} (hj : j ≠ name) (s : Tables ν) :
    (w.set name s).nodes j = w.nodes j :=
  Function.update_of_ne hj _ _

def World.open (name : ν) (kind : OpenKind) : World ν :=
  { w with opened := w.opened ++ [(name, kind)] }

/-- The request of a node is committed if it succeeds. -/
def World.commit (name : ν) : Except (Error ν) (Tables ν × Option OpenKind) → World ν
  | .error _ => w
  | .ok (s, none) => w.set name s
  | .ok (s, some kind) => (w.set name s).open name kind

inductive Event (ν : Type*) where
  | retry (name : ν)
  | deliver (msg : Msg ν)
  | timeout (name : ν)
deriving DecidableEq

def step : Event ν → World ν
  | .retry name =>
    if name ∈ cfg.expectedLocations then { w with wire := w.wire ++ retry cfg name (w.nodes name) } else w
  | .deliver msg =>
    if msg ∈ w.wire then
      w.commit msg.target (receive cfg.expectedLocations.length (w.nodes msg.target) msg.source msg.body)
    else w
  | .timeout name =>
    if name ∈ cfg.expectedLocations then
      w.commit name (advance cfg.expectedLocations.length (w.nodes name) true)
    else w

abbrev run (events : List (Event ν)) : World ν := Runs.exec (step cfg) .start events

end Ccf.Node.RecoveryDecisionProtocol
