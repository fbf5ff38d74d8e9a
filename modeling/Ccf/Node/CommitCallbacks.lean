import Ccf.Aft.TxStatus
import Ccf.Kv.Store
import Ccf.Lib.Runs

/-! # Commit callbacks (`src/node/commit_callback_subsystem.h`)

A callback that is registered for a transaction is invoked with its final status: at once if the last known
commit point settles it, and otherwise when a commit is triggered that reaches its sequence number.

`pendingCallbacks` is the ordered map of the source. A callback that has been moved out of it is `none`.
`registered` and `invoked` are history variables. -/

namespace Ccf.Node.CommitCallbacks

open Kv (TxID)

/-- A callback, which may throw when it is invoked. -/
structure CommitCallback where
  id : ℕ
  throws : Bool
deriving DecidableEq

inductive FinalTxStatus where
  | committed
  | invalid
deriving DecidableEq

/-- The final status that a status is, if it is one. -/
def finalStatus : TxStatus → Option FinalTxStatus
  | .committed => some .committed
  | .invalid => some .invalid
  | .unknown | .pending => none

structure Invocation where
  txId : TxID
  status : FinalTxStatus
  callback : CommitCallback
deriving DecidableEq

abbrev Callbacks := List (TxID × Option CommitCallback)

structure CommitCallbackSubsystem where
  pendingCallbacks : List (ℕ × Callbacks)
  knownCommit : Option TxID
  knownViewHistory : ViewHistory
  consensus : Bool
  registered : List (TxID × CommitCallback)
  invoked : List Invocation

/-- The status of a transaction against a commit point. -/
def evaluate (txId committed : TxID) (viewHistory : ViewHistory) : Except String TxStatus :=
  evaluateTxStatus txId.view txId.seqno (viewHistory.viewAt txId.seqno) committed.view committed.seqno

/-- The final status against a commit point, if there is one. -/
def settled (txId committed : TxID) (viewHistory : ViewHistory) : Option FinalTxStatus :=
  match evaluate txId committed viewHistory with
  | .ok status => finalStatus status
  | .error _ => none

/-- `pending_callbacks[seqno].emplace_back(..)`. -/
def emplace (seqno : ℕ) (x : TxID × Option CommitCallback) : List (ℕ × Callbacks) → List (ℕ × Callbacks)
  | [] => [(seqno, [x])]
  | (s, callbacks) :: rest =>
    if seqno < s then (seqno, [x]) :: (s, callbacks) :: rest
    else if seqno = s then (s, callbacks ++ [x]) :: rest
    else (s, callbacks) :: emplace seqno x rest

abbrev Ready := List (TxID × FinalTxStatus × Option CommitCallback)

/-- The loop over the callbacks of one sequence number: those that are ready, what is left in the map, and
whether the loop ran to its end rather than throw. -/
def collectCallbacks (committed : TxID) (viewHistory : ViewHistory) : Callbacks → Ready × Callbacks × Bool
  | [] => ([], [], true)
  | (txId, callback) :: rest =>
    match settled txId committed viewHistory with
    | none => ([], (txId, callback) :: rest, false)
    | some status =>
      let (ready, left, ok) := collectCallbacks committed viewHistory rest
      ((txId, status, callback) :: ready, (txId, none) :: left, ok)

/-- The loop over the map up to the commit point. -/
def collect (committed : TxID) (viewHistory : ViewHistory) : List (ℕ × Callbacks) → Ready × List (ℕ × Callbacks) × Bool
  | [] => ([], [], true)
  | (seqno, callbacks) :: rest =>
    if seqno > committed.seqno then ([], (seqno, callbacks) :: rest, true)
    else
      match collectCallbacks committed viewHistory callbacks with
      | (ready, left, false) => (ready, (seqno, left) :: rest, false)
      | (ready, _, true) =>
        let (ready', pending, ok) := collect committed viewHistory rest
        (ready ++ ready', pending, ok)

/-- The invocations of the callbacks that are ready, up to one that throws. -/
def invokeAll : Ready → List Invocation
  | [] => []
  | (_, _, none) :: _ => []
  | (txId, status, some callback) :: rest =>
    ⟨txId, status, callback⟩ :: if callback.throws then [] else invokeAll rest

namespace CommitCallbackSubsystem

def init : CommitCallbackSubsystem where
  pendingCallbacks := []
  knownCommit := none
  knownViewHistory := .empty
  consensus := false
  registered := []
  invoked := []

variable (s : CommitCallbackSubsystem)

def addCallback (txId : TxID) (callback : CommitCallback) : CommitCallbackSubsystem :=
  let pend := { s with
    pendingCallbacks := emplace txId.seqno (txId, some callback) s.pendingCallbacks
    registered := s.registered ++ [(txId, callback)] }
  match s.knownCommit with
  | none => pend
  | some commit =>
    match evaluate txId commit s.knownViewHistory with
    | .error _ => s
    | .ok status =>
      match finalStatus status with
      | none => pend
      | some final => { s with
          registered := s.registered ++ [(txId, callback)]
          invoked := s.invoked ++ [⟨txId, final, callback⟩] }

/-- What `trigger_callbacks` finds in the map. -/
def found (committed : TxID) (viewHistory : ViewHistory) :
    Ready × List (ℕ × Callbacks) × Bool :=
  collect committed viewHistory s.pendingCallbacks

def triggerCallbacks (committed : TxID) (viewHistory : ViewHistory) :
    CommitCallbackSubsystem :=
  if !s.consensus then s
  else
    let (ready, pending, ok) := s.found committed viewHistory
    { s with
      knownCommit := some committed
      knownViewHistory := viewHistory
      pendingCallbacks := pending
      invoked := s.invoked ++ if ok then invokeAll ready else [] }

/-- The callbacks that are pending. -/
def pending : List (TxID × CommitCallback) :=
  (s.pendingCallbacks.flatMap Prod.snd).filterMap fun p => p.2.map (p.1, ·)

end CommitCallbackSubsystem

inductive CallbackOp where
  | setConsensus
  | addCallback (txId : TxID) (callback : CommitCallback)
  | triggerCallbacks (committed : TxID) (viewHistory : ViewHistory)
deriving DecidableEq

def callbackStep (s : CommitCallbackSubsystem) : CallbackOp → CommitCallbackSubsystem
  | .setConsensus => { s with consensus := true }
  | .addCallback txId callback => s.addCallback txId callback
  | .triggerCallbacks committed viewHistory => s.triggerCallbacks committed viewHistory

abbrev runCallbacks (ops : List CallbackOp) : CommitCallbackSubsystem :=
  Runs.exec callbackStep CommitCallbackSubsystem.init ops

end Ccf.Node.CommitCallbacks
