import Ccf.Kv.Store
import Ccf.Lib.Contiguous
import Ccf.Lib.Runs

/-! # Replication of committed transactions

`Store::commit` hands the serialised transactions to consensus in the order of their versions. It holds
`commit_lock` throughout, but `version_lock` only while it puts its transaction into `pending_txs` and takes out what
has become contiguous (`enqueue`), and again when consensus has accepted the batch (`finish`); a rollback can come
between the two.

`Replication` is the system of a store and the transactions that commit on it. A transaction is given by a number,
which also stands for its serialised form. `owners` and `passed` are history variables: the transaction each current
version was assigned to, and the batches given to `consensus->replicate`. -/

namespace Ccf.Kv

open Std (ExtTreeMap)

/-- A call of `Store::commit` that has released `version_lock` with transactions to replicate. -/
structure CommitCall (Pending : Type) where
  previousLastReplicated : ℕ
  previousRollbackCount : ℕ
  replicationView : ℕ
  contiguousPendingTxs : List (Pending × Bool)
deriving DecidableEq

structure BatchEntry (Pending : Type) where
  version : ℕ
  tx : Pending
  committable : Bool
deriving DecidableEq

/-- The batch is numbered from its first version on. -/
def batchFrom {Pending : Type} : ℕ → List (Pending × Bool) → List (BatchEntry Pending)
  | _, [] => []
  | v, (tx, committable) :: txs => ⟨v, tx, committable⟩ :: batchFrom (v + 1) txs

def CommitCall.batch {Pending : Type} (c : CommitCall Pending) : List (BatchEntry Pending) :=
  batchFrom (c.previousLastReplicated + 1) c.contiguousPendingTxs

namespace Bookkeeping

variable {Pending : Type} (b : Bookkeeping Pending)

/-- The first part of `Store::commit`, under `version_lock`; `none` is `FAIL_NO_REPLICATE`. -/
def enqueue (isPrimary : Bool) (txid : TxID) (pendingTx : Pending) (globallyCommittable : Bool) :
    Option (CommitCall Pending × Bookkeeping Pending) :=
  -- the transaction started before a view change, but commits after it
  if txid.view ≠ b.termOfNextVersion ∧ isPrimary = true then none
  else
    let pendingTxs := b.pendingTxs.insertIfNew txid.seqno (pendingTx, globallyCommittable)
    let (contiguous, rest) := drain (b.lastReplicated + 1) pendingTxs
    some (⟨b.lastReplicated, b.rollbackCount, b.termOfNextVersion, contiguous⟩,
      { b with
        lastCommittable :=
          if globallyCommittable = true ∧ b.lastCommittable < txid.seqno then txid.seqno else b.lastCommittable
        pendingTxs := rest })

/-- The last part of `Store::commit`, when consensus has accepted the batch. -/
def finish (c : CommitCall Pending) : Bookkeeping Pending :=
  if b.lastReplicated = c.previousLastReplicated ∧ c.previousRollbackCount = b.rollbackCount then
    { b with lastReplicated := c.previousLastReplicated + c.contiguousPendingTxs.length }
  else b

end Bookkeeping

/-- Where a transaction is on its way from its first read to `Store::commit`. -/
inductive Stage where
  | idle
  /-- It has taken its commit view. -/
  | begun (view : ℕ)
  /-- `apply_changes` or `next_txid` has given it a version. -/
  | assigned (txid : TxID)
  /-- It has called `Store::commit`. -/
  | called (txid : TxID) (globallyCommittable : Bool)
deriving DecidableEq

structure Replication where
  store : Bookkeeping ℕ
  isPrimary : Bool := true
  txs : ℕ → Stage := fun _ => .idle
  /-- The call that holds `commit_lock`, and whether its batch has been passed on. -/
  call : Option (CommitCall ℕ × Bool) := none
  /-- The transactions of versions 1, 2, …; `none` for those that were there from the start. -/
  owners : List (Option ℕ)
  passed : List (List (BatchEntry ℕ)) := []

namespace Replication

/-- A store with consensus that has replicated everything up to version `v`. -/
def init (v term : ℕ) : Replication where
  store := { version := v, lastReplicated := v, termOfNextVersion := term, termOfLastVersion := term }
  owners := List.replicate v none

inductive Action where
  | begin (i : ℕ)
  /-- `next_version`, as called by `apply_changes`. -/
  | assign (i : ℕ)
  /-- `next_txid`, as called for a signature. -/
  | reserve (i : ℕ)
  | commit (i : ℕ) (globallyCommittable : Bool)
  /-- Serialise the batch and call `consensus->replicate`; `fails` is a pending transaction that fails to
  serialise, `accepted` the answer of consensus. -/
  | replicate (fails : Option ℕ) (accepted : Bool)
  | finish
  | rollback (txid : TxID) (term : ℕ)
  | compact (v : ℕ)
  | setPrimary (isPrimary : Bool)
deriving DecidableEq

variable (s : Replication)

/-- Give transaction `i` the next version. -/
def assignAt (i view : ℕ) : Replication :=
  { s with
    store := s.store.nextVersion
    txs := Function.update s.txs i (.assigned ⟨view, s.store.version + 1⟩)
    owners := s.owners ++ [some i] }

def commit (i : ℕ) (globallyCommittable : Bool) : Replication :=
  match s.txs i, s.call with
  | .assigned txid, none =>
    let s := { s with txs := Function.update s.txs i (.called txid globallyCommittable) }
    match s.store.enqueue s.isPrimary txid i globallyCommittable with
    | none => s
    | some (c, b) =>
      { s with store := b, call := if c.contiguousPendingTxs = [] then none else some (c, false) }
  | _, _ => s

def replicate (fails : Option ℕ) (accepted : Bool) : Replication :=
  match s.call with
  | some (c, false) =>
    if fails.any (· < c.contiguousPendingTxs.length) then { s with call := none }
    else
      { s with
        passed := s.passed ++ [c.batch]
        call := if accepted then some (c, true) else none }
  | _ => s

def finishCall : Replication :=
  match s.call with
  | some (c, true) => { s with store := s.store.finish c, call := none }
  | _ => s

def rollback (txid : TxID) (term : ℕ) : Replication :=
  match s.store.rollback txid term with
  | .error _ => s
  | .ok b => { s with store := b, owners := s.owners.take txid.seqno }

def step (s : Replication) : Action → Replication
  | .begin i =>
    match s.txs i with
    | .idle => { s with txs := Function.update s.txs i (.begun s.store.termOfNextVersion) }
    | _ => s
  | .assign i =>
    match s.txs i with
    | .begun view => s.assignAt i view
    | _ => s
  | .reserve i =>
    match s.txs i with
    | .idle => s.assignAt i s.store.termOfNextVersion
    | _ => s
  | .commit i globallyCommittable => s.commit i globallyCommittable
  | .replicate fails accepted => s.replicate fails accepted
  | .finish => s.finishCall
  | .rollback txid term => s.rollback txid term
  | .compact v => if s.store.version < v then s else { s with store := { s.store with compacted := v } }
  | .setPrimary isPrimary => { s with isPrimary }

end Replication
end Ccf.Kv
