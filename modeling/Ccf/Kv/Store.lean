import Ccf.Kv.Map

/-! # The store and its transactions

`Store` (`store.h`) with the operations that change what it holds: `next_version`, `apply_changes`, `rollback`,
`compact`, and transactions (`tx.cpp`, `committable_tx.h`). A transaction can still hold a map after the store has
dropped it, so maps live in a heap `objs` and are referred to by number. `fired` records the calls to the global hooks;
no function reads it. The fields guarded by `version_lock` are grouped in `Bookkeeping`. -/

namespace Ccf.Kv

open Versioned
open Std (ExtTreeMap)

structure TxID where
  view : ℕ := 0
  seqno : ℕ := 0
deriving DecidableEq, Repr

/-- What the store throws. -/
inductive Fault where
  /-- Attempting rollback to a version earlier than the commit version. -/
  | rollbackBeforeCompacted
  /-- Can't add dynamic map - already have a map of that name. -/
  | duplicateDynamicMap
  /-- `CompactedVersionConflict`. -/
  | compactedVersionConflict
  /-- Transaction already committed. -/
  | alreadyCommitted
deriving DecidableEq, Repr

/-- The version bookkeeping of `StoreState`. `Pending` is the type of the transactions that wait for
replication. -/
structure Bookkeeping (Pending : Type) where
  version : ℕ := 0
  compacted : ℕ := 0
  termOfNextVersion : ℕ := 0
  termOfLastVersion : ℕ := 0
  lastReplicated : ℕ := 0
  lastCommittable : ℕ := 0
  rollbackCount : ℕ := 0
  /-- `pending_txs`, each with whether it is globally committable. -/
  pendingTxs : ExtTreeMap ℕ (Pending × Bool) := ∅

namespace Bookkeeping

variable {Pending : Type} (b : Bookkeeping Pending)

/-- `next_version`. -/
def nextVersion : Bookkeeping Pending :=
  { b with version := b.version + 1, termOfLastVersion := b.termOfNextVersion }

def currentTxid : TxID := ⟨b.termOfLastVersion, b.version⟩

/-- The part of `Store::rollback` under `version_lock`. -/
def rollback (txid : TxID) (termOfNextVersion : ℕ) : Except Fault (Bookkeeping Pending) :=
  if txid.seqno < b.compacted then .error .rollbackBeforeCompacted
  else
    -- the term is updated whether or not a version is rolled back
    let b := { b with termOfNextVersion := termOfNextVersion, termOfLastVersion := txid.view }
    if b.version ≤ txid.seqno then .ok b
    else
      .ok { b with
        version := txid.seqno
        lastReplicated := txid.seqno
        lastCommittable := min b.lastCommittable txid.seqno
        rollbackCount := b.rollbackCount + 1
        pendingTxs := ∅ }

end Bookkeeping

/-- The bytes of a serialised transaction that waits for replication. -/
abbrev PendingTx := List UInt8

structure Store extends Bookkeeping PendingTx where
  /-- The version each map was created at, and the map. -/
  maps : ExtTreeMap Name (ℕ × ℕ) := ∅
  objs : ℕ → Map := fun _ => {}
  /-- The references from here on are free. -/
  allocated : ℕ := 0
  /-- The maps with a global hook. -/
  globalHooks : Name → Bool := fun _ => false
  fired : Name → List (ℕ × Write) := fun _ => []

namespace Store

variable (s : Store)

/-- `get_map_internal`: the map, if it exists at version `v`. -/
def getMap (v : ℕ) (name : Name) : Option ℕ :=
  match s.maps[name]? with
  | some (created, r) => if created ≤ v ∨ created = noVersion then some r else none
  | none => none

/-- `add_dynamic_map`: the map becomes an object of the store, with the hook of its name. -/
def addDynamicMap (v : ℕ) (name : Name) : Except Fault Store :=
  if (s.getMap v name).isSome then .error .duplicateDynamicMap
  else
    .ok { s with
      maps := s.maps.insert name (v, s.allocated)
      objs := Function.update s.objs s.allocated { globalHook := s.globalHooks name }
      allocated := s.allocated + 1 }

/-- Whether the store holds the map object `r`. -/
def holds (r : ℕ) : Bool := s.maps.toList.any fun p => p.2.2 == r

/-- Apply `f` to every map object the store holds. -/
def onMaps (f : Map → Map) : ℕ → Map := fun r => if s.holds r then f (s.objs r) else s.objs r

/-- `Store::compact`. -/
def compact (v : ℕ) : Store :=
  if s.version < v then s
  else
    let compacted : Store := { s with objs := s.onMaps (·.compact v), compacted := v }
    { compacted with
      objs := compacted.onMaps Map.postCompact
      fired := fun name =>
        match s.maps[name]? with
        | some (_, r) => s.fired name ++ (compacted.objs r).hookCalls
        | none => s.fired name }

/-- `Store::rollback`: every map is rolled back, also the ones that are forgotten. -/
def rollback (txid : TxID) (termOfNextVersion : ℕ) : Except Fault Store := do
  let b ← s.toBookkeeping.rollback txid termOfNextVersion
  if s.version ≤ txid.seqno then .ok { s with toBookkeeping := b }
  else
    .ok { s with
      toBookkeeping := b
      objs := s.onMaps (·.rollback txid.seqno)
      maps := s.maps.filter fun _ p => p.1 ≤ txid.seqno }

end Store

/-! ### Applying changes -/

/-- `AbstractCommitter`: what `apply_changes` needs of a change set. -/
structure AbstractCommitter where
  hasWrites : Bool
  prepare : Map → Bool
  commit : Map → ℕ → Bool → Map

/-- `HandleCommitter`. -/
def ChangeSet.committer (cs : ChangeSet) : AbstractCommitter where
  hasWrites := cs.hasWrites
  prepare m := m.roll.prepare cs
  commit m v track := { m with roll := m.roll.commit cs.writes v track }

/-- The views of `apply_changes`, in the order of the map names. A view without a reference is on a map that
the store does not have yet (`new_maps`). -/
abbrev Views := List (Name × Option ℕ × AbstractCommitter)

namespace Store

/-- The map object of a view; a new map is empty. -/
def obj (s : Store) (r : Option ℕ) : Map := r.elim {} s.objs

/-- Add the new maps that are written to the store. -/
def addDynamicMaps (v : ℕ) : Views → Store → Except Fault Store
  | [], s => .ok s
  | (name, none, c) :: views, s =>
    if c.hasWrites then (s.addDynamicMap v name).bind (addDynamicMaps v views) else addDynamicMaps v views s
  | (_, some _, _) :: views, s => addDynamicMaps v views s

/-- Commit one view. A new map has become the store's map of its name, if it is written at all. -/
def commitView (v : ℕ) (trackDeletesOnMissingKeys : Bool) (s : Store)
    (view : Name × Option ℕ × AbstractCommitter) : Store :=
  match view.2.1.or (s.maps[view.1]?.map Prod.snd) with
  | some r =>
    { s with objs := Function.update s.objs r (view.2.2.commit (s.objs r) v trackDeletesOnMissingKeys) }
  | none => s

/-- `apply_changes`. `resolve` picks the version of the commit; the result is `none` on a conflict and
`noVersion` if there was nothing to write. -/
def applyChanges (s : Store) (views : Views) (resolve : Store → ℕ × Store)
    (trackDeletesOnMissingKeys : Bool) (expectedRollbackCount : Option ℕ) :
    Except Fault (Option ℕ × Store) :=
  let hasWrites := views.any (·.2.2.hasWrites)
  let current := views.isEmpty || expectedRollbackCount.all (· == s.rollbackCount)
  let prepared := current && (!hasWrites || views.all fun p => p.2.2.prepare (s.obj p.2.1))
  let ok := prepared && views.all fun p => p.2.1.isSome || (s.getMap s.version p.1).isNone
  if !ok then .ok (none, s)
  else if !hasWrites then .ok (some noVersion, s)
  else do
    let added ← addDynamicMaps (resolve s).1 views (resolve s).2
    .ok (some (resolve s).1, views.foldl (commitView (resolve s).1 trackDeletesOnMissingKeys) added)

/-- The version resolver of a local commit. -/
def nextVersion (s : Store) : ℕ × Store :=
  (s.version + 1, { s with toBookkeeping := s.toBookkeeping.nextVersion })

end Store

/-! ### Transactions -/

/-- A map held by a transaction with its change set; a map without a reference is one that the transaction
has created (`created_maps`) and nobody else knows. `trace` is the record of the operations made through
its handles and of what they returned; no function reads it. -/
structure MapChanges where
  map : Option ℕ
  changeset : ChangeSet
  trace : List (Op × Result) := []
deriving DecidableEq

structure Tx where
  readTxid : Option TxID := none
  commitView : ℕ := 0
  allChanges : ExtTreeMap Name MapChanges := ∅
  committed : Bool := false
  version : ℕ := noVersion
deriving DecidableEq

namespace Tx

variable (t : Tx)

/-- The read version, taken from the store when the first map is opened. -/
def acquire (s : Store) : Tx :=
  match t.readTxid with
  | some _ => t
  | none => { t with readTxid := some s.currentTxid, commitView := s.termOfNextVersion }

def readSeqno : ℕ := t.readTxid.elim 0 TxID.seqno

/-- `get_map_and_change_set_by_name`: the map of the store, or a new map of the transaction. -/
def getMapAndChangeSet (s : Store) (name : Name) (trackDeletesOnMissingKeys : Bool) :
    Option ℕ × Option ChangeSet :=
  let r := s.getMap t.readSeqno name
  (r, (s.obj r).roll.createChangeSet t.readSeqno trackDeletesOnMissingKeys)

/-- Open a handle: `check_and_store_change_set`. A map that is already open is used as it is. -/
def openMap (s : Store) (name : Name) : Option Fault × Tx :=
  if name ∈ t.allChanges then (none, t)
  else
    let t := t.acquire s
    match t.getMapAndChangeSet s name false with
    | (_, none) => (some .compactedVersionConflict, t)
    | (r, some cs) => (none, { t with allChanges := t.allChanges.insert name ⟨r, cs, []⟩ })

/-- One operation through a handle on `name`. -/
def run (t : Tx) (name : Name) (op : Op) : Tx :=
  { t with allChanges := t.allChanges.modify name fun mc =>
      let (result, cs) := mc.changeset.run op
      { mc with changeset := cs, trace := mc.trace ++ [(op, result)] } }

def views : Views := t.allChanges.toList.map fun p => (p.1, p.2.map, p.2.changeset.committer)

/-- The writes of the transaction to each map. -/
def writeSet (name : Name) : Write := t.allChanges[name]?.elim ∅ fun mc => mc.changeset.writes

/-- The local part of `CommittableTx::commit`, on a store without consensus. -/
def commit (s : Store) : Except Fault (Option ℕ × Tx × Store) :=
  if t.committed then .error .alreadyCommitted
  else if t.allChanges.isEmpty then .ok (some noVersion, { t with committed := true }, s)
  else do
    match ← s.applyChanges t.views Store.nextVersion false none with
    | (none, s) => .ok (none, t, s)
    | (some v, s) => .ok (some v, { t with committed := true, version := v }, s)

end Tx
end Ccf.Kv
