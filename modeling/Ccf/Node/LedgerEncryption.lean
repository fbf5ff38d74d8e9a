import Ccf.Kv.ReplicationOrder
import Ccf.Kv.Snapshot
import Ccf.Kv.TxEncryptor
import Ccf.Network.Safety

/-! # Encryption in a service

The nodes of a service with their stores and ledger secrets. A transaction takes its view when it begins, its version
when it commits, and is encrypted under both (`serialise`); the store then hands it to the consensus of its node. A
`rollback` by consensus is an action of its own, at any time and with any arguments, as it comes before the outcome of
a message is seen. Whether the node is primary is read without a lock.

`Tables` stands for the store after the entries of a log: its maps, and the leaf of the last entry in the history. A
snapshot at `v` has every map there is when it is taken, those created after `v` without content.

`emitted` and `refused` are history variables: what was encrypted for snapshots and accepted entries, and for the
entries that were passed to consensus in vain. -/

namespace Ccf.Node.LedgerEncryption

open Function Kv

/-! ### Snapshots -/

structure Tables where
  maps : List Entry → List (Name × ℕ × Kv.State)
  rawLeaf : List Entry → List UInt8
  hash : SerialisedEntry → ℕ

/-- The order of the hashes of the keys, which leaves open the order of keys with the same hash. -/
def hashOrder (hash : SerialisedEntry → ℕ) (iteration : EntryOrder) : EntryOrder :=
  ⟨fun state => (iteration.1 state).mergeSort fun p q => hash p.1 ≤ hash q.1,
    fun state => (List.mergeSort_perm _ _).trans (iteration.2 state)⟩

/-- A map that has been created after the version of the snapshot. -/
def addMap (name : Name) (maps : List (Name × ℕ × Kv.State)) : List (Name × ℕ × Kv.State) :=
  maps.takeWhile (fun p => compare p.1 name = .lt) ++ (name, 0, ∅) :: maps.dropWhile fun p => compare p.1 name = .lt

/-- `snapshot_unsafe_maps` of the store of a node, when the maps `later` have been created after `v`. -/
def snapshotAt (T : Tables) (a : Aft) (v : ℕ) (later : List Name) : StoreSnapshot where
  version := v
  maps := later.foldr addMap (T.maps (a.ledger.take v))
  hashAtSnapshot := some (T.rawLeaf (a.ledger.take v))
  viewHistory := some (a.state.viewHistory.getHistoryUntil v)

/-- The two parts of a serialised snapshot: what is tagged and what is encrypted. -/
def domains (snapshot : StoreSnapshot) (order : Name → EntryOrder) : Except CodecFault (List UInt8 × List UInt8) := do
  let head := snapshot.hashAtSnapshot.elim [] RawWriter.sizePrefixed ++ snapshot.viewHistory.elim [] RawWriter.versions
  let publicMaps ← StoreSnapshot.domainBytes order .publicDomain snapshot.maps
  let privateMaps ← StoreSnapshot.domainBytes order .privateDomain snapshot.maps
  return (publicHeader .snapshot snapshot.version [] [] ++ (head ++ publicMaps), privateMaps)

/-! ### The service -/

/-- A serialised transaction: what consensus sees of it, and what was encrypted. -/
structure Serialised where
  tx : Tx
  record : Encrypted

structure Service where
  world : World
  stores : NodeId → Replication
  secrets : NodeId → LedgerSecrets
  /-- The transactions that have been serialised. -/
  serialised : NodeId → ℕ → Option Serialised
  emitted : List Encrypted
  refused : List Encrypted := []

inductive Action where
  | consensus (x : Ccf.Action)
  | store (i : NodeId) (x : Replication.Action)
  | serialise (i : NodeId) (k : ℕ) (tx : Tx) (plain additionalData : List UInt8)
  | replicate (i : NodeId)
  | rekey (i : NodeId) (version secret : ℕ)
  | snapshot (i : NodeId) (v : ℕ) (later : List Name) (iteration : Name → EntryOrder)

/-- The two entries of the genesis log. -/
def genesisRecords (secret : ℕ) (create signature : List UInt8 × List UInt8) : List Encrypted :=
  let ls := LedgerSecrets.init 1 secret
  (ls.encrypt create.1 create.2 ⟨startingViewChange, 1⟩
      .writeSetWithCommitEvidenceAndClaims false).toList.map Prod.fst ++
    (ls.encrypt signature.1 signature.2 ⟨startingViewChange, 2⟩ .writeSetWithCommitEvidenceAndClaims false).toList.map
      Prod.fst

def Service.init (g : Genesis) (c : Setup) (secret : ℕ) (create signature : List UInt8 × List UInt8) : Service where
  world := g.start c
  stores := update (fun _ => .init 0 0) g.primary (.init 2 startingViewChange)
  secrets _ := .init 1 secret
  serialised _ _ := none
  emitted := genesisRecords secret create signature

/-- The transactions of a batch, if all have been serialised. -/
def serialisedBatch (serialised : ℕ → Option Serialised) : List (BatchEntry ℕ) → Option (List (ℕ × Serialised))
  | [] => some []
  | e :: batch => do
      let z ← serialised e.tx
      let rest ← serialisedBatch serialised batch
      return (e.version, z) :: rest

/-- What consensus is given. -/
def entries (batch : List (ℕ × Serialised)) : List (ℕ × Tx) := batch.map fun p => (p.1, p.2.tx)

namespace Service

variable (T : Tables) (s : Service) (i : NodeId)

/-- The store of node `i` does a step of its own. A rollback takes the secrets along. -/
def onStore (x : Replication.Action) : Service :=
  let store := { s.stores i with isPrimary := (s.world.nodes i).isLeader }
  match x with
  | .replicate _ _ | .setPrimary _ => s
  | .rollback txid term =>
    { s with
      stores := update s.stores i (store.step (.rollback txid term))
      secrets :=
        if store.store.compacted ≤ txid.seqno ∧ txid.seqno < store.store.version then
          update s.secrets i ((s.secrets i).rollback txid.seqno)
        else s.secrets }
  | x => { s with stores := update s.stores i (store.step x) }

/-- Transaction `k` of node `i` is serialised, with the view and the version it has. -/
def serialise (k : ℕ) (tx : Tx) (plain additionalData : List UInt8) : Service :=
  match ((s.stores i).txs k).txid?, s.serialised i k with
  | some txid, none =>
    match (s.secrets i).encrypt plain additionalData txid .writeSetWithCommitEvidenceAndClaims false with
    | none => s
    | some (record, secrets) =>
      { s with
        secrets := update s.secrets i secrets
        serialised := update s.serialised i (update (s.serialised i) k (some ⟨tx, record⟩)) }
  | _, _ => s

/-- The batch of node `i` is given to consensus. -/
def pass (c : CommitCall ℕ) (batch : List (ℕ × Serialised)) : Service :=
  let world := s.world.step (.replicate i (entries batch) c.replicationView)
  let accepted := ((s.world.nodes i).replicate (entries batch) c.replicationView).2
  let count := (world.nodes i).ledger.length - (s.world.nodes i).ledger.length
  { s with
    world := world
    stores := update s.stores i ((s.stores i).replicate none accepted)
    emitted := s.emitted ++ (batch.take count).map (·.2.record)
    refused := s.refused ++ (batch.drop count).map (·.2.record) }

/-- The batch that node `i` has taken off its queue, if it has been serialised. -/
def batchOf : Option (CommitCall ℕ × List (ℕ × Serialised)) :=
  match (s.stores i).call with
  | some (c, false) => (serialisedBatch (s.serialised i) c.batch).map (c, ·)
  | _ => none

def replicate : Service :=
  match s.batchOf i with
  | none => s
  | some (c, batch) => s.pass i c batch

/-- Node `i` emits a snapshot at a version that it has committed. -/
def snapshot (i : NodeId) (v : ℕ) (later : List Name) (iteration : Name → EntryOrder) : Service :=
  let a := s.world.nodes i
  if v ≤ a.state.commitIdx then
    match domains (snapshotAt T a v later) fun name => hashOrder T.hash (iteration name) with
    | .error _ => s
    | .ok (publicPart, privatePart) =>
      match (s.secrets i).encrypt privatePart publicPart ⟨0, v⟩ .snapshot true with
      | none => s
      | some (record, _) => { s with emitted := s.emitted ++ [record] }
  else s

def step (s : Service) : Action → Service
  | .consensus (.replicate _ _ _) => s
  | .consensus x => { s with world := s.world.step x }
  | .store i x => s.onStore i x
  | .serialise i k tx plain additionalData => s.serialise i k tx plain additionalData
  | .replicate i => s.replicate i
  | .rekey i version secret => { s with secrets := update s.secrets i ((s.secrets i).setSecret version secret) }
  | .snapshot i v later iteration => s.snapshot T i v later iteration

/-- What is encrypted with the same secret and the same vector is the same. -/
def Uniform : Prop := ∀ r ∈ s.emitted ++ s.refused, ∀ r' ∈ s.emitted ++ s.refused, r.Agrees r'

/-! ### Conditions -/

/-- Consensus is regular, entries are well formed, and versions have 64 bits. -/
def Lawful : Action → Prop
  | .consensus (.replicate _ _ _) => True
  | .consensus x => s.world.Regular x
  | .serialise i k _ _ _ => ∀ txid ∈ ((s.stores i).txs k).txid?, txid.seqno < 2 ^ 64
  | .replicate i => ∀ b ∈ s.batchOf i, s.world.Fits (.replicate i (entries b.2) b.1.replicationView)
  | .snapshot _ v _ _ => v < 2 ^ 64
  | _ => True

/-- What is given to consensus has begun in the view it is replicated in. -/
def InView : Action → Prop
  | .replicate i => ∀ b ∈ s.batchOf i, ∀ e ∈ b.1.batch, ∀ txid ∈ ((s.stores i).txs e.tx).txid?,
      txid.view = b.1.replicationView
  | _ => True

/-- A batch is given to consensus while the node leads the view of the batch and its log ends where the batch begins. -/
def InTurn : Action → Prop
  | .replicate i => ∀ b ∈ s.batchOf i, (s.world.nodes i).isLeader ∧
      b.1.replicationView = (s.world.nodes i).state.currentView ∧
      b.1.previousLastReplicated = (s.world.nodes i).state.lastIdx
  | _ => True

/-- When a snapshot is taken no map has been created after its version, and no two keys of a map have the same hash. -/
def Settled : Action → Prop
  | .snapshot i v later _ => later = [] ∧ ∀ p ∈ T.maps ((s.world.nodes i).ledger.take v),
      p.2.2.toList.Pairwise fun x y => T.hash x.1 ≠ T.hash y.1
  | _ => True

instance (s : Service) (x : Action) : Decidable (s.Lawful x) := by
  rcases x with ⟨_ | _⟩ | _ <;> unfold Lawful <;> infer_instance

instance (s : Service) (x : Action) : Decidable (s.InView x) := by cases x <;> unfold InView <;> infer_instance

instance (s : Service) (x : Action) : Decidable (s.InTurn x) := by cases x <;> unfold InTurn <;> infer_instance

instance (T : Tables) (s : Service) (x : Action) : Decidable (s.Settled T x) := by
  cases x <;> unfold Settled <;> infer_instance

instance (s : Service) : Decidable s.Uniform := inferInstanceAs (Decidable (∀ r ∈ s.emitted ++ s.refused, _))

end Service

end Ccf.Node.LedgerEncryption
