import Mathlib.Algebra.Group.Nat.Defs
import Ccf.Lib.Assoc
import Ccf.Lib.Runs

/-! # The snapshotter of a node (`src/node/snapshotter.h`)

Signatures that a primary emits are recorded as indices at which a snapshot is due. When such an index is committed
while the node is primary, a snapshot of the store is scheduled. A task serialises it and commits its digest to
the ledger as evidence, and when a signature after that is committed, the snapshot is released to the host with a
receipt.

The model has the snapshotter, the log of the local store as far as the snapshotter sees it, and the snapshot tasks
with the steps between which other threads can run. Hooks of a transaction run when it is applied; those of the
snapshot status when it is compacted. `toHost`, `taken` and `generated` are history variables, `failure` is an
exception or an assertion that failed. -/

namespace Ccf.Node.Snapshotter

abbrev Bytes := List UInt8

/-! ### The state of the snapshotter -/

structure SnapshotInfo where
  version : ℕ
  writeSetDigest : Bytes
  commitEvidence : Bytes
  snapshotDigest : Bytes
  serialisedSnapshot : Bytes
  isStored : Bool
  evidenceIdx : Option ℕ
  coseSig : Option Bytes
  tree : Option Bytes
deriving DecidableEq

def SnapshotInfo.empty : SnapshotInfo := ⟨0, [], [], [], [], false, none, none, none⟩

structure SnapshotEntry where
  idx : ℕ
  forced : Bool
  done : Bool
deriving DecidableEq

structure Config where
  snapshotTxInterval : ℕ
  minSnapshotTxInterval : ℕ
  snapshotTimeInterval : ℕ
  sha256 : Bytes → Bytes

def maxPendingSnapshotsCount : ℕ := 5

abbrev PendingSnapshots := List (ℕ × SnapshotInfo)

structure State where
  pendingSnapshots : PendingSnapshots
  lastSnapshotIdx : ℕ
  lastSnapshotTime : ℕ
  scheduledSnapshotTimes : List (ℕ × ℕ)
  snapshotGenerationEnabled : Bool
  nextSnapshotIndices : List SnapshotEntry
  generationCount : ℕ

/-- The constructor. -/
def State.init (now : ℕ) : State where
  pendingSnapshots := []
  lastSnapshotIdx := 0
  lastSnapshotTime := now
  scheduledSnapshotTimes := []
  snapshotGenerationEnabled := true
  nextSnapshotIndices := [⟨0, false, true⟩]
  generationCount := 0

/-- An assignment through `pending_snapshots[generation_count]`, which inserts an empty entry where there is none. -/
def upsert (generation : ℕ) (f : SnapshotInfo → SnapshotInfo) : PendingSnapshots → PendingSnapshots
  | [] => [(generation, f .empty)]
  | (g, info) :: rest =>
    if generation < g then (generation, f .empty) :: (g, info) :: rest
    else if generation = g then (g, f info) :: rest
    else (g, info) :: upsert generation f rest

/-! ### The ledger as the snapshotter sees it -/

/-- What an entry writes to the tables that have hooks. Evidence is committed together with the status. -/
inductive Writes where
  | signature (coseSig tree : Bytes)
  | evidence (version : ℕ) (hash : Bytes) (timestamp : ℕ)
  | other
deriving DecidableEq

structure Entry where
  writeSetDigest : Bytes
  commitEvidence : Bytes
  claimsDigest : Option Bytes
  writes : Writes
deriving DecidableEq

structure Receipt where
  coseSig : Bytes
  tree : Bytes
  evidenceIdx : ℕ
  writeSetDigest : Bytes
  commitEvidence : Bytes
  claimsDigest : Bytes
deriving DecidableEq

inductive HostMsg where
  | snapshotAllocate (version evidenceVersion size generation : ℕ)
  | snapshotCommit (version : ℕ) (receipt : Receipt)
deriving DecidableEq

/-! ### Hooks -/

variable (s : State)

def recordCoseSignature (idx : ℕ) (coseSig : Bytes) : State :=
  { s with pendingSnapshots := s.pendingSnapshots.map fun (g, info) =>
      (g, if info.evidenceIdx.any (· < idx) ∧ info.coseSig = none then { info with coseSig := some coseSig }
        else info) }

def recordSerialisedTree (idx : ℕ) (tree : Bytes) : State :=
  { s with pendingSnapshots := s.pendingSnapshots.map fun (g, info) =>
      (g, if info.evidenceIdx.any (· < idx) ∧ info.tree = none then { info with tree := some tree } else info) }

def recordSnapshotEvidenceIdx (idx version : ℕ) : State :=
  { s with pendingSnapshots := s.pendingSnapshots.map fun (g, info) =>
      (g, if info.version = version then { info with evidenceIdx := some idx } else info) }

def recordSnapshotStatus (version timestamp : ℕ) : State :=
  { s with
    lastSnapshotIdx := version
    lastSnapshotTime := timestamp
    scheduledSnapshotTimes := s.scheduledSnapshotTimes.filter (version < ·.1) }

/-- The hooks that run when an entry is applied at `idx`. -/
def mapHooks (idx : ℕ) : Writes → State
  | .signature coseSig tree => recordSerialisedTree (recordCoseSignature s idx coseSig) idx tree
  | .evidence version _ _ => recordSnapshotEvidenceIdx s idx version
  | .other => s

/-- The hook that runs when an entry is compacted. -/
def globalHook : Writes → State
  | .evidence version _ timestamp => recordSnapshotStatus s version timestamp
  | .signature _ _ | .other => s

/-! ### Indices -/

def latestScheduledOrCommittedSnapshotIdx : ℕ :=
  s.nextSnapshotIndices.foldl (fun latest entry => max latest entry.idx) s.lastSnapshotIdx

def latestScheduledOrCommittedSnapshotTime (latestIdx : ℕ) : ℕ :=
  s.scheduledSnapshotTimes.foldl (fun latest p => if p.1 ≤ latestIdx then max latest p.2 else latest) s.lastSnapshotTime

variable (cfg : Config)

def shouldScheduleSnapshot (s : State) (thresholdIdx now : ℕ) : Bool :=
  let latestIdx := latestScheduledOrCommittedSnapshotIdx s
  let count := (thresholdIdx + 2 ^ 64 - latestIdx) % 2 ^ 64
  let countOverdue := count ≥ cfg.snapshotTxInterval
  let timeOverdue := cfg.snapshotTimeInterval > 0 ∧ count > cfg.minSnapshotTxInterval ∧
    now - latestScheduledOrCommittedSnapshotTime s latestIdx ≥ cfg.snapshotTimeInterval
  countOverdue ∨ timeOverdue

inductive Failure where
  | committableBeforeNext
  | noSnapshottable
  | earlierThanLastSnapshot
  | beforeSnapshottable
  | snapshotEarlierThanCompacted
  | snapshotLaterThanCurrent
  | rollbackBeforeCompacted
deriving DecidableEq

/-- `record_committable`: the new state and whether a snapshot is due. -/
def recordCommittable (s : State) (idx now : ℕ) (forced : Bool) : Except Failure (State × Bool) :=
  match s.nextSnapshotIndices.getLast? with
  | none => .error .noSnapshottable
  | some back =>
    if idx < back.idx then .error .committableBeforeNext
    else
      let due := shouldScheduleSnapshot cfg s idx now
      if due || forced then
        .ok ({ s with
          nextSnapshotIndices := s.nextSnapshotIndices ++ [⟨idx, !due && forced, false⟩]
          scheduledSnapshotTimes := Assoc.erase idx s.scheduledSnapshotTimes ++ [(idx, now)] }, true)
      else .ok (s, false)

/-- The first loop of `update_indices`: all but the last of the indices up to `idx` are dropped. -/
def pruneIndices (idx : ℕ) (pending : PendingSnapshots) :
    List SnapshotEntry → List (ℕ × ℕ) → List SnapshotEntry × List (ℕ × ℕ)
  | e :: e' :: rest, times =>
    if e'.idx ≤ idx then
      pruneIndices idx pending (e' :: rest)
        (if pending.any (·.2.version = e.idx) then times else Assoc.erase e.idx times)
    else (e :: e' :: rest, times)
  | l, times => (l, times)

/-- The receipt of a snapshot that is ready to be released when `idx` is committed. -/
def releasable (idx : ℕ) (info : SnapshotInfo) : Option Receipt :=
  match info.isStored, info.evidenceIdx, info.coseSig, info.tree with
  | true, some evidenceIdx, some coseSig, some tree =>
    if evidenceIdx < idx then
      some ⟨coseSig, tree, evidenceIdx, info.writeSetDigest, info.commitEvidence, info.snapshotDigest⟩
    else none
  | _, _, _, _ => none

/-- `update_indices`: the new state and what the host is sent. -/
def updateIndices (idx : ℕ) : State × List HostMsg :=
  let (indices, times) := pruneIndices idx s.pendingSnapshots s.nextSnapshotIndices s.scheduledSnapshotTimes
  ({ s with
      nextSnapshotIndices := indices
      scheduledSnapshotTimes := times
      pendingSnapshots := s.pendingSnapshots.filter fun p => (releasable idx p.2).isNone },
    s.pendingSnapshots.filterMap fun p => (releasable idx p.2).map (.snapshotCommit p.2.version))

def rollback (idx : ℕ) : State :=
  let indices := (s.nextSnapshotIndices.reverse.dropWhile (idx < ·.idx)).reverse
  { s with
    nextSnapshotIndices := if indices = [] then [⟨s.lastSnapshotIdx, false, true⟩] else indices
    scheduledSnapshotTimes := s.scheduledSnapshotTimes.filter (·.1 ≤ idx)
    pendingSnapshots := (s.pendingSnapshots.reverse.dropWhile fun p => !p.2.evidenceIdx.any (· ≤ idx)).reverse }

/-- `write_snapshot`, for a buffer of the given size. -/
def writeSnapshot (size generation : ℕ) : State :=
  match s.pendingSnapshots.lookup generation with
  | none => s
  | some info =>
    if size ≠ info.serialisedSnapshot.length then
      { s with pendingSnapshots := Assoc.erase generation s.pendingSnapshots }
    else
      { s with
        pendingSnapshots := Assoc.modify generation (fun info => { info with isStored := true }) s.pendingSnapshots }

/-! ### The system -/

/-- Where a snapshot task is. -/
inductive TaskPhase where
  | scheduled
  | reserved
  | serialised (snapshot : Bytes)
  | committed (snapshot writeSetDigest commitEvidence : Bytes) (evidenceVersion : ℕ)
  | finished
deriving DecidableEq

structure Task where
  version : ℕ
  timestamp : ℕ
  phase : TaskPhase
deriving DecidableEq

/-- A snapshot of the store that was taken, with the versions of the store at that time. -/
structure Taken where
  idx : ℕ
  compacted : ℕ
  current : ℕ
deriving DecidableEq

/-- Tasks are listed by their generation. -/
structure System where
  snapshotter : State
  log : List Entry
  compacted : ℕ
  tasks : List (ℕ × Task)
  snapshotAtNextSignature : Bool
  toHost : List HostMsg
  taken : List Taken
  generated : List (ℕ × Bytes)
  failure : Option Failure

/-- The state after an operation, or the failure and the state in which it was met. -/
abbrev Outcome := Except (Failure × System) System

def System.init (now : ℕ) : System where
  snapshotter := .init now
  log := []
  compacted := 0
  tasks := []
  snapshotAtNextSignature := false
  toHost := []
  taken := []
  generated := []
  failure := none

variable (s : System)

/-- An entry is applied to the local store. -/
def applyEntry (entry : Entry) : System :=
  { s with
    log := s.log ++ [entry]
    snapshotter := mapHooks s.snapshotter (s.log.length + 1) entry.writes }

/-- The primary commits a signature. -/
def sign (s : System) (entry : Entry) (now : ℕ) : Outcome :=
  let s := applyEntry s entry
  match recordCommittable cfg s.snapshotter s.log.length now s.snapshotAtNextSignature with
  | .error failure => .error (failure, s)
  | .ok (snapshotter, scheduled) => .ok { s with
      snapshotter := snapshotter
      snapshotAtNextSignature := if scheduled then false else s.snapshotAtNextSignature }

/-- `schedule_snapshot`. -/
def scheduleSnapshot (idx timestamp : ℕ) : Outcome :=
  if idx < s.compacted then .error (.snapshotEarlierThanCompacted, s)
  else if s.log.length < idx then .error (.snapshotLaterThanCurrent, s)
  else .ok { s with
    snapshotter := { s.snapshotter with generationCount := s.snapshotter.generationCount + 1 }
    tasks := s.tasks ++ [(s.snapshotter.generationCount, ⟨idx, timestamp, .scheduled⟩)]
    taken := s.taken ++ [⟨idx, s.compacted, s.log.length⟩] }

/-- The time at which the snapshot at `idx` was scheduled, which is recorded now if it is not known. -/
def scheduledTime (s : State) (idx now : ℕ) : List (ℕ × ℕ) × ℕ :=
  match s.scheduledSnapshotTimes.lookup idx with
  | none => (s.scheduledSnapshotTimes ++ [(idx, now)], now)
  | some time => (s.scheduledSnapshotTimes, time)

/-- The part of `commit` that takes the snapshot at the first index `next`. -/
def takeSnapshot (next : SnapshotEntry) (rest : List SnapshotEntry) (now : ℕ) : Outcome :=
  let (times, timestamp) := scheduledTime s.snapshotter next.idx now
  (scheduleSnapshot s next.idx timestamp).map fun s =>
    { s with snapshotter := { s.snapshotter with
        scheduledSnapshotTimes := times
        nextSnapshotIndices := { next with done := true } :: rest } }

def setLastSnapshotIdx (idx : ℕ) : System :=
  { s with snapshotter := { s.snapshotter with lastSnapshotIdx := idx } }

/-- `Snapshotter::commit`. -/
def commit (idx : ℕ) (generateSnapshot : Bool) (now : ℕ) : Outcome :=
  let (snapshotter, msgs) := updateIndices s.snapshotter idx
  let s := { s with snapshotter := snapshotter, toHost := s.toHost ++ msgs }
  if idx < snapshotter.lastSnapshotIdx then .error (.earlierThanLastSnapshot, s)
  else
    match snapshotter.nextSnapshotIndices with
    | [] => .error (.noSnapshottable, s)
    | next :: rest =>
      if idx < next.idx then .error (.beforeSnapshottable, s)
      else if !next.done && snapshotter.snapshotGenerationEnabled && generateSnapshot && next.idx ≠ 0 then
        (takeSnapshot s next rest now).map (setLastSnapshotIdx · next.idx)
      else .ok (setLastSnapshotIdx s next.idx)

/-- The store is compacted, and the hooks run for what has been committed. -/
def compacted (s : System) (v : ℕ) : System :=
  { s with
    compacted := v
    snapshotter := ((s.log.take v).drop s.compacted).foldl
      (fun snapshotter entry => globalHook snapshotter entry.writes) s.snapshotter }

/-- `Store::compact`. -/
def compact (v : ℕ) (isPrimary : Bool) (now : ℕ) : Outcome :=
  (commit s v isPrimary now).map fun s => if v > s.log.length then s else compacted s v

/-- `Store::rollback`. -/
def rollbackStore (idx : ℕ) : Outcome :=
  let s := { s with snapshotter := rollback s.snapshotter idx }
  if idx < s.compacted then .error (.rollbackBeforeCompacted, s)
  else .ok { s with log := s.log.take idx }

def setPhase (generation : ℕ) (phase : TaskPhase) : System :=
  { s with tasks := Assoc.modify generation (fun task => { task with phase := phase }) s.tasks }

def setPending (generation : ℕ) (f : SnapshotInfo → SnapshotInfo) : System :=
  { s with snapshotter := { s.snapshotter with
      pendingSnapshots := upsert generation f s.snapshotter.pendingSnapshots } }

/-- The next step of a snapshot task. The evidence can be committed to the local store and not be replicated. -/
inductive TaskStep where
  | reserve
  | serialise (snapshot : Bytes)
  | commitEvidence (writeSetDigest commitEvidence : Bytes) (replicated : Bool)
  | failEvidence
  | store
deriving DecidableEq

/-- The steps of `snapshot_`. -/
def runTask (s : System) (generation : ℕ) (task : Task) : TaskStep → System
  | .reserve =>
    match task.phase with
    | .scheduled =>
      if s.snapshotter.pendingSnapshots.length ≥ maxPendingSnapshotsCount then setPhase s generation .finished
      else setPhase (setPending s generation fun info => { info with version := task.version }) generation .reserved
    | _ => s
  | .serialise snapshot =>
    match task.phase with
    | .reserved => setPhase { s with generated := s.generated ++ [(task.version, snapshot)] } generation
        (.serialised snapshot)
    | _ => s
  | .commitEvidence writeSetDigest commitEvidence replicated =>
    match task.phase with
    | .serialised snapshot =>
      let hash := cfg.sha256 snapshot
      setPhase (applyEntry s ⟨writeSetDigest, commitEvidence, some hash, .evidence task.version hash task.timestamp⟩)
        generation (if replicated then .committed snapshot writeSetDigest commitEvidence (s.log.length + 1)
          else .finished)
    | _ => s
  | .failEvidence =>
    match task.phase with
    | .serialised _ => setPhase s generation .finished
    | _ => s
  | .store =>
    match task.phase with
    | .committed snapshot writeSetDigest commitEvidence evidenceVersion =>
      let s := setPending s generation fun info =>
        { info with
          commitEvidence := commitEvidence
          writeSetDigest := writeSetDigest
          snapshotDigest := cfg.sha256 snapshot
          serialisedSnapshot := snapshot }
      setPhase { s with
        toHost := s.toHost ++ [.snapshotAllocate task.version evidenceVersion snapshot.length generation] }
        generation .finished
    | _ => s

inductive Event where
  | append (entry : Entry)
  | sign (entry : Entry) (now : ℕ)
  | compact (v : ℕ) (isPrimary : Bool) (now : ℕ)
  | rollback (idx : ℕ)
  | task (generation : ℕ) (x : TaskStep)
  | writeSnapshot (size generation : ℕ)
  | setSnapshotGeneration (enabled : Bool)
  | requestSnapshot
deriving DecidableEq

/-- The step of an event, where it does not fail. -/
def perform (s : System) : Event → Outcome
  | .append entry => .ok (applyEntry s entry)
  | .sign entry now => sign cfg s entry now
  | .compact v isPrimary now => compact s v isPrimary now
  | .rollback idx => rollbackStore s idx
  | .task generation x =>
    match s.tasks.lookup generation with
    | none => .ok s
    | some task => .ok (runTask cfg s generation task x)
  | .writeSnapshot size generation => .ok { s with snapshotter := writeSnapshot s.snapshotter size generation }
  | .setSnapshotGeneration enabled =>
    .ok { s with snapshotter := { s.snapshotter with snapshotGenerationEnabled := enabled } }
  | .requestSnapshot => .ok { s with snapshotAtNextSignature := true }

def step (s : System) (x : Event) : System :=
  match perform cfg s x with
  | .ok s' => s'
  | .error (failure, s') => { s' with failure := some failure }

abbrev run (now : ℕ) (events : List Event) : System := Runs.exec (step cfg) (.init now) events

end Ccf.Node.Snapshotter
