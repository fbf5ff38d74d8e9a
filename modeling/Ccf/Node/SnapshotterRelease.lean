import Ccf.Node.SnapshotterSchedule

/-! # Released snapshots

A snapshot is released with a receipt for its evidence. If steps are `Orderly`, the receipt is for an entry of the
log with the digest of the snapshot, under a signature of the log.

Evidence of a later generation can be committed first. A rollback that removes the evidence of the earlier generation
then stops at the later one, and the earlier snapshot keeps an index that other entries take
(`not_releases_overtaken`). -/

namespace Ccf.Node.Snapshotter

open List

/-! ### Entries and signatures of a log -/

/-- The entry at an index of a log, from 1. -/
def EntryAt (log : List Entry) (idx : ℕ) (entry : Entry) : Prop := 0 < idx ∧ log[idx - 1]? = some entry

def Writes.isSignature : Writes → Bool
  | .signature _ _ => true
  | .evidence _ _ _ | .other => false

/-- No signature follows `idx`. -/
def NoSignature (log : List Entry) (idx : ℕ) : Prop :=
  ∀ idx' entry, idx < idx' → EntryAt log idx' entry → entry.writes.isSignature = false

/-- The first signature after `idx` is at `sigIdx`. -/
structure FirstSignature (log : List Entry) (idx sigIdx : ℕ) (coseSig tree : Bytes) : Prop where
  lt : idx < sigIdx
  entry : ∃ entry, EntryAt log sigIdx entry ∧ entry.writes = .signature coseSig tree
  first : ∀ idx' entry, idx < idx' → idx' < sigIdx → EntryAt log idx' entry → entry.writes.isSignature = false

variable {log : List Entry} {idx sigIdx n : ℕ} {entry x : Entry} {coseSig tree : Bytes}

theorem EntryAt.le_length (h : EntryAt log idx entry) : idx ≤ log.length := by
  have hlt := (List.getElem?_eq_some_iff.1 h.2).1
  omega

theorem EntryAt.append (h : EntryAt log idx entry) (added : List Entry) : EntryAt (log ++ added) idx entry := by
  have hle := h.le_length
  have hpos := h.1
  exact ⟨hpos, by rw [getElem?_append_left (by omega)]; exact h.2⟩

theorem entryAt_concat (log : List Entry) (x : Entry) : EntryAt (log ++ [x]) (log.length + 1) x :=
  ⟨Nat.succ_pos _, getElem?_concat_length⟩

theorem EntryAt.of_concat (h : EntryAt (log ++ [x]) idx entry) :
    EntryAt log idx entry ∨ idx = log.length + 1 ∧ entry = x := by
  have hle := h.le_length
  rw [length_append, length_singleton] at hle
  rcases lt_or_ge log.length idx with hlt | hge
  · obtain rfl : idx = log.length + 1 := by omega
    exact .inr ⟨rfl, Option.some.inj (h.2.symm.trans (entryAt_concat log x).2)⟩
  · have hpos := h.1
    exact .inl ⟨hpos, by rw [← h.2, getElem?_append_left (by omega)]⟩

theorem entryAt_take : EntryAt (log.take n) idx entry ↔ EntryAt log idx entry ∧ idx ≤ n := by
  unfold EntryAt
  rw [getElem?_take]
  constructor
  · rintro ⟨hpos, h⟩
    split_ifs at h with hlt
    exact ⟨⟨hpos, h⟩, by omega⟩
  · rintro ⟨⟨hpos, h⟩, hle⟩
    exact ⟨hpos, by rw [if_pos (by omega)]; exact h⟩

theorem NoSignature.concat (h : NoSignature log idx) (hx : x.writes.isSignature = false) :
    NoSignature (log ++ [x]) idx := by
  intro idx' entry hlt hentry
  rcases hentry.of_concat with hentry | ⟨-, rfl⟩
  · exact h idx' entry hlt hentry
  · exact hx

theorem NoSignature.take (h : NoSignature log idx) (n : ℕ) : NoSignature (log.take n) idx :=
  fun idx' entry hlt hentry => h idx' entry hlt (entryAt_take.1 hentry).1

theorem noSignature_length (log : List Entry) : NoSignature log log.length := by
  intro idx' entry hlt hentry
  exact absurd hentry.le_length (not_le.2 hlt)

section
variable (h : FirstSignature log idx sigIdx coseSig tree)
include h

theorem FirstSignature.append (added : List Entry) : FirstSignature (log ++ added) idx sigIdx coseSig tree := by
  obtain ⟨entry, hentry, hwrites⟩ := h.entry
  refine ⟨h.lt, ⟨entry, hentry.append added, hwrites⟩, fun idx' entry' hlt hlt' hentry' => ?_⟩
  have hle := hentry.le_length
  refine h.first idx' entry' hlt hlt' ⟨hentry'.1, ?_⟩
  rw [← hentry'.2, getElem?_append_left (by omega)]

/-- The first signature stays in a log that keeps any. -/
theorem FirstSignature.le {sigIdx' : ℕ} (hlt : idx < sigIdx')
    (hentry : EntryAt log sigIdx' entry) (hsig : entry.writes.isSignature = true) : sigIdx ≤ sigIdx' := by
  by_contra hgt
  rw [h.first sigIdx' entry hlt (not_le.1 hgt) hentry] at hsig
  cases hsig

theorem FirstSignature.take (hle : sigIdx ≤ n) : FirstSignature (log.take n) idx sigIdx coseSig tree := by
  obtain ⟨entry, hentry, hwrites⟩ := h.entry
  exact ⟨h.lt, ⟨entry, entryAt_take.2 ⟨hentry, hle⟩, hwrites⟩,
    fun idx' entry' hlt hlt' hentry' => h.first idx' entry' hlt hlt' (entryAt_take.1 hentry').1⟩

end

/-- A signature is the first one after all entries before it that no other follows. -/
theorem NoSignature.firstSignature (h : NoSignature log idx) (hle : idx ≤ log.length)
    (hx : x.writes = .signature coseSig tree) : FirstSignature (log ++ [x]) idx (log.length + 1) coseSig tree := by
  refine ⟨Nat.lt_succ_of_le hle, ⟨x, entryAt_concat log x, hx⟩, fun idx' entry hlt hlt' hentry => ?_⟩
  rcases hentry.of_concat with hentry | ⟨rfl, -⟩
  · exact h idx' entry hlt hentry
  · exact absurd hlt' (lt_irrefl _)

/-! ### The contract -/

/-- A receipt for the snapshot at `version` that is released when `v` is committed: its entry is committed and has
the digest of a snapshot generated at `version`, and a signature follows it in the log, a committed one if `v` is a
signature. -/
structure Proven (cfg : Config) (s : System) (v version : ℕ) (receipt : Receipt) : Prop where
  committed : receipt.evidenceIdx < v
  entry : ∃ entry snapshot, EntryAt s.log receipt.evidenceIdx entry ∧ (version, snapshot) ∈ s.generated ∧
    entry.writeSetDigest = receipt.writeSetDigest ∧ entry.commitEvidence = receipt.commitEvidence ∧
    entry.claimsDigest = some receipt.claimsDigest ∧ receipt.claimsDigest = cfg.sha256 snapshot
  signed : ∃ sigIdx entry, receipt.evidenceIdx < sigIdx ∧ EntryAt s.log sigIdx entry ∧
    entry.writes = .signature receipt.coseSig receipt.tree ∧
    ((∃ entry', EntryAt s.log v entry' ∧ entry'.writes.isSignature = true) → sigIdx ≤ v)

/-- Evidence and signatures of pending snapshots are at most at `idx`. -/
def RefersUpTo (idx : ℕ) (s : System) : Prop :=
  ∀ p ∈ s.snapshotter.pendingSnapshots, (∀ evidenceIdx ∈ p.2.evidenceIdx, evidenceIdx ≤ idx) ∧
    (p.2.coseSig = none ∧ p.2.tree = none ∨ ∃ sigIdx entry coseSig tree, sigIdx ≤ idx ∧ EntryAt s.log sigIdx entry ∧
      entry.writes = .signature coseSig tree ∧ p.2.coseSig = some coseSig ∧ p.2.tree = some tree)

/-- What a step sends to the host. -/
def sent (cfg : Config) (s : System) (x : Event) : List HostMsg := (step cfg s x).toHost.drop s.toHost.length

structure Releases (cfg : Config) (s : System) (x : Event) : Prop where
  proven : ∀ version receipt, .snapshotCommit version receipt ∈ sent cfg s x →
    ∃ v isPrimary now, x = .compact v isPrimary now ∧ Proven cfg s v version receipt
  rolledBack : ∀ idx, x = .rollback idx → RefersUpTo idx (step cfg s x)

/-- The host has been asked to allocate the snapshot of a generation. -/
def Allocated (s : System) (generation : ℕ) : Prop :=
  ∃ version evidenceVersion size, .snapshotAllocate version evidenceVersion size generation ∈ s.toHost

def allocates (generation : ℕ) : HostMsg → Bool
  | .snapshotAllocate _ _ _ g => g = generation
  | .snapshotCommit _ _ => false

variable {generation : ℕ}

theorem allocated_iff : s.toHost.any (allocates generation) = true ↔ Allocated s generation := by
  rw [any_eq_true]
  constructor
  · rintro ⟨m, hm, h⟩
    cases m with
    | snapshotAllocate version evidenceVersion size g =>
      obtain rfl : g = generation := of_decide_eq_true h
      exact ⟨version, evidenceVersion, size, hm⟩
    | snapshotCommit version receipt => cases h
  · rintro ⟨version, evidenceVersion, size, hm⟩
    exact ⟨_, hm, decide_eq_true rfl⟩

theorem allocated_append {messages : List HostMsg} (hhost : s'.toHost = s.toHost ++ messages)
    : Allocated s' generation ↔ Allocated s generation ∨ messages.any (allocates generation) = true := by
  rw [← allocated_iff, ← allocated_iff, hhost, any_append, Bool.or_eq_true]

/-- Snapshots without evidence up to `idx` are the last ones, and those with a signature have one up to `idx`. -/
def RollsBack (s : System) (idx : ℕ) : Prop :=
  (s.snapshotter.pendingSnapshots.Pairwise fun p q =>
    q.2.evidenceIdx.any (· ≤ idx) = true → p.2.evidenceIdx.any (· ≤ idx) = true) ∧
  ∀ p ∈ s.snapshotter.pendingSnapshots, p.2.coseSig.isSome = true → ∀ evidenceIdx ∈ p.2.evidenceIdx, evidenceIdx ≤ idx →
    ((s.log.take idx).drop evidenceIdx).any (·.writes.isSignature) = true

/-- Rollbacks take the last generations with their signatures, evidence is written for one pending snapshot by its
own task, and the host writes what it has been asked to allocate. -/
def Orderly (s : System) : Event → Prop
  | .append entry => ∀ version ∈ entry.writes.status, ∀ p ∈ s.snapshotter.pendingSnapshots, p.2.version ≠ version
  | .rollback idx => RollsBack s idx
  | .task generation (.commitEvidence _ _ _) => ∀ task ∈ s.tasks.lookup generation,
      ∀ p ∈ s.snapshotter.pendingSnapshots, p.2.version = task.version → p.1 = generation
  | .writeSnapshot _ generation => s.toHost.any (allocates generation) = true
  | _ => True

instance (s : System) (x : Event) : Decidable (Orderly s x) := by
  induction x using Event.casesOn with
  | task generation x => cases x <;> unfold Orderly <;> infer_instance
  | rollback idx =>
    unfold Orderly RollsBack
    infer_instance
  | _ =>
    unfold Orderly
    infer_instance

/-! ### The invariant -/

/-- The evidence of the task has been committed, or the task has ended. -/
def TaskPhase.attested : TaskPhase → Bool
  | .committed _ _ _ _ | .finished => true
  | .scheduled | .reserved | .serialised _ => false

/-- The evidence at an index of the log is that of a pending snapshot. Its data are those that the task will store, and
those that it has stored before it asks the host to allocate. -/
def Evidence (cfg : Config) (s : System) (generation : ℕ) (info : SnapshotInfo) (evidenceIdx : ℕ) : Prop :=
  ∃ entry snapshot, EntryAt s.log evidenceIdx entry ∧ (info.version, snapshot) ∈ s.generated ∧
    entry.claimsDigest = some (cfg.sha256 snapshot) ∧
    (Allocated s generation → info.writeSetDigest = entry.writeSetDigest ∧ info.commitEvidence = entry.commitEvidence ∧
      info.snapshotDigest = cfg.sha256 snapshot) ∧
    ∀ task ∈ s.tasks.lookup generation, ∀ snapshot' writeSetDigest commitEvidence evidenceVersion,
      task.phase = .committed snapshot' writeSetDigest commitEvidence evidenceVersion →
      snapshot' = snapshot ∧ writeSetDigest = entry.writeSetDigest ∧ commitEvidence = entry.commitEvidence

/-- What is recorded of signatures is the first one after the evidence. -/
def Signed (log : List Entry) (info : SnapshotInfo) : Prop :=
  info.coseSig = none ∧ info.tree = none ∧ (∀ evidenceIdx ∈ info.evidenceIdx, NoSignature log evidenceIdx) ∨
  ∃ evidenceIdx sigIdx coseSig tree, info.evidenceIdx = some evidenceIdx ∧
    FirstSignature log evidenceIdx sigIdx coseSig tree ∧ info.coseSig = some coseSig ∧ info.tree = some tree

structure Backed (cfg : Config) (s : System) (generation : ℕ) (info : SnapshotInfo) : Prop where
  evidence : ∀ evidenceIdx ∈ info.evidenceIdx, Evidence cfg s generation info evidenceIdx
  attested : info.evidenceIdx ≠ none → ∃ task ∈ s.tasks.lookup generation, task.phase.attested = true
  signed : Signed s.log info
  stored : info.isStored = true → Allocated s generation

structure Accounted (cfg : Config) (s : System) : Prop where
  sorted : s.snapshotter.pendingSnapshots.Pairwise fun p q => p.1 < q.1
  backed : ∀ p ∈ s.snapshotter.pendingSnapshots, Backed cfg s p.1 p.2
  allocated : ∀ generation, Allocated s generation → ∃ task ∈ s.tasks.lookup generation, task.phase = .finished
  serialised : ∀ generation, ∀ task ∈ s.tasks.lookup generation, ∀ snapshot, task.phase = .serialised snapshot →
    (task.version, snapshot) ∈ s.generated

theorem accounted_init (cfg : Config) (now : ℕ) : Accounted cfg (.init now) where
  sorted := List.Pairwise.nil
  backed := by rintro p ⟨⟩
  allocated := by rintro generation ⟨_, _, _, ⟨⟩⟩
  serialised := by rintro generation task ⟨⟩

/-! ### What steps keep -/

/-- For the snapshot of a generation, a step keeps what has been recorded, and it changes the task only before the
evidence is committed. -/
structure Keeps (s s' : System) (generation : ℕ) : Prop where
  generated : ∀ p ∈ s.generated, p ∈ s'.generated
  allocated : Allocated s' generation ↔ Allocated s generation
  tasks : s'.tasks.lookup generation = s.tasks.lookup generation ∨
    (∀ task ∈ s.tasks.lookup generation, task.phase.attested = false) ∧
    ∀ task ∈ s'.tasks.lookup generation, ∀ snapshot, task.phase = .serialised snapshot →
      (task.version, snapshot) ∈ s'.generated

variable {cfg : Config} {s s' s'' : System} {v version : ℕ} {info : SnapshotInfo} {task : Task} {receipt : Receipt}
  {o : Outcome} {f : System → System} {snapshot : Bytes}

theorem Keeps.of_eq (hgenerated : s'.generated = s.generated) (htasks : s'.tasks = s.tasks)
    (hhost : s'.toHost = s.toHost) (generation : ℕ) : Keeps s s' generation where
  generated := by rw [hgenerated]; exact fun _ hp => hp
  allocated := by unfold Allocated; rw [hhost]
  tasks := .inl (by rw [htasks])

/-- A task with recorded evidence is not changed. -/
theorem Keeps.lookup_eq (h : Keeps s s' generation) (htask : task ∈ s.tasks.lookup generation)
    (hattested : task.phase.attested = true) : s'.tasks.lookup generation = s.tasks.lookup generation := by
  rcases h.tasks with h | ⟨h, -⟩
  · exact h
  · rw [h task htask] at hattested
    cases hattested

theorem Backed.keeps (h : Backed cfg s generation info) (hkeeps : Keeps s s' generation)
    (hentries : ∀ idx entry, idx ∈ info.evidenceIdx → EntryAt s.log idx entry → EntryAt s'.log idx entry)
    {coseSig tree : Option Bytes} (hsigned : Signed s'.log { info with coseSig := coseSig, tree := tree }) :
    Backed cfg s' generation { info with coseSig := coseSig, tree := tree } where
  evidence := by
    intro idx hidx
    obtain ⟨entry, snapshot, hentry, hgenerated, hclaims, hallocated, hcommitted⟩ := h.evidence idx hidx
    obtain ⟨task, htask, hattested⟩ := h.attested (by rw [Option.mem_def.1 hidx]; rintro ⟨⟩)
    refine ⟨entry, snapshot, hentries idx entry hidx hentry, hkeeps.generated _ hgenerated, hclaims, ?_, ?_⟩
    · rw [hkeeps.allocated]
      exact hallocated
    · rw [hkeeps.lookup_eq htask hattested]
      exact hcommitted
  attested := by
    intro hne
    obtain ⟨task, htask, hattested⟩ := h.attested hne
    exact ⟨task, by rw [hkeeps.lookup_eq htask hattested]; exact htask, hattested⟩
  signed := hsigned
  stored := by
    rw [hkeeps.allocated]
    exact h.stored

theorem backed_of_none (hevidence : info.evidenceIdx = none) (hcoseSig : info.coseSig = none) (htree : info.tree = none)
    (hstored : info.isStored = true → Allocated s generation) : Backed cfg s generation info where
  evidence := by rw [hevidence]; rintro _ ⟨⟩
  attested := fun hne => absurd hevidence hne
  signed := .inl ⟨hcoseSig, htree, by rw [hevidence]; rintro _ ⟨⟩⟩
  stored := hstored

theorem Signed.eq_none (h : Signed s.log info) (hevidence : info.evidenceIdx = none) :
    info.coseSig = none ∧ info.tree = none := by
  rcases h with ⟨hcoseSig, htree, -⟩ | ⟨_, _, _, _, hsome, -⟩
  · exact ⟨hcoseSig, htree⟩
  · rw [hevidence] at hsome
    cases hsome

/-- Before its task has committed evidence, a snapshot has none. -/
theorem Backed.evidenceIdx_eq_none (h : Backed cfg s generation info)
    (htask : ∀ task ∈ s.tasks.lookup generation, task.phase.attested = false) : info.evidenceIdx = none := by
  by_contra hne
  obtain ⟨task, hmem, hattested⟩ := h.attested hne
  rw [htask task hmem] at hattested
  cases hattested

theorem Accounted.of_keeps (h : Accounted cfg s)
    (hkeeps : ∀ generation, Keeps s s' generation ∨ ∃ task, s'.tasks.lookup generation = some task ∧
      task.phase = .finished)
    (hsorted : s'.snapshotter.pendingSnapshots.Pairwise fun p q => p.1 < q.1)
    (hbacked : ∀ p ∈ s'.snapshotter.pendingSnapshots, Backed cfg s' p.1 p.2) : Accounted cfg s' where
  sorted := hsorted
  backed := hbacked
  allocated := by
    intro generation hallocated
    rcases hkeeps generation with hkeeps | hfinished
    · obtain ⟨task, htask, hfinished⟩ := h.allocated generation (hkeeps.allocated.1 hallocated)
      refine ⟨task, ?_, hfinished⟩
      rw [hkeeps.lookup_eq htask (by rw [hfinished]; rfl)]
      exact htask
    · exact hfinished
  serialised := by
    intro generation task htask snapshot hphase
    rcases hkeeps generation with hkeeps | ⟨task', htask', hfinished⟩
    · rcases hkeeps.tasks with heq | ⟨-, hserialised⟩
      · rw [heq] at htask
        exact hkeeps.generated _ (h.serialised generation task htask snapshot hphase)
      · exact hserialised task htask snapshot hphase
    · cases htask'.symm.trans htask
      rw [hfinished] at hphase
      cases hphase

/-- Steps that do not write to the log, and only remove snapshots. -/
theorem Accounted.keeps (h : Accounted cfg s) (hkeeps : ∀ generation, Keeps s s' generation)
    (hpending : s'.snapshotter.pendingSnapshots.Sublist s.snapshotter.pendingSnapshots) (hlog : s'.log = s.log) :
    Accounted cfg s' := by
  refine h.of_keeps (fun g => .inl (hkeeps g)) (h.sorted.sublist hpending) fun p hp => ?_
  have hp' := h.backed p (hpending.subset hp)
  exact hp'.keeps (hkeeps p.1) (by rw [hlog]; exact fun _ _ _ hentry => hentry) (by rw [hlog]; exact hp'.signed)

/-! ### Entries -/

theorem Signed.concat (h : Signed log info) (hentry : entry.writes.isSignature = false) :
    Signed (log ++ [entry]) info := by
  rcases h with ⟨hcoseSig, htree, hnone⟩ | ⟨evidenceIdx, sigIdx, coseSig, tree, hevidence, hfirst, hcoseSig, htree⟩
  · exact .inl ⟨hcoseSig, htree, fun idx hidx => (hnone idx hidx).concat hentry⟩
  · exact .inr ⟨evidenceIdx, sigIdx, coseSig, tree, hevidence, hfirst.append _, hcoseSig, htree⟩

theorem Backed.concat (h : Backed cfg s generation info) (hkeeps : Keeps s s' generation)
    (hlog : s'.log = s.log ++ [entry])
    (hentry : entry.writes.isSignature = false) : Backed cfg s' generation info := by
  refine h.keeps hkeeps (fun idx entry' _ hentry' => ?_) ?_
  · rw [hlog]
    exact hentry'.append _
  · rw [hlog]
    exact h.signed.concat hentry

/-- What the hooks of a signature at `idx` make of a pending snapshot. -/
def SnapshotInfo.sign (info : SnapshotInfo) (idx : ℕ) (coseSig tree : Bytes) : SnapshotInfo :=
  { info with
    coseSig := if info.evidenceIdx.any (· < idx) ∧ info.coseSig = none then some coseSig else info.coseSig
    tree := if info.evidenceIdx.any (· < idx) ∧ info.tree = none then some tree else info.tree }

theorem pendingSnapshots_signature (st : State) (idx : ℕ) (coseSig tree : Bytes) :
    (mapHooks st idx (.signature coseSig tree)).pendingSnapshots =
      st.pendingSnapshots.map fun p => (p.1, p.2.sign idx coseSig tree) := by
  simp only [mapHooks, recordSerialisedTree, recordCoseSignature, map_map]
  refine map_congr_left fun p _ => ?_
  simp only [Function.comp_apply, SnapshotInfo.sign]
  congr 1
  split_ifs <;> simp_all

theorem Signed.sign (h : Signed log info)
    (hevidence : ∀ idx ∈ info.evidenceIdx, idx ≤ log.length) (hentry : entry.writes = .signature coseSig tree) :
    Signed (log ++ [entry]) (info.sign (log.length + 1) coseSig tree) := by
  rcases h with ⟨hcoseSig, htree, hnone⟩ | ⟨evidenceIdx, sigIdx, coseSig', tree', hsome, hfirst, hcoseSig, htree⟩
  · cases hidx : info.evidenceIdx with
    | none => exact .inl (by simp [SnapshotInfo.sign, hidx, hcoseSig, htree])
    | some idx =>
      have hle := hevidence idx hidx
      refine .inr ⟨idx, log.length + 1, coseSig, tree, hidx, (hnone idx hidx).firstSignature hle hentry, ?_, ?_⟩
      · rw [SnapshotInfo.sign, hidx, hcoseSig]
        exact if_pos (by simpa using Nat.lt_succ_of_le hle)
      · rw [SnapshotInfo.sign, hidx, htree]
        exact if_pos (by simpa using Nat.lt_succ_of_le hle)
  · refine .inr ⟨evidenceIdx, sigIdx, coseSig', tree', hsome, hfirst.append _, ?_, ?_⟩
    · simp [SnapshotInfo.sign, hcoseSig]
    · simp [SnapshotInfo.sign, htree]

theorem Backed.sign (h : Backed cfg s generation info) (hkeeps : Keeps s s' generation)
    (hlog : s'.log = s.log ++ [entry])
    {coseSig tree : Bytes} (hentry : entry.writes = .signature coseSig tree) :
    Backed cfg s' generation (info.sign (s.log.length + 1) coseSig tree) := by
  have hle : ∀ idx ∈ info.evidenceIdx, idx ≤ s.log.length := by
    intro idx hidx
    obtain ⟨_, _, hentry, -⟩ := h.evidence idx hidx
    exact hentry.le_length
  refine h.keeps hkeeps (fun idx entry' _ hentry' => ?_) ?_
  · rw [hlog]
    exact hentry'.append _
  · rw [hlog]
    exact h.signed.sign hle hentry

theorem pendingSnapshots_evidence (st : State) (idx version : ℕ) (hash : Bytes) (timestamp : ℕ) :
    (mapHooks st idx (.evidence version hash timestamp)).pendingSnapshots = st.pendingSnapshots.map fun p =>
      (p.1, if p.2.version = version then { p.2 with evidenceIdx := some idx } else p.2) := rfl

/-- An entry is written that leaves the pending snapshots as they are. -/
theorem Accounted.concat (h : Accounted cfg s) (hkeeps : ∀ generation, Keeps s s' generation)
    (hpending : s'.snapshotter.pendingSnapshots = s.snapshotter.pendingSnapshots) (hlog : s'.log = s.log ++ [entry])
    (hentry : entry.writes.isSignature = false) : Accounted cfg s' := by
  refine h.of_keeps (fun g => .inl (hkeeps g)) (by rw [hpending]; exact h.sorted) fun p hp => ?_
  rw [hpending] at hp
  exact (h.backed p hp).concat (hkeeps _) hlog hentry

/-- An entry that is evidence of no pending snapshot is applied. -/
theorem Accounted.applyEntry (h : Accounted cfg s)
    (hentry : ∀ version ∈ entry.writes.status, ∀ p ∈ s.snapshotter.pendingSnapshots, p.2.version ≠ version) :
    Accounted cfg (applyEntry s entry) := by
  have hkeeps : ∀ generation, Keeps s (Snapshotter.applyEntry s entry) generation := Keeps.of_eq rfl rfl rfl
  cases hwrites : entry.writes with
  | signature coseSig tree =>
    have hpending : (Snapshotter.applyEntry s entry).snapshotter.pendingSnapshots =
        s.snapshotter.pendingSnapshots.map fun p => (p.1, p.2.sign (s.log.length + 1) coseSig tree) := by
      rw [← pendingSnapshots_signature, ← hwrites]
      rfl
    refine h.of_keeps (fun g => .inl (hkeeps g)) ?_ fun p hp => ?_
    · rw [hpending]
      exact pairwise_map.2 h.sorted
    · rw [hpending] at hp
      obtain ⟨p₀, hp₀, rfl⟩ := mem_map.1 hp
      exact (h.backed p₀ hp₀).sign (hkeeps _) rfl hwrites
  | evidence version hash timestamp =>
    refine h.concat hkeeps ?_ rfl (by rw [hwrites]; rfl)
    show (mapHooks s.snapshotter (s.log.length + 1) entry.writes).pendingSnapshots = _
    rw [hwrites, pendingSnapshots_evidence]
    refine (map_congr_left fun p hp => ?_).trans (map_id _)
    rw [if_neg (hentry version (by rw [hwrites]; rfl) p hp)]
    rfl
  | other =>
    refine h.concat hkeeps ?_ rfl (by rw [hwrites]; rfl)
    show (mapHooks s.snapshotter (s.log.length + 1) entry.writes).pendingSnapshots = _
    rw [hwrites]
    rfl

/-! ### Steps that only schedule -/

/-- The state that an operation leaves, also where it fails. -/
def result : Outcome → System
  | .ok s => s
  | .error (_, s) => s

/-- What scheduling keeps. -/
structure Frame (s s' : System) : Prop where
  pending : s'.snapshotter.pendingSnapshots = s.snapshotter.pendingSnapshots
  log : s'.log = s.log
  generated : s'.generated = s.generated
  toHost : s'.toHost = s.toHost
  tasks : s'.tasks = s.tasks ∨ ∃ generation task, task.phase = .scheduled ∧ s'.tasks = s.tasks ++ [(generation, task)]

theorem Frame.keeps (h : Frame s s') (generation : ℕ) : Keeps s s' generation := by
  rcases h.tasks with htasks | ⟨generation', task, hphase, htasks⟩
  · exact Keeps.of_eq h.generated htasks h.toHost generation
  · refine ⟨by rw [h.generated]; exact fun _ hp => hp, by unfold Allocated; rw [h.toHost], ?_⟩
    cases hlookup : s.tasks.lookup generation with
    | some task' =>
      left
      rw [htasks, lookup_append, hlookup]
      rfl
    | none =>
      refine .inr ⟨by rintro _ ⟨⟩, fun task' htask' snapshot hsnapshot => ?_⟩
      -- only the new task can be found, and it is not serialised
      rw [htasks, lookup_append, hlookup, Option.none_or] at htask'
      cases mem_singleton.1 (Assoc.mem_of_lookup htask')
      rw [hphase] at hsnapshot
      cases hsnapshot

theorem Accounted.frame (h : Accounted cfg s) (hframe : Frame s s') : Accounted cfg s' :=
  h.keeps hframe.keeps (by rw [hframe.pending]) hframe.log

theorem frame_step (cfg : Config) (s : System) (x : Event) : Frame (result (perform cfg s x)) (step cfg s x) := by
  unfold step
  cases perform cfg s x with
  | ok s' | error e => exact ⟨rfl, rfl, rfl, rfl, .inl rfl⟩

theorem frame_sign (cfg : Config) (s : System) (entry : Entry) (now : ℕ) :
    Frame (applyEntry s entry) (result (sign cfg s entry now)) := by
  unfold sign recordCommittable
  dsimp only
  split
  · rename_i heq
    exact ⟨rfl, rfl, rfl, rfl, .inl rfl⟩
  · rename_i heq
    split at heq
    · cases heq
    · split_ifs at heq
      · cases heq
        exact ⟨rfl, rfl, rfl, rfl, .inl rfl⟩
      · cases heq
        exact ⟨rfl, rfl, rfl, rfl, .inl rfl⟩

theorem frame_takeSnapshot (s : System) (next : SnapshotEntry) (rest : List SnapshotEntry) (now : ℕ) :
    Frame s (result (takeSnapshot s next rest now)) := by
  unfold takeSnapshot scheduleSnapshot
  split_ifs
  · exact ⟨rfl, rfl, rfl, rfl, .inl rfl⟩
  · exact ⟨rfl, rfl, rfl, rfl, .inl rfl⟩
  · exact ⟨rfl, rfl, rfl, rfl, .inr ⟨_, _, rfl, rfl⟩⟩

/-- An update of a state that the invariant does not see. -/
theorem Frame.map (h : Frame s (result o))
    (hf : ∀ s, (f s).snapshotter.pendingSnapshots = s.snapshotter.pendingSnapshots ∧ (f s).log = s.log ∧
      (f s).generated = s.generated ∧ (f s).toHost = s.toHost ∧ (f s).tasks = s.tasks) :
    Frame s (result (o.map f)) := by
  cases o with
  | error e => exact h
  | ok s' =>
    obtain ⟨hpending, hlog, hgenerated, hhost, htasks⟩ := hf s'
    exact ⟨hpending.trans h.pending, hlog.trans h.log, hgenerated.trans h.generated, hhost.trans h.toHost,
      by rw [show (result (Except.map f (.ok s'))).tasks = s'.tasks from htasks]; exact h.tasks⟩

theorem frame_commit (s : System) (v : ℕ) (generateSnapshot : Bool) (now : ℕ) :
    Frame (updated s v) (result (commit s v generateSnapshot now)) := by
  unfold commit
  dsimp only
  split_ifs
  · exact ⟨rfl, rfl, rfl, rfl, .inl rfl⟩
  · split
    · exact ⟨rfl, rfl, rfl, rfl, .inl rfl⟩
    · split_ifs
      · exact ⟨rfl, rfl, rfl, rfl, .inl rfl⟩
      · exact (frame_takeSnapshot (updated s v) _ _ now).map fun s => ⟨rfl, rfl, rfl, rfl, rfl⟩
      · exact ⟨rfl, rfl, rfl, rfl, .inl rfl⟩

theorem foldl_globalHook_pending (entries : List Entry) (st : State) :
    (entries.foldl (fun st entry => globalHook st entry.writes) st).pendingSnapshots = st.pendingSnapshots := by
  induction entries generalizing st with
  | nil => rfl
  | cons entry entries ih =>
    rw [foldl_cons, ih]
    cases entry.writes <;> rfl

theorem frame_compact (s : System) (v : ℕ) (isPrimary : Bool) (now : ℕ) :
    Frame (updated s v) (result (compact s v isPrimary now)) := by
  refine (frame_commit s v isPrimary now).map fun s => ?_
  split_ifs
  · exact ⟨rfl, rfl, rfl, rfl, rfl⟩
  · exact ⟨foldl_globalHook_pending _ _, rfl, rfl, rfl, rfl⟩

/-! ### Release -/

/-- What is ready to be released, and its receipt. -/
structure Ready (idx : ℕ) (info : SnapshotInfo) (receipt : Receipt) : Prop where
  stored : info.isStored = true
  evidence : info.evidenceIdx = some receipt.evidenceIdx
  committed : receipt.evidenceIdx < idx
  coseSig : info.coseSig = some receipt.coseSig
  tree : info.tree = some receipt.tree
  data : receipt.writeSetDigest = info.writeSetDigest ∧ receipt.commitEvidence = info.commitEvidence ∧
    receipt.claimsDigest = info.snapshotDigest

theorem ready_of_releasable (h : releasable idx info = some receipt) : Ready idx info receipt := by
  unfold releasable at h
  split at h
  · rename_i hstored hevidence hcoseSig htree
    split_ifs at h with hlt
    cases h
    exact ⟨hstored, hevidence, hlt, hcoseSig, htree, rfl, rfl, rfl⟩
  · cases h

theorem mem_updateIndices {st : State} (h : .snapshotCommit version receipt ∈ (updateIndices st v).2) :
    ∃ p ∈ st.pendingSnapshots, version = p.2.version ∧ Ready v p.2 receipt := by
  obtain ⟨p, hp, hmap⟩ := mem_filterMap.1 h
  obtain ⟨receipt', hreceipt, heq⟩ := Option.map_eq_some_iff.1 hmap
  cases heq
  exact ⟨p, hp, rfl, ready_of_releasable hreceipt⟩

theorem not_allocates_updateIndices (st : State) (generation : ℕ) :
    ¬(updateIndices st v).2.any (allocates generation) = true := by
  intro h
  obtain ⟨m, hm, hallocates⟩ := any_eq_true.1 h
  obtain ⟨p, -, hmap⟩ := mem_filterMap.1 hm
  obtain ⟨_, -, rfl⟩ := Option.map_eq_some_iff.1 hmap
  cases hallocates

/-- Receipts of backed snapshots are proven. -/
theorem Accounted.proven (h : Accounted cfg s)
    (hmem : .snapshotCommit version receipt ∈ (updateIndices s.snapshotter v).2) : Proven cfg s v version receipt := by
  obtain ⟨p, hp, rfl, hready⟩ := mem_updateIndices hmem
  have hbacked := h.backed p hp
  obtain ⟨entry, snapshot, hentry, hgenerated, hclaims, hdata, -⟩ := hbacked.evidence _ hready.evidence
  obtain ⟨hwrite, hcommit, hdigest⟩ := hdata (hbacked.stored hready.stored)
  obtain ⟨hwrite', hcommit', hdigest'⟩ := hready.data
  refine ⟨hready.committed, ⟨entry, snapshot, hentry, hgenerated, ?_, ?_, ?_, ?_⟩, ?_⟩
  · rw [hwrite', hwrite]
  · rw [hcommit', hcommit]
  · rw [hclaims, hdigest', hdigest]
  · rw [hdigest', hdigest]
  · rcases hbacked.signed with ⟨hnone, -⟩ | ⟨evidenceIdx, sigIdx, coseSig, tree, hevidence, hfirst, hcoseSig, htree⟩
    · rw [hready.coseSig] at hnone
      cases hnone
    · cases hready.evidence.symm.trans hevidence
      cases hready.coseSig.symm.trans hcoseSig
      cases hready.tree.symm.trans htree
      obtain ⟨sigEntry, hsigEntry, hwrites⟩ := hfirst.entry
      refine ⟨sigIdx, sigEntry, hfirst.lt, hsigEntry, hwrites, ?_⟩
      rintro ⟨entry', hentry', hsig⟩
      exact hfirst.le hready.committed hentry' hsig

theorem Accounted.updated (h : Accounted cfg s) (v : ℕ) : Accounted cfg (updated s v) := by
  refine h.keeps (fun generation => ⟨fun _ hp => hp, ?_, .inl rfl⟩) filter_sublist rfl
  exact (allocated_append rfl).trans (or_iff_left (not_allocates_updateIndices s.snapshotter generation))

/-! ### Rollback -/

theorem exists_signature (h : ((log.take n).drop idx).any (·.writes.isSignature) = true) :
    ∃ sigIdx entry, idx < sigIdx ∧ sigIdx ≤ n ∧ EntryAt log sigIdx entry ∧ entry.writes.isSignature = true := by
  obtain ⟨entry, hmem, hsig⟩ := any_eq_true.1 h
  obtain ⟨i, hi⟩ := mem_iff_getElem?.1 hmem
  rw [getElem?_drop] at hi
  have hentry : EntryAt (log.take n) (idx + i + 1) entry := ⟨Nat.succ_pos _, hi⟩
  exact ⟨idx + i + 1, entry, by omega, (entryAt_take.1 hentry).2, (entryAt_take.1 hentry).1, hsig⟩

theorem pendingSnapshots_rollback (h : RollsBack s idx) : (rollback s.snapshotter idx).pendingSnapshots =
    s.snapshotter.pendingSnapshots.filter fun p => p.2.evidenceIdx.any (· ≤ idx) :=
  rdropWhile_eq_filter h.1

theorem le_of_any {o : Option ℕ} (h : o.any (· ≤ idx) = true) {e : ℕ} (he : e ∈ o) : e ≤ idx := by
  rw [Option.mem_def.1 he] at h
  exact of_decide_eq_true h

theorem Signed.take (h : Signed log info)
    (hsig : info.coseSig.isSome = true → ∀ e ∈ info.evidenceIdx,
      ((log.take n).drop e).any (·.writes.isSignature) = true) :
    Signed (log.take n) info := by
  rcases h with ⟨hcoseSig, htree, hnone⟩ | ⟨evidenceIdx, sigIdx, coseSig, tree, hevidence, hfirst, hcoseSig, htree⟩
  · exact .inl ⟨hcoseSig, htree, fun e he => (hnone e he).take n⟩
  · obtain ⟨sigIdx', entry, hlt, hle, hentry, hsig⟩ := exists_signature (hsig (by rw [hcoseSig]; rfl) _ hevidence)
    have hsigIdx := hfirst.le hlt hentry hsig
    exact .inr ⟨evidenceIdx, sigIdx, coseSig, tree, hevidence, hfirst.take (le_trans hsigIdx hle), hcoseSig, htree⟩

theorem Accounted.rollback (h : Accounted cfg s) (hidx : s.compacted ≤ idx) (hrolls : RollsBack s idx) :
    Accounted cfg (result (rollbackStore s idx)) ∧ RefersUpTo idx (result (rollbackStore s idx)) := by
  have hresult : result (rollbackStore s idx) =
      { s with snapshotter := Snapshotter.rollback s.snapshotter idx, log := s.log.take idx } := by
    unfold rollbackStore
    rw [if_neg (not_lt.2 hidx)]
    rfl
  have hmem : ∀ p ∈ (Snapshotter.rollback s.snapshotter idx).pendingSnapshots,
      p ∈ s.snapshotter.pendingSnapshots ∧ (∀ e ∈ p.2.evidenceIdx, e ≤ idx) ∧ Signed (s.log.take idx) p.2 := by
    rw [pendingSnapshots_rollback hrolls]
    intro p hp
    obtain ⟨hp, hany⟩ := mem_filter.1 hp
    have hle : ∀ e ∈ p.2.evidenceIdx, e ≤ idx := fun e he => le_of_any hany he
    exact ⟨hp, hle, (h.backed p hp).signed.take fun hsome e he => hrolls.2 p hp hsome e he (hle e he)⟩
  rw [hresult]
  have hkeeps : ∀ g,
      Keeps s { s with snapshotter := Snapshotter.rollback s.snapshotter idx, log := s.log.take idx } g :=
    Keeps.of_eq rfl rfl rfl
  constructor
  · refine h.of_keeps (fun g => .inl (hkeeps g)) ?_ fun p hp => ?_
    · show (Snapshotter.rollback s.snapshotter idx).pendingSnapshots.Pairwise _
      rw [pendingSnapshots_rollback hrolls]
      exact h.sorted.sublist filter_sublist
    · obtain ⟨hp, hle, hsigned⟩ := hmem p hp
      refine (h.backed p hp).keeps (hkeeps p.1) (fun e entry he hentry => ?_) hsigned
      exact entryAt_take.2 ⟨hentry, hle e he⟩
  · intro p hp
    obtain ⟨-, hle, hsigned⟩ := hmem p hp
    refine ⟨hle, ?_⟩
    rcases hsigned with ⟨hcoseSig, htree, -⟩ | ⟨_, sigIdx, coseSig, tree, -, hfirst, hcoseSig, htree⟩
    · exact .inl ⟨hcoseSig, htree⟩
    · obtain ⟨entry, hentry, hwrites⟩ := hfirst.entry
      exact .inr ⟨sigIdx, entry, coseSig, tree, (entryAt_take.1 hentry).2, hentry, hwrites, hcoseSig, htree⟩

/-! ### Tasks -/

theorem lookup_setPhase (s : System) (generation generation' : ℕ) (phase : TaskPhase) :
    (setPhase s generation phase).tasks.lookup generation' =
      if generation' = generation then (s.tasks.lookup generation').map fun task => { task with phase := phase }
      else s.tasks.lookup generation' :=
  Assoc.lookup_modify generation generation' (fun task : Task => { task with phase := phase }) s.tasks

/-- A task moves on before its evidence is committed. -/
theorem Keeps.setPhase (hkeeps : ∀ g, Keeps s s' g) (htasks : s'.tasks = s.tasks)
    (htask : s.tasks.lookup generation = some task)
    (hattested : task.phase.attested = false) (phase : TaskPhase)
    (hphase : ∀ snapshot, phase = .serialised snapshot → (task.version, snapshot) ∈ s'.generated) (g : ℕ) :
    Keeps s (setPhase s' generation phase) g := by
  refine ⟨(hkeeps g).generated, (hkeeps g).allocated, ?_⟩
  rw [lookup_setPhase, htasks]
  by_cases hg : g = generation
  · subst hg
    rw [if_pos rfl, htask]
    refine .inr ⟨?_, ?_⟩
    · rintro _ ⟨⟩
      exact hattested
    · rintro _ ⟨⟩
      exact hphase
  · rw [if_neg hg]
    exact .inl rfl

theorem upsert_eq (g : ℕ) (f : SnapshotInfo → SnapshotInfo) (l : PendingSnapshots) :
    upsert g f l = Assoc.upsert g f .empty l := by
  induction l with
  | nil => rfl
  | cons p l ih => rw [upsert, Assoc.upsert, ih]

section
variable (h : Accounted cfg s) (htask : s.tasks.lookup generation = some task)
include h htask

/-- A snapshot is changed before the evidence of its task is committed. -/
theorem Accounted.reserve (hphase : task.phase = .scheduled) (version : ℕ) :
    Accounted cfg
      (setPhase (setPending s generation fun info => { info with version := version }) generation .reserved) := by
  have hattested : task.phase.attested = false := by rw [hphase]; rfl
  have hpending : ∀ g, Keeps s (setPending s generation fun info => { info with version := version }) g :=
    Keeps.of_eq rfl rfl rfl
  have hkeeps := Keeps.setPhase hpending rfl htask hattested .reserved (by rintro _ ⟨⟩)
  refine h.of_keeps (fun g => .inl (hkeeps g)) ?_ fun p (hp : p ∈ upsert _ _ _) => ?_
  · show (upsert _ _ _).Pairwise _
    rw [upsert_eq]
    exact Assoc.sorted_upsert h.sorted
  rw [upsert_eq] at hp
  rcases Assoc.mem_upsert h.sorted hp with ⟨-, hp⟩ | ⟨heq, hempty | ⟨info, hinfo, hp⟩⟩
  · exact (h.backed p hp).keeps (hkeeps p.1) (fun _ _ _ hentry => hentry) (h.backed p hp).signed
  · rw [hempty]
    exact backed_of_none rfl rfl rfl (by rintro ⟨⟩)
  · have hbacked := h.backed _ hinfo
    have hnone := hbacked.evidenceIdx_eq_none (by rw [htask]; rintro _ ⟨⟩; exact hattested)
    obtain ⟨hcoseSig, htree⟩ := hbacked.signed.eq_none hnone
    rw [hp, heq]
    exact backed_of_none hnone hcoseSig htree fun hstored => (hkeeps generation).allocated.2 (hbacked.stored hstored)

/-- The evidence of a task is applied to the store, for the one snapshot it is the evidence of. -/
theorem Accounted.commitEvidence (hphase : task.phase = .serialised snapshot)
    (writeSetDigest commitEvidence : Bytes) (replicated : Bool)
    (hown : ∀ p ∈ s.snapshotter.pendingSnapshots, p.2.version = task.version → p.1 = generation) :
    Accounted cfg (runTask cfg s generation task (.commitEvidence writeSetDigest commitEvidence replicated)) := by
  simp only [runTask, hphase]
  set entry : Entry := ⟨writeSetDigest, commitEvidence, some (cfg.sha256 snapshot),
    .evidence task.version (cfg.sha256 snapshot) task.timestamp⟩ with hentry
  set phase : TaskPhase :=
    if replicated then .committed snapshot writeSetDigest commitEvidence (s.log.length + 1) else .finished with hnew
  have hattested : task.phase.attested = false := by rw [hphase]; rfl
  have happlied : ∀ g, Keeps s (Snapshotter.applyEntry s entry) g := Keeps.of_eq rfl rfl rfl
  have hkeeps := Keeps.setPhase happlied rfl htask hattested phase (by rw [hnew]; cases replicated <;> rintro _ ⟨⟩)
  have hpending : (setPhase (Snapshotter.applyEntry s entry) generation phase).snapshotter.pendingSnapshots =
      s.snapshotter.pendingSnapshots.map fun p =>
        (p.1, if p.2.version = task.version then { p.2 with evidenceIdx := some (s.log.length + 1) } else p.2) := rfl
  refine h.of_keeps (fun g => .inl (hkeeps g)) ?_ fun p hp => ?_
  · exact pairwise_map.2 h.sorted
  obtain ⟨⟨g, info⟩, hp₀, rfl⟩ := mem_map.1 hp
  have hbacked := h.backed _ hp₀
  by_cases hversion : info.version = task.version
  · obtain rfl : g = generation := hown _ hp₀ hversion
    have hnone := hbacked.evidenceIdx_eq_none (by rw [htask]; rintro _ ⟨⟩; exact hattested)
    obtain ⟨hcoseSig, htree⟩ := hbacked.signed.eq_none hnone
    have hnot : ¬Allocated (setPhase (Snapshotter.applyEntry s entry) g phase) g := by
      intro hallocated
      obtain ⟨task', htask', hfinished⟩ := h.allocated g hallocated
      cases htask.symm.trans htask'
      rw [hphase] at hfinished
      cases hfinished
    have hlookup : (setPhase (Snapshotter.applyEntry s entry) g phase).tasks.lookup g =
        some { task with phase := phase } := by
      rw [lookup_setPhase, if_pos rfl]
      show (s.tasks.lookup g).map _ = _
      rw [htask]
      rfl
    simp only [if_pos hversion]
    exact {
      evidence := by
        rintro _ ⟨⟩
        refine ⟨entry, snapshot, entryAt_concat _ _, ?_, rfl, fun hallocated => absurd hallocated hnot, ?_⟩
        · show (info.version, snapshot) ∈ s.generated
          rw [hversion]
          exact h.serialised g task htask snapshot hphase
        · rw [hlookup]
          rintro _ ⟨⟩ snapshot' writeSetDigest' commitEvidence' evidenceVersion heq
          cases replicated with
          | false => cases heq
          | true =>
            cases heq
            exact ⟨rfl, rfl, rfl⟩
      attested := by
        intro _
        refine ⟨_, hlookup, ?_⟩
        cases replicated <;> rfl
      signed := .inl ⟨hcoseSig, htree, by
        rintro _ ⟨⟩
        have := noSignature_length (s.log ++ [entry])
        rwa [length_append, length_singleton] at this⟩
      stored := fun hstored => (hkeeps g).allocated.2 (hbacked.stored hstored) }
  · simp only [if_neg hversion]
    exact hbacked.concat (hkeeps g) rfl rfl

/-- A task stores what it has committed evidence for, and asks the host for memory. -/
theorem Accounted.store {writeSetDigest commitEvidence : Bytes} {evidenceVersion : ℕ}
    (hphase : task.phase = .committed snapshot writeSetDigest commitEvidence evidenceVersion) :
    Accounted cfg (runTask cfg s generation task .store) := by
  set s' := runTask cfg s generation task .store with hs'
  simp only [runTask, hphase] at hs'
  have hpending : s'.snapshotter.pendingSnapshots = Assoc.upsert generation (fun info => { info with
      commitEvidence := commitEvidence
      writeSetDigest := writeSetDigest
      snapshotDigest := cfg.sha256 snapshot
      serialisedSnapshot := snapshot }) .empty s.snapshotter.pendingSnapshots := by rw [hs', ← upsert_eq]; rfl
  have hhost : s'.toHost = s.toHost ++ [.snapshotAllocate task.version evidenceVersion snapshot.length generation] := by
    rw [hs']
    rfl
  have hlog : s'.log = s.log := by rw [hs']; rfl
  have hgenerated : s'.generated = s.generated := by rw [hs']; rfl
  have hlookup : s'.tasks.lookup generation = some { task with phase := .finished } := by
    rw [hs', lookup_setPhase, if_pos rfl]
    show (s.tasks.lookup generation).map _ = _
    rw [htask]
    rfl
  have hallocated : Allocated s' generation := (allocated_append hhost).2 (.inr (by simp [allocates]))
  have hkeeps : ∀ g, g ≠ generation → Keeps s s' g := by
    intro g hg
    refine ⟨by rw [hgenerated]; exact fun _ hp => hp, ?_, .inl ?_⟩
    · exact (allocated_append hhost).trans (or_iff_left (by simp [allocates, Ne.symm hg]))
    · rw [hs', lookup_setPhase, if_neg hg]
      rfl
  refine h.of_keeps (fun g => ?_) (by rw [hpending]; exact Assoc.sorted_upsert h.sorted) fun p hp => ?_
  · by_cases hg : g = generation
    · exact .inr ⟨_, hg ▸ hlookup, rfl⟩
    · exact .inl (hkeeps g hg)
  rw [hpending] at hp
  rcases Assoc.mem_upsert h.sorted hp with ⟨hne, hp⟩ | ⟨heq, hempty | ⟨info, hinfo, hp⟩⟩
  · refine (h.backed p hp).keeps (hkeeps p.1 hne) (fun _ _ _ hentry => by rw [hlog]; exact hentry) ?_
    rw [hlog]
    exact (h.backed p hp).signed
  · -- the snapshot was discarded, and an entry without evidence takes its place
    rw [hempty]
    exact backed_of_none rfl rfl rfl (by rintro ⟨⟩)
  · have hbacked := h.backed _ hinfo
    rw [hp, heq]
    exact {
      evidence := by
        intro idx hidx
        obtain ⟨entry, snapshot', hentry, hmem, hclaims, -, hcommitted⟩ := hbacked.evidence idx hidx
        obtain ⟨rfl, hwrite, hcommit⟩ := hcommitted task htask _ _ _ _ hphase
        refine ⟨entry, snapshot, by rw [hlog]; exact hentry, by rw [hgenerated]; exact hmem, hclaims,
          fun _ => ⟨hwrite, hcommit, rfl⟩, ?_⟩
        rw [hlookup]
        rintro _ ⟨⟩ _ _ _ _ ⟨⟩
      attested := fun _ => ⟨_, hlookup, rfl⟩
      signed := by
        rw [hlog]
        exact hbacked.signed
      stored := fun _ => hallocated }

theorem Accounted.runTask (x : TaskStep)
    (hx : Orderly s (.task generation x)) : Accounted cfg (runTask cfg s generation task x) := by
  have hfinish : task.phase.attested = false → Accounted cfg (setPhase s generation .finished) := fun hattested =>
    h.keeps (Keeps.setPhase (Keeps.of_eq rfl rfl rfl) rfl htask hattested _ (by rintro _ ⟨⟩)) (List.Sublist.refl _) rfl
  cases x with
  | reserve =>
    simp only [Snapshotter.runTask]
    split
    · rename_i hphase
      split_ifs
      · exact hfinish (by rw [hphase]; rfl)
      · exact h.reserve htask hphase _
    · exact h
  | serialise snapshot =>
    simp only [Snapshotter.runTask]
    split
    · rename_i hphase
      have hkeeps : ∀ g, Keeps s { s with generated := s.generated ++ [(task.version, snapshot)] } g :=
        fun g => ⟨fun _ hp => mem_append_left _ hp, Iff.rfl, .inl rfl⟩
      refine h.keeps (Keeps.setPhase hkeeps rfl htask (by rw [hphase]; rfl) _ ?_) (List.Sublist.refl _) rfl
      rintro _ ⟨⟩
      exact mem_append_right _ mem_cons_self
    · exact h
  | commitEvidence writeSetDigest commitEvidence replicated =>
    cases hphase : task.phase with
    | serialised snapshot => exact h.commitEvidence htask hphase _ _ _ (hx task htask)
    | _ =>
      simp only [Snapshotter.runTask, hphase]
      exact h
  | failEvidence =>
    simp only [Snapshotter.runTask]
    split
    · rename_i hphase
      exact hfinish (by rw [hphase]; rfl)
    · exact h
  | store =>
    cases hphase : task.phase with
    | committed snapshot writeSetDigest commitEvidence evidenceVersion => exact h.store htask hphase
    | _ =>
      simp only [Snapshotter.runTask, hphase]
      exact h

end

/-! ### Runs -/

theorem Accounted.writeSnapshot (h : Accounted cfg s) (size : ℕ) (hallocated : Allocated s generation) :
    Accounted cfg { s with snapshotter := writeSnapshot s.snapshotter size generation } := by
  unfold Snapshotter.writeSnapshot
  split
  · exact h
  · split_ifs
    · exact h.keeps (Keeps.of_eq rfl rfl rfl) filter_sublist rfl
    · have hkeeps : ∀ g, Keeps s { s with snapshotter := { s.snapshotter with
          pendingSnapshots := Assoc.modify generation (fun info => { info with isStored := true })
            s.snapshotter.pendingSnapshots } } g := Keeps.of_eq rfl rfl rfl
      refine h.of_keeps (fun g => .inl (hkeeps g)) ?_ fun p hp => ?_
      · refine pairwise_map.2 (h.sorted.imp fun {p q} hlt => ?_)
        split_ifs <;> exact hlt
      · have hmodify : p ∈ Assoc.modify generation (fun info => { info with isStored := true })
            s.snapshotter.pendingSnapshots := hp
        obtain ⟨p₀, hp₀, heq, ⟨-, rfl⟩ | ⟨hgeneration, hinfo⟩⟩ := Assoc.mem_modify hmodify
        · have hbacked := h.backed p hp₀
          exact hbacked.keeps (hkeeps p.1) (fun _ _ _ hentry => hentry) hbacked.signed
        · have hbacked := h.backed p₀ hp₀
          rw [← heq] at hbacked
          rw [hinfo]
          exact ⟨hbacked.evidence, hbacked.attested, hbacked.signed, fun _ => hgeneration ▸ hallocated⟩

theorem Accounted.next (h : Accounted cfg s) (x : Event) (hx : Feasible s x ∧ Orderly s x) :
    Accounted cfg (step cfg s x) := by
  refine Accounted.frame ?_ (frame_step cfg s x)
  obtain ⟨hfeasible, horderly⟩ := hx
  cases x with
  | append entry => exact h.applyEntry horderly
  | sign entry now =>
    refine Accounted.frame (h.applyEntry ?_) (frame_sign cfg s entry now)
    rw [show entry.writes.status = none from hfeasible]
    rintro _ ⟨⟩
  | compact v isPrimary now => exact (h.updated v).frame (frame_compact s v isPrimary now)
  | rollback idx => exact (h.rollback hfeasible horderly).1
  | task generation x =>
    simp only [perform]
    cases htask : s.tasks.lookup generation with
    | none => exact h
    | some task => exact h.runTask htask x horderly
  | writeSnapshot size generation => exact h.writeSnapshot size (allocated_iff.1 horderly)
  | setSnapshotGeneration enabled | requestSnapshot => exact h.frame ⟨rfl, rfl, rfl, rfl, .inl rfl⟩

theorem toHost_runTask (cfg : Config) (s : System) (generation : ℕ) (task : Task) (x : TaskStep) :
    (runTask cfg s generation task x).toHost = s.toHost ∨ ∃ version evidenceVersion size,
      (runTask cfg s generation task x).toHost = s.toHost ++
      [.snapshotAllocate version evidenceVersion size generation] := by
  unfold runTask
  cases x with
  | reserve =>
    left
    dsimp only
    split
    · split_ifs <;> rfl
    · rfl
  | store =>
    dsimp only
    split
    · exact .inr ⟨_, _, _, rfl⟩
    · exact .inl rfl
  | _ =>
    left
    dsimp only
    split <;> rfl

/-- Only commits release snapshots. -/
theorem sent_eq (cfg : Config) (s : System) (x : Event) :
    (∃ v isPrimary now, x = .compact v isPrimary now ∧ sent cfg s x = (updateIndices s.snapshotter v).2) ∨
    ∀ m ∈ sent cfg s x, ∃ version evidenceVersion size generation,
      m = .snapshotAllocate version evidenceVersion size generation := by
  have hhost := (frame_step cfg s x).toHost
  have hnone : (result (perform cfg s x)).toHost = s.toHost → ∀ m ∈ sent cfg s x,
      ∃ version evidenceVersion size generation,
      m = .snapshotAllocate version evidenceVersion size generation := by
    intro heq m hm
    rw [sent, hhost, heq, drop_length] at hm
    cases hm
  cases x with
  | compact v isPrimary now =>
    refine .inl ⟨v, isPrimary, now, rfl, ?_⟩
    have hupdated : (step cfg s (.compact v isPrimary now)).toHost = s.toHost ++ (updateIndices s.snapshotter v).2 :=
      hhost.trans (frame_compact s v isPrimary now).toHost
    rw [sent, hupdated, drop_left]
  | sign entry now => exact .inr (hnone (frame_sign cfg s entry now).toHost)
  | rollback idx =>
    refine .inr (hnone ?_)
    simp only [perform, rollbackStore]
    split_ifs <;> rfl
  | task generation x =>
    right
    simp only [perform] at hhost hnone
    cases htask : s.tasks.lookup generation with
    | none => exact hnone (by rw [htask]; rfl)
    | some task =>
      rw [htask] at hhost hnone
      rcases toHost_runTask cfg s generation task x with heq | ⟨version, evidenceVersion, size, heq⟩
      · exact hnone heq
      · intro m hm
        rw [sent, hhost.trans heq, drop_left] at hm
        exact ⟨version, evidenceVersion, size, generation, mem_singleton.1 hm⟩
  | _ => exact .inr (hnone rfl)

theorem Accounted.releases (h : Accounted cfg s) (x : Event) (hx : Feasible s x ∧ Orderly s x) : Releases cfg s x where
  proven := by
    intro version receipt hmem
    rcases sent_eq cfg s x with ⟨v, isPrimary, now, rfl, heq⟩ | hsent
    · rw [heq] at hmem
      exact ⟨v, isPrimary, now, rfl, h.proven hmem⟩
    · obtain ⟨_, _, _, _, hm⟩ := hsent _ hmem
      cases hm
  rolledBack := by
    rintro idx rfl
    have hframe := frame_step cfg s (.rollback idx)
    have hrefers : RefersUpTo idx (result (rollbackStore s idx)) := (h.rollback hx.1 hx.2).2
    intro p hp
    rw [hframe.pending] at hp
    rw [hframe.log]
    exact hrefers p hp

/-- A snapshot of version 1 is released with the signature at 3. -/
def inOrder : List Event :=
  [.requestSnapshot, .sign signature 0, .compact 1 true 1, .task 0 .reserve, .task 0 (.serialise [10]),
    .task 0 (.commitEvidence [20] [30] true), .task 0 .store, .sign signature 2, .sign signature 3, .rollback 3,
    .writeSnapshot 1 0, .compact 3 true 4]

def onRequest : Config := ⟨100, 0, 0, id⟩

/-- Of two generations, the second commits its evidence first, at 3. The evidence of the first is rolled back, and
another entry takes its index. -/
def overtaken : List Event :=
  [.requestSnapshot, .sign signature 0, .compact 1 true 1, .requestSnapshot, .sign signature 2, .compact 2 true 3,
    .task 0 .reserve, .task 1 .reserve, .task 0 (.serialise [10]), .task 1 (.serialise [11]),
    .task 1 (.commitEvidence [21] [31] true), .append ⟨[], [], none, .other⟩, .task 0 (.commitEvidence [20] [30] true),
    .task 0 .store, .writeSnapshot 1 0, .rollback 4, .append ⟨[], [], none, .other⟩, .sign signature 4]

end Ccf.Node.Snapshotter
