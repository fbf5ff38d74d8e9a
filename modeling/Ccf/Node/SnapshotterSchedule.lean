import Ccf.Lib.SortedList
import Ccf.Node.Snapshotter

/-! # Scheduling of snapshots

Commit points increase and are not rolled back (`Feasible`). If, whenever a primary commits, the last index recorded
up to the commit point has its snapshot or is not below what is compacted already (`Timely`), snapshots are scheduled
in time.

An index committed while the node was a backup stays the first one without a snapshot. When the node commits as a
primary again, its version may have been compacted away (`not_scheduled_asBackup`). -/

namespace Ccf.Node.Snapshotter

open List

/-! ### Pruning -/

variable {idx : ℕ} {l : List SnapshotEntry}

def Increasing (l : List SnapshotEntry) : Prop := l.Pairwise fun e e' => e.idx < e'.idx

/-- The last index up to `idx`. -/
def lastUpTo (idx : ℕ) (l : List SnapshotEntry) : Option SnapshotEntry := (l.filter (·.idx ≤ idx)).getLast?

theorem pruneIndices_suffix (idx : ℕ) (pending : PendingSnapshots) (l : List SnapshotEntry) (times : List (ℕ × ℕ)) :
    (pruneIndices idx pending l times).1 <:+ l := by
  induction l generalizing times with
  | nil => exact suffix_rfl
  | cons e l ih =>
    cases l with
    | nil => exact suffix_rfl
    | cons e' rest =>
      unfold pruneIndices
      by_cases he' : e'.idx ≤ idx
      · rewrite [if_pos he']
        exact (ih _).trans (suffix_cons _ _)
      · rewrite [if_neg he']
        exact suffix_rfl

/-- Pruning stops at the last index up to `idx`. -/
theorem head?_pruneIndices (pending : PendingSnapshots) (times : List (ℕ × ℕ)) (hl : Increasing l)
    (hfront : ∀ e ∈ l.head?, e.idx ≤ idx) : (pruneIndices idx pending l times).1.head? = lastUpTo idx l := by
  induction l generalizing times with
  | nil => rfl
  | cons e l ih =>
    have he : e.idx ≤ idx := hfront e rfl
    obtain ⟨hlt, hrest⟩ := pairwise_cons.1 hl
    cases l with
    | nil => simp [pruneIndices, lastUpTo, he]
    | cons e' rest =>
      unfold pruneIndices
      by_cases he' : e'.idx ≤ idx
      · rw [if_pos he', ih _ hrest (by rintro _ ⟨⟩; exact he')]
        simp [lastUpTo, he, he', getLast?_cons_cons]
      · have hnone : (e' :: rest).filter (·.idx ≤ idx) = [] := by
          refine filter_eq_nil_iff.2 fun x hx => ?_
          rcases mem_cons.1 hx with rfl | hx
          · simpa using he'
          · have := (pairwise_cons.1 hrest).1 x hx
            simp only [decide_eq_true_eq]
            omega
        rw [if_neg he', lastUpTo, filter_cons_of_pos (by simpa using he), hnone]
        rfl

/-! ### The contract -/

/-- The version of the snapshot status that an entry writes. -/
def Writes.status : Writes → Option ℕ
  | .evidence version _ _ => some version
  | .signature _ _ | .other => none

/-- Commit points increase, what is compacted is not rolled back, and entries that other nodes write carry the
status of a snapshot at an earlier version. -/
def Feasible (s : System) : Event → Prop
  | .append entry => ∀ version ∈ entry.writes.status, version ≤ s.log.length
  | .sign entry _ => entry.writes.status = none
  | .compact v _ _ => s.compacted < v
  | .rollback idx => s.compacted ≤ idx
  | _ => True

/-- A commit point is an entry of the log, and where a primary commits, the snapshot at the last index up to the
commit point has been taken or can still be taken. -/
def Timely (s : System) : Event → Prop
  | .compact v isPrimary _ => v ≤ s.log.length ∧
      (isPrimary = true → ∀ e ∈ lastUpTo v s.snapshotter.nextSnapshotIndices,
        e.done = true ∨ e.idx = 0 ∨ s.compacted ≤ e.idx)
  | _ => True

instance (s : System) (x : Event) : Decidable (Feasible s x) := by cases x <;> unfold Feasible <;> infer_instance

instance (s : System) (x : Event) : Decidable (Timely s x) := by cases x <;> unfold Timely <;> infer_instance

structure Scheduled (s : System) : Prop where
  noFailure : s.failure = none
  nonempty : s.snapshotter.nextSnapshotIndices ≠ []
  increasing : Increasing s.snapshotter.nextSnapshotIndices
  front : ∀ e ∈ s.snapshotter.nextSnapshotIndices.head?, e.idx ≤ s.compacted
  between : ∀ t ∈ s.taken, t.compacted ≤ t.idx ∧ t.idx ≤ t.current
  once : (s.taken.map (·.idx)).Nodup

/-! ### The invariant -/

/-- What holds in every state reached: indices are those of entries, statuses are of earlier versions, and snapshots
have been taken up to what is compacted. -/
structure Inv (s : System) : Prop extends Scheduled s where
  indices : ∀ e ∈ s.snapshotter.nextSnapshotIndices, e.idx ≤ s.log.length
  compacted : s.compacted ≤ s.log.length
  last : s.snapshotter.lastSnapshotIdx ≤ s.compacted
  statuses : ∀ (i : ℕ) (entry : Entry), s.log[i]? = some entry → ∀ version ∈ entry.writes.status, version ≤ i
  tasks : ∀ p ∈ s.tasks, p.2.version ≤ s.compacted
  taken : ∀ t ∈ s.taken, t.idx ≤ s.compacted
  done : ∀ t ∈ s.taken, ∀ e ∈ s.snapshotter.nextSnapshotIndices, e.idx = t.idx → e.done = true

theorem inv_init (now : ℕ) : Inv (.init now) where
  noFailure := rfl
  nonempty := by rintro ⟨⟩
  increasing := pairwise_singleton _ _
  front := by rintro _ ⟨⟩; exact Nat.le_refl 0
  between := by rintro t ⟨⟩
  once := nodup_nil
  indices := by
    intro e he
    rw [mem_singleton.1 he]
    exact Nat.le_refl 0
  compacted := Nat.le_refl 0
  last := Nat.le_refl 0
  statuses := by simp [System.init]
  tasks := by rintro p ⟨⟩
  taken := by rintro t ⟨⟩
  done := by rintro t ⟨⟩

/-- The part of the state that scheduling depends on. -/
structure Same (s s' : System) : Prop where
  failure : s'.failure = s.failure
  indices : s'.snapshotter.nextSnapshotIndices = s.snapshotter.nextSnapshotIndices
  compacted : s'.compacted = s.compacted
  last : s'.snapshotter.lastSnapshotIdx = s.snapshotter.lastSnapshotIdx
  taken : s'.taken = s.taken
  tasks : ∀ p ∈ s'.tasks, ∃ p₀ ∈ s.tasks, p.2.version = p₀.2.version

variable {s s' : System}

section
variable (h : Inv s)
include h

/-- Steps that only add to the log. -/
theorem Inv.grow (hsame : Same s s') (added : List Entry) (hlog : s'.log = s.log ++ added)
    (hstatus : ∀ (i : ℕ) (entry : Entry), added[i]? = some entry → ∀ version ∈ entry.writes.status,
      version ≤ s.log.length + i) :
    Inv s' := by
  have hle : s.log.length ≤ s'.log.length := by
    rw [hlog, length_append]
    exact Nat.le_add_right _ _
  exact {
    noFailure := hsame.failure.trans h.noFailure
    nonempty := hsame.indices ▸ h.nonempty
    increasing := hsame.indices ▸ h.increasing
    front := by rw [hsame.indices, hsame.compacted]; exact h.front
    between := hsame.taken ▸ h.between
    once := hsame.taken ▸ h.once
    indices := by
      rw [hsame.indices]
      exact fun e he => le_trans (h.indices e he) hle
    compacted := by
      rw [hsame.compacted]
      exact le_trans h.compacted hle
    last := by rw [hsame.last, hsame.compacted]; exact h.last
    statuses := by
      intro i entry hi version hversion
      rw [hlog] at hi
      rcases lt_or_ge i s.log.length with hlt | hge
      · rw [getElem?_append_left hlt] at hi
        exact h.statuses i entry hi version hversion
      · rw [getElem?_append_right hge] at hi
        have := hstatus _ entry hi version hversion
        omega
    tasks := by
      intro p hp
      obtain ⟨p₀, hp₀, hversion⟩ := hsame.tasks p hp
      rw [hversion, hsame.compacted]
      exact h.tasks p₀ hp₀
    taken := by rw [hsame.taken, hsame.compacted]; exact h.taken
    done := by rw [hsame.taken, hsame.indices]; exact h.done }

theorem Inv.same (hsame : Same s s') (hlog : s'.log = s.log) : Inv s' :=
  h.grow hsame [] (by rw [hlog, append_nil]) (by simp)

end

/-! ### Steps that do not schedule -/

variable {entry : Entry}

theorem Same.refl (s : System) : Same s s := ⟨rfl, rfl, rfl, rfl, rfl, fun p hp => ⟨p, hp, rfl⟩⟩

theorem same_applyEntry (s : System) (entry : Entry) : Same s (applyEntry s entry) := by
  obtain ⟨_, _, _, writes⟩ := entry
  cases writes <;> exact { Same.refl s with }

theorem Same.setPhase (h : Same s s') (generation : ℕ) (phase : TaskPhase) : Same s (setPhase s' generation phase) := by
  refine ⟨h.failure, h.indices, h.compacted, h.last, h.taken, fun p hp => ?_⟩
  obtain ⟨p', hp', -, hp | hp⟩ :=
    Assoc.mem_modify (show p ∈ Assoc.modify generation (fun task => { task with phase := phase }) s'.tasks from hp)
  · obtain ⟨p₀, hp₀, hversion⟩ := h.tasks p' hp'
    exact ⟨p₀, hp₀, by rw [hp.2, hversion]⟩
  · obtain ⟨p₀, hp₀, hversion⟩ := h.tasks p' hp'
    exact ⟨p₀, hp₀, by rw [hp.2]; exact hversion⟩

theorem Same.setPending (h : Same s s') (generation : ℕ) (f : SnapshotInfo → SnapshotInfo) :
    Same s (setPending s' generation f) :=
  { h with }

theorem Inv.applyEntry (h : Inv s) (hentry : ∀ version ∈ entry.writes.status, version ≤ s.log.length) :
    Inv (applyEntry s entry) := by
  refine h.grow (same_applyEntry s entry) [entry] rfl fun i x hi version hversion => ?_
  cases i with
  | zero =>
    cases hi
    exact hentry version hversion
  | succ i => cases hi

theorem Inv.runTask (h : Inv s) (cfg : Config) {generation : ℕ} {task : Task}
    (htask : s.tasks.lookup generation = some task) (x : TaskStep) : Inv (runTask cfg s generation task x) := by
  have hsame := Same.refl s
  cases x with
  | reserve =>
    simp only [Snapshotter.runTask]
    split
    · split_ifs
      · exact h.same (hsame.setPhase _ _) rfl
      · exact h.same ((hsame.setPending _ _).setPhase _ _) rfl
    · exact h
  | serialise snapshot | store =>
    simp only [Snapshotter.runTask]
    split
    · refine h.same (Same.setPhase ?_ _ _) rfl
      exact { hsame with }
    · exact h
  | commitEvidence writeSetDigest commitEvidence replicated =>
    simp only [Snapshotter.runTask]
    split
    · -- the snapshot of the task was taken at a version that has been compacted since
      have hversion := h.tasks _ (Assoc.mem_of_lookup htask)
      refine (h.applyEntry ?_).same ((Same.refl _).setPhase _ _) rfl
      rintro version ⟨⟩
      exact le_trans hversion h.compacted
    · exact h
  | failEvidence =>
    simp only [Snapshotter.runTask]
    split
    · exact h.same (hsame.setPhase _ _) rfl
    · exact h

/-! ### Signatures -/

theorem recordCommittable_cases (cfg : Config) {s : State} (now : ℕ) (forced : Bool)
    (hne : s.nextSnapshotIndices ≠ []) (hlt : ∀ e ∈ s.nextSnapshotIndices, e.idx < idx) :
    recordCommittable cfg s idx now forced = .ok (s, false) ∨
    ∃ f times, recordCommittable cfg s idx now forced = .ok ({ s with
      nextSnapshotIndices := s.nextSnapshotIndices ++ [⟨idx, f, false⟩]
      scheduledSnapshotTimes := times }, true) := by
  have hback := hlt _ (getLast_mem hne)
  simp only [recordCommittable, getLast?_eq_getLast_of_ne_nil hne, if_neg (not_lt.2 (le_of_lt hback))]
  split_ifs
  · exact .inr ⟨_, _, rfl⟩
  · exact .inl rfl

theorem Inv.record (h : Inv s) (hidx : ∀ e ∈ s.snapshotter.nextSnapshotIndices, e.idx < idx)
    (hcompacted : s.compacted < idx) (hlog : idx ≤ s.log.length) (forced : Bool) (times : List (ℕ × ℕ)) :
    Inv { s with snapshotter := { s.snapshotter with
      nextSnapshotIndices := s.snapshotter.nextSnapshotIndices ++ [⟨idx, forced, false⟩]
      scheduledSnapshotTimes := times } } :=
  { h with
    nonempty := append_ne_nil_of_right_ne_nil _ (cons_ne_nil _ _)
    increasing := by
      refine pairwise_append.2 ⟨h.increasing, pairwise_singleton _ _, fun e he e' he' => ?_⟩
      rw [mem_singleton.1 he']
      exact hidx e he
    front := by
      rw [head?_append_of_ne_nil _ h.nonempty]
      exact h.front
    indices := forall_mem_append.2 ⟨h.indices, forall_mem_singleton.2 hlog⟩
    done := by
      refine fun t ht => forall_mem_append.2 ⟨h.done t ht, forall_mem_singleton.2 fun heq => ?_⟩
      exact absurd heq (Nat.ne_of_gt (Nat.lt_of_le_of_lt (h.taken t ht) hcompacted)) }

theorem Inv.sign (h : Inv s) (cfg : Config) (now : ℕ) (hentry : entry.writes.status = none) :
    ∃ s', sign cfg s entry now = .ok s' ∧ Inv s' := by
  have happlied : Inv (Snapshotter.applyEntry s entry) := h.applyEntry (by rw [hentry]; rintro _ ⟨⟩)
  have hsame := same_applyEntry s entry
  have hlength : (Snapshotter.applyEntry s entry).log.length = s.log.length + 1 := by
    simp [Snapshotter.applyEntry]
  have hlt : ∀ e ∈ (Snapshotter.applyEntry s entry).snapshotter.nextSnapshotIndices,
      e.idx < (Snapshotter.applyEntry s entry).log.length := by
    intro e he
    rw [hsame.indices] at he
    rw [hlength]
    exact Nat.lt_succ_of_le (h.indices e he)
  have hcompacted : (Snapshotter.applyEntry s entry).compacted < (Snapshotter.applyEntry s entry).log.length := by
    rw [hsame.compacted, hlength]
    exact Nat.lt_succ_of_le h.compacted
  unfold Snapshotter.sign
  rcases recordCommittable_cases cfg now (Snapshotter.applyEntry s entry).snapshotAtNextSignature
      happlied.nonempty hlt with
    hrecord | ⟨forced, times, hrecord⟩
  · simp only [hrecord]
    exact ⟨_, rfl, happlied.same (Same.refl _) rfl⟩
  · simp only [hrecord]
    refine ⟨_, rfl, ?_⟩
    exact (happlied.record hlt hcompacted le_rfl forced times).same
      { Same.refl _ with } rfl

/-! ### Commits -/

section
variable {v b : ℕ} {next : SnapshotEntry} {rest : List SnapshotEntry}

theorem foldl_globalHook_indices (entries : List Entry) (st : State) :
    (entries.foldl (fun st entry => globalHook st entry.writes) st).nextSnapshotIndices = st.nextSnapshotIndices := by
  induction entries generalizing st with
  | nil => rfl
  | cons entry entries ih =>
    rw [foldl_cons, ih]
    cases entry.writes <;> rfl

/-- After the hooks the last snapshot is the one before or that of a status that was committed. -/
theorem foldl_globalHook_last (entries : List Entry) (st : State) (hlast : st.lastSnapshotIdx ≤ b)
    (hentries : ∀ entry ∈ entries, ∀ version ∈ entry.writes.status, version ≤ b) :
    (entries.foldl (fun st entry => globalHook st entry.writes) st).lastSnapshotIdx ≤ b := by
  induction entries generalizing st with
  | nil => exact hlast
  | cons entry entries ih =>
    rw [foldl_cons]
    refine ih _ ?_ fun entry hentry => hentries entry (mem_cons_of_mem _ hentry)
    have hstatus := hentries entry mem_cons_self
    cases hwrites : entry.writes with
    | signature coseSig tree => exact hlast
    | other => exact hlast
    | evidence version hash timestamp => exact hstatus version (by rw [hwrites]; rfl)

/-- The state after `update_indices`. -/
def updated (s : System) (v : ℕ) : System :=
  { s with
    snapshotter := (updateIndices s.snapshotter v).1
    toHost := s.toHost ++ (updateIndices s.snapshotter v).2 }

/-- The state after a snapshot has been taken at the first index. -/
def snapshotTaken (s : System) (next : SnapshotEntry) (rest : List SnapshotEntry) (now : ℕ) : System :=
  { s with
    snapshotter := { s.snapshotter with
      scheduledSnapshotTimes := (scheduledTime s.snapshotter next.idx now).1
      nextSnapshotIndices := { next with done := true } :: rest
      generationCount := s.snapshotter.generationCount + 1 }
    tasks := s.tasks ++
      [(s.snapshotter.generationCount, ⟨next.idx, (scheduledTime s.snapshotter next.idx now).2, .scheduled⟩)]
    taken := s.taken ++ [⟨next.idx, s.compacted, s.log.length⟩] }

theorem takeSnapshot_eq (now : ℕ) (hcompacted : s.compacted ≤ next.idx) (hcurrent : next.idx ≤ s.log.length) :
    takeSnapshot s next rest now = .ok (snapshotTaken s next rest now) := by
  simp only [takeSnapshot, scheduleSnapshot, if_neg (not_lt.2 hcompacted), if_neg (not_lt.2 hcurrent)]
  rfl

section
variable {isPrimary : Bool} (now : ℕ)
  (hnext : (updateIndices s.snapshotter v).1.nextSnapshotIndices = next :: rest)
  (hlast : (updateIndices s.snapshotter v).1.lastSnapshotIdx ≤ v) (hv : next.idx ≤ v)
include hnext hlast hv

theorem commit_skip (hgenerate : (!next.done && (updateIndices s.snapshotter v).1.snapshotGenerationEnabled &&
      isPrimary && decide (next.idx ≠ 0)) = false) :
    commit s v isPrimary now = .ok (setLastSnapshotIdx (updated s v) next.idx) := by
  simp only [commit, hnext, if_neg (not_lt.2 hlast), if_neg (not_lt.2 hv), hgenerate, Bool.false_eq_true,
    if_false]
  rfl

theorem commit_take (hdone : next.done = false)
    (henabled : (updateIndices s.snapshotter v).1.snapshotGenerationEnabled = true) (hprimary : isPrimary = true)
    (hzero : next.idx ≠ 0) (hcompacted : s.compacted ≤ next.idx) (hcurrent : next.idx ≤ s.log.length) :
    commit s v isPrimary now =
      .ok (setLastSnapshotIdx (snapshotTaken (updated s v) next rest now) next.idx) := by
  have htake : takeSnapshot (updated s v) next rest now = .ok (snapshotTaken (updated s v) next rest now) :=
    takeSnapshot_eq now hcompacted hcurrent
  simp only [commit, hnext, if_neg (not_lt.2 hlast), if_neg (not_lt.2 hv), hdone, henabled, hprimary, hzero,
    Bool.not_false, Bool.and_self, decide_true, ne_eq, not_false_eq_true, if_true]
  exact congrArg (Except.map (setLastSnapshotIdx · next.idx)) htake

end

theorem Inv.compactedTo (h : Inv s) {last : ℕ} (hv : s.compacted ≤ v) (hlog : v ≤ s.log.length)
    (hsuffix : next :: rest <:+ s.snapshotter.nextSnapshotIndices) (hnext : next.idx ≤ v) (hlast : last ≤ v) :
    Inv { s with
      snapshotter := { s.snapshotter with nextSnapshotIndices := next :: rest, lastSnapshotIdx := last }
      compacted := v } :=
  { h with
    nonempty := cons_ne_nil _ _
    increasing := h.increasing.sublist hsuffix.sublist
    front := by rintro _ ⟨⟩; exact hnext
    indices := fun e he => h.indices e (hsuffix.mem he)
    compacted := hlog
    last := hlast
    tasks := fun p hp => le_trans (h.tasks p hp) hv
    taken := fun t ht => le_trans (h.taken t ht) hv
    done := fun t ht e he => h.done t ht e (hsuffix.mem he) }

theorem Inv.take (h : Inv s) (hindices : s.snapshotter.nextSnapshotIndices = next :: rest) (hdone : next.done = false)
    {compacted : ℕ} (hcompacted : compacted ≤ next.idx) (generation timestamp : ℕ) :
    Inv { s with
      snapshotter := { s.snapshotter with nextSnapshotIndices := { next with done := true } :: rest }
      tasks := s.tasks ++ [(generation, ⟨next.idx, timestamp, .scheduled⟩)]
      taken := s.taken ++ [⟨next.idx, compacted, s.log.length⟩] } := by
  have hincreasing := h.increasing
  have hidx := h.indices
  have hfront := h.front
  have hmarked := h.done
  rw [hindices] at hincreasing hidx hfront hmarked
  obtain ⟨hrest, hincreasing⟩ := pairwise_cons.1 hincreasing
  obtain ⟨hlog, hidx⟩ := forall_mem_cons.1 hidx
  have hfront : next.idx ≤ s.compacted := hfront next rfl
  have hnew : ∀ t ∈ s.taken, t.idx ≠ next.idx := by
    intro t ht heq
    have := hmarked t ht next mem_cons_self heq.symm
    rw [hdone] at this
    cases this
  exact { h with
    nonempty := cons_ne_nil _ _
    increasing := pairwise_cons.2 ⟨hrest, hincreasing⟩
    front := by rintro _ ⟨⟩; exact hfront
    between := forall_mem_append.2 ⟨h.between, forall_mem_singleton.2 ⟨hcompacted, hlog⟩⟩
    once := by
      rw [map_append]
      refine nodup_append.2 ⟨h.once, nodup_singleton _, ?_⟩
      rintro a ha _ hb rfl
      obtain ⟨t, ht, heq⟩ := mem_map.1 ha
      rw [mem_singleton.1 hb] at heq
      exact hnew t ht heq
    indices := forall_mem_cons.2 ⟨hlog, hidx⟩
    tasks := forall_mem_append.2 ⟨h.tasks, forall_mem_singleton.2 hfront⟩
    taken := forall_mem_append.2 ⟨h.taken, forall_mem_singleton.2 hfront⟩
    done := by
      refine fun t ht => forall_mem_cons.2 ⟨fun _ => rfl, fun e he heq => ?_⟩
      rcases mem_append.1 ht with ht | ht
      · exact hmarked t ht e (mem_cons_of_mem _ he) heq
      · rw [mem_singleton.1 ht] at heq
        exact absurd heq (Nat.ne_of_gt (hrest e he)) }

/-- The first index after pruning. -/
theorem Inv.exists_next (h : Inv s) (hv : s.compacted ≤ v) : ∃ next rest,
    (updateIndices s.snapshotter v).1.nextSnapshotIndices = next :: rest ∧
      next :: rest <:+ s.snapshotter.nextSnapshotIndices ∧
        lastUpTo v s.snapshotter.nextSnapshotIndices = some next := by
  have hhead := head?_pruneIndices s.snapshotter.pendingSnapshots s.snapshotter.scheduledSnapshotTimes h.increasing
    fun e he => le_trans (h.front e he) hv
  have hsuffix := pruneIndices_suffix v s.snapshotter.pendingSnapshots s.snapshotter.nextSnapshotIndices
    s.snapshotter.scheduledSnapshotTimes
  change (updateIndices s.snapshotter v).1.nextSnapshotIndices.head? = _ at hhead
  change (updateIndices s.snapshotter v).1.nextSnapshotIndices <:+ _ at hsuffix
  cases hl : (updateIndices s.snapshotter v).1.nextSnapshotIndices with
  | cons next rest =>
    rw [hl] at hhead hsuffix
    exact ⟨next, rest, rfl, hsuffix, hhead.symm⟩
  | nil =>
    -- the first index before pruning is one up to the commit point
    rw [hl] at hhead
    obtain ⟨e, l, he⟩ := exists_cons_of_ne_nil h.nonempty
    have hfront : e.idx ≤ v := le_trans (h.front e (by rw [he]; rfl)) hv
    have hnone := getLast?_eq_none_iff.1 hhead.symm
    rw [he, filter_cons_of_pos (by simpa using hfront)] at hnone
    cases hnone

theorem Inv.compact (h : Inv s) {isPrimary : Bool} (now : ℕ) (hv : s.compacted < v)
    (htimely : Timely s (.compact v isPrimary now)) : ∃ s', compact s v isPrimary now = .ok s' ∧ Inv s' := by
  obtain ⟨hlog, hdue⟩ := htimely
  obtain ⟨next, rest, hnext, hsuffix, hlast⟩ := h.exists_next (le_of_lt hv)
  have hnextv : next.idx ≤ v := by
    have := mem_filter.1 (mem_of_getLast? hlast)
    simpa using this.2
  have hlast' : (updateIndices s.snapshotter v).1.lastSnapshotIdx ≤ v := le_trans h.last (le_of_lt hv)
  have hstatus : ∀ entry ∈ (s.log.take v).drop s.compacted, ∀ version ∈ entry.writes.status, version ≤ v := by
    intro entry hentry version hversion
    obtain ⟨i, hi, rfl⟩ := mem_iff_getElem.1 (mem_of_mem_drop hentry)
    rw [length_take] at hi
    have := h.statuses i _ (getElem?_eq_getElem (by omega)) version (by simpa using hversion)
    omega
  have hcompacted : ∀ s' : System, s'.log = s.log → (if v > s'.log.length then s' else Snapshotter.compacted s' v) =
      Snapshotter.compacted s' v :=
    fun s' hs' => if_neg (by rw [hs']; omega)
  by_cases hgenerate : (!next.done && (updateIndices s.snapshotter v).1.snapshotGenerationEnabled && isPrimary &&
      decide (next.idx ≠ 0)) = true
  · simp only [Bool.and_eq_true, Bool.not_eq_true', decide_eq_true_eq] at hgenerate
    obtain ⟨⟨⟨hdone, henabled⟩, hprimary⟩, hzero⟩ := hgenerate
    have hle : s.compacted ≤ next.idx := by
      rcases hdue hprimary next hlast with hd | hz | hle
      · rw [hdone] at hd
        cases hd
      · exact absurd hz hzero
      · exact hle
    refine ⟨_, (congrArg (Except.map _) (commit_take now hnext hlast' hnextv hdone henabled hprimary hzero hle
      (h.indices next (hsuffix.mem mem_cons_self)))).trans (congrArg Except.ok (hcompacted _ rfl)), ?_⟩
    exact ((h.compactedTo (le_of_lt hv) hlog hsuffix hnextv (foldl_globalHook_last _ _ hnextv hstatus)).take rfl hdone
      hle _ _).same ⟨rfl, foldl_globalHook_indices _ _, rfl, rfl, rfl, fun p hp => ⟨p, hp, rfl⟩⟩ rfl
  · refine ⟨_, (congrArg (Except.map _) (commit_skip now hnext hlast' hnextv (Bool.eq_false_iff.2 hgenerate))).trans
      (congrArg Except.ok (hcompacted _ rfl)), ?_⟩
    exact (h.compactedTo (le_of_lt hv) hlog hsuffix hnextv (foldl_globalHook_last _ _ hnextv hstatus)).same
      ⟨rfl, (foldl_globalHook_indices _ _).trans hnext, rfl, rfl, rfl, fun p hp => ⟨p, hp, rfl⟩⟩ rfl

end

/-! ### Rollback -/

/-- An increasing list loses the indices beyond `idx`. -/
theorem reverse_dropWhile_reverse (hl : Increasing l) :
    (l.reverse.dropWhile (idx < ·.idx)).reverse = l.filter (·.idx ≤ idx) := by
  have hnot : (fun e : SnapshotEntry => decide (idx < e.idx)) = fun e => !decide (e.idx ≤ idx) := by
    funext e
    simp only [← decide_not, Nat.not_le]
  rw [hnot]
  refine rdropWhile_eq_filter (hl.imp fun {e e'} hlt hle => ?_)
  exact decide_eq_true (le_trans (le_of_lt hlt) (of_decide_eq_true hle))

theorem Inv.rollback (h : Inv s) (hidx : s.compacted ≤ idx) : ∃ s', rollbackStore s idx = .ok s' ∧ Inv s' := by
  refine ⟨_, if_neg (not_lt.2 hidx), ?_⟩
  -- the first index is committed and stays
  have hindices : (Snapshotter.rollback s.snapshotter idx).nextSnapshotIndices =
      s.snapshotter.nextSnapshotIndices.filter (·.idx ≤ idx) ∧
      (s.snapshotter.nextSnapshotIndices.filter (·.idx ≤ idx)).head? = s.snapshotter.nextSnapshotIndices.head? := by
    obtain ⟨e, l, he⟩ := exists_cons_of_ne_nil h.nonempty
    have hfront : e.idx ≤ idx := le_trans (h.front e (by rw [he]; rfl)) hidx
    have hcons : s.snapshotter.nextSnapshotIndices.filter (·.idx ≤ idx) = e :: l.filter (·.idx ≤ idx) := by
      rw [he, filter_cons_of_pos (by simpa using hfront)]
    refine ⟨?_, by rw [hcons, he]; rfl⟩
    simp only [Snapshotter.rollback, reverse_dropWhile_reverse h.increasing]
    rw [if_neg (by rw [hcons]; exact cons_ne_nil _ _)]
  obtain ⟨hindices, hhead⟩ := hindices
  exact { h with
    nonempty := by
      show (Snapshotter.rollback s.snapshotter idx).nextSnapshotIndices ≠ []
      intro hnil
      rw [hindices] at hnil
      rw [hnil] at hhead
      exact h.nonempty (head?_eq_none_iff.1 hhead.symm)
    increasing := by
      show Increasing (Snapshotter.rollback s.snapshotter idx).nextSnapshotIndices
      rw [hindices]
      exact h.increasing.sublist filter_sublist
    front := by
      show ∀ e ∈ (Snapshotter.rollback s.snapshotter idx).nextSnapshotIndices.head?, e.idx ≤ s.compacted
      rw [hindices, hhead]
      exact h.front
    indices := by
      show ∀ e ∈ (Snapshotter.rollback s.snapshotter idx).nextSnapshotIndices, e.idx ≤ (s.log.take idx).length
      rw [hindices, length_take]
      intro e he
      obtain ⟨he, hle⟩ := mem_filter.1 he
      exact Nat.le_min.2 ⟨of_decide_eq_true hle, h.indices e he⟩
    compacted := by
      show s.compacted ≤ (s.log.take idx).length
      rw [length_take]
      exact Nat.le_min.2 ⟨hidx, h.compacted⟩
    statuses := by
      intro i entry hi version hversion
      have hi' : (s.log.take idx)[i]? = some entry := hi
      rw [getElem?_take] at hi'
      split_ifs at hi'
      exact h.statuses i entry hi' version hversion
    done := by
      show ∀ t ∈ s.taken, ∀ e ∈ (Snapshotter.rollback s.snapshotter idx).nextSnapshotIndices, _
      rw [hindices]
      exact fun t ht e he => h.done t ht e (mem_of_mem_filter he) }

/-! ### Runs -/

theorem Inv.perform (h : Inv s) (cfg : Config) (x : Event) (hx : Feasible s x ∧ Timely s x) :
    ∃ s', perform cfg s x = .ok s' ∧ Inv s' := by
  cases x with
  | append entry => exact ⟨_, rfl, h.applyEntry hx.1⟩
  | sign entry now => exact h.sign cfg now hx.1
  | compact v isPrimary now => exact h.compact now hx.1 hx.2
  | rollback idx => exact h.rollback hx.1
  | task generation x =>
    simp only [Snapshotter.perform]
    cases htask : s.tasks.lookup generation with
    | none => exact ⟨s, rfl, h⟩
    | some task => exact ⟨_, rfl, h.runTask cfg htask x⟩
  | writeSnapshot size generation =>
    refine ⟨_, rfl, h.same ?_ rfl⟩
    have hwrite : ∀ st : State, (writeSnapshot st size generation).nextSnapshotIndices = st.nextSnapshotIndices ∧
        (writeSnapshot st size generation).lastSnapshotIdx = st.lastSnapshotIdx := by
      intro st
      unfold writeSnapshot
      split
      · exact ⟨rfl, rfl⟩
      · split_ifs <;> exact ⟨rfl, rfl⟩
    exact { Same.refl s with indices := (hwrite _).1, last := (hwrite _).2 }
  | setSnapshotGeneration | requestSnapshot => exact ⟨_, rfl, h.same { Same.refl s with } rfl⟩

theorem Inv.next (h : Inv s) (cfg : Config) (x : Event) (hx : Feasible s x ∧ Timely s x) : Inv (step cfg s x) := by
  obtain ⟨s', hs', hinv⟩ := h.perform cfg x hx
  simp only [step, hs']
  exact hinv

/-- **Snapshots are scheduled in time**: the snapshotter does not fail, its indices increase from one that is
committed, and snapshots are taken once for each index, of states the store has. -/
theorem scheduled_of_timely (cfg : Config) (now : ℕ) (events : List Event)
    (hfeasible : Runs.Along (step cfg) Feasible (.init now) events)
    (htimely : Runs.Along (step cfg) Timely (.init now) events) : Scheduled (run cfg now events) :=
  (Runs.exec_induction (I := Inv) (fun _ x h hx => h.next cfg x hx) (inv_init now)
    (Runs.along_and.2 ⟨hfeasible, htimely⟩)).toScheduled

/-- A snapshot is due at every second signature. -/
def everySecond : Config := ⟨2, 0, 0, id⟩

def signature : Entry := ⟨[], [], none, .signature [1] [2]⟩

/-- The second signature is committed by the primary that recorded it. -/
def asPrimary : List Event :=
  [.sign signature 0, .sign signature 1, .sign signature 2, .compact 2 true 3, .rollback 2, .sign signature 4,
    .sign signature 5, .compact 4 true 6]

theorem scheduled_of_timely_asPrimary :
    (run everySecond 0 asPrimary).taken = [⟨2, 0, 3⟩, ⟨4, 2, 4⟩] ∧ Scheduled (run everySecond 0 asPrimary) :=
  ⟨by decide, scheduled_of_timely everySecond 0 asPrimary (by decide) (by decide)⟩

/-- The second signature and another one are committed by a backup, and a third one by a primary again. -/
def asBackup : List Event :=
  [.sign signature 0, .sign signature 1, .compact 2 false 2, .append signature, .compact 3 false 3, .append signature,
    .compact 4 true 4]

/-- The snapshot is asked for at version 2, when 3 is compacted. -/
theorem not_scheduled_asBackup :
    Runs.Along (step everySecond) Feasible (.init 0) asBackup ∧
      (run everySecond 0 asBackup).failure = some .snapshotEarlierThanCompacted ∧
      ¬Scheduled (run everySecond 0 asBackup) := by
  have hfailure : (run everySecond 0 asBackup).failure = some .snapshotEarlierThanCompacted := by decide
  refine ⟨by decide, hfailure, fun h => ?_⟩
  have hnone := h.noFailure
  cases hnone

end Ccf.Node.Snapshotter
