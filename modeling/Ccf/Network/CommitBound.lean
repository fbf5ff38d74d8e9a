import Ccf.Network.Safety

/-! # What a batch may commit

A follower commits up to the commit index of the leader, wherever its own log ends. As long as the log ends
with the batch, or has no signature between the end of the batch and that index, it commits nothing behind
the batch (`commitIdx_recvAppendEntries_le`). -/

namespace Ccf

namespace Aft

variable {a c b : Aft} {r : AppendEntries} {n : ℕ}

/-- A commit moves the commit index to a committable index at or below the given one, or not at all. -/
theorem commitIdx_commitIfPossible (a : Aft) (idx : ℕ) :
    (a.commitIfPossible idx).state.state.commitIdx = a.state.commitIdx ∨
      ∃ c ∈ a.state.committableIndices, c ≤ idx ∧ (a.commitIfPossible idx).state.state.commitIdx = c := by
  unfold commitIfPossible
  split_ifs
  · split
    · exact .inl rfl
    · rename_i c hc
      obtain ⟨hmem, hle⟩ := findHighestPossibleCommittableIndex_eq_some hc
      unfold commit
      split_ifs
      · exact .inl rfl
      · exact .inl rfl
      · exact .inr ⟨c, hmem, hle, (quiet_finishCommit (a.setCommit c) a.state.commitIdx c).commit_eq⟩
  · exact .inl rfl

/-- From `a` to `b` the commit index moves at most to `n`. -/
def CommitsUpTo (n : ℕ) (a b : Aft) : Prop := b.state.commitIdx ≤ max a.state.commitIdx n

theorem Quiet.commitsUpTo (h : Quiet a b) (n : ℕ) : CommitsUpTo n a b := h.commit_eq.le.trans (le_max_left _ _)

theorem CommitsUpTo.trans (hab : CommitsUpTo n a b) (hbc : CommitsUpTo n b c) : CommitsUpTo n a c :=
  le_trans hbc (max_le hab (le_max_right _ _))

theorem CommitsUpTo.andThen {o : Result} {f : Aft → Result} (ho : CommitsUpTo n a o.state)
    (hf : ∀ b, CommitsUpTo n b (f b).state) : CommitsUpTo n a (o.andThen f).state := by
  cases o with
  | ok b => exact ho.trans (hf b)
  | raised e b => exact ho

theorem commitsUpTo_commitIfPossible (a : Aft) (idx : ℕ) : CommitsUpTo idx a (a.commitIfPossible idx).state := by
  rcases commitIdx_commitIfPossible a idx with h | ⟨c, -, hle, h⟩
  · exact h.le.trans (le_max_left _ _)
  · exact h.le.trans (hle.trans (le_max_right _ _))

theorem commitsUpTo_executeEntry (a : Aft) (r : AppendEntries) (i : ℕ) (e : Entry) :
    CommitsUpTo r.leaderCommitIdx a (a.executeEntry r i e).state := by
  have hsignature : ∀ b : Aft, CommitsUpTo r.leaderCommitIdx b (b.executeSignature r i e).state := by
    intro b
    refine ((quiet_signRetirement b i).commitsUpTo _).andThen fun c => ?_
    split_ifs
    · exact CommitsUpTo.andThen (a := c) ((quiet_recordSignatureView (c.pushCommittable i) r e.view).commitsUpTo _)
        fun d => commitsUpTo_commitIfPossible d _
    · exact le_max_left _ _
  refine CommitsUpTo.andThen (a := a)
    ((quiet_configurationChangeHook { a with state.lastIdx := i } i e.tx).commitsUpTo _) fun b => ?_
  have hrecord : CommitsUpTo r.leaderCommitIdx b (b.recordEntry e) := by
    unfold recordEntry
    split_ifs
    · exact (quiet_startTickingIfNecessary b).commitsUpTo _
    · exact le_max_left _ _
  split_ifs
  · exact hrecord.trans (hsignature _)
  · exact hrecord

theorem executeAppendEntriesFinish_log (a : Aft) (r : AppendEntries) (source : NodeId) :
    (a.executeAppendEntriesFinish r source).state.state.commitIdx =
        (a.commitIfPossible r.leaderCommitIdx).state.state.commitIdx ∧
      (a.executeAppendEntriesFinish r source).state.state.lastIdx = a.state.lastIdx := by
  have hlast := (commitIfPossible_log a r.leaderCommitIdx).1
  unfold executeAppendEntriesFinish
  cases hb : a.commitIfPossible r.leaderCommitIdx with
  | raised err b =>
    rw [hb] at hlast
    exact ⟨rfl, hlast⟩
  | ok b =>
    have hsame : Quiet b ((b.recordBatchView r).andThen fun c => .ok (c.sendAppendEntriesResponseAck source r)).state :=
      (quiet_recordBatchView b r).andThen fun c => quiet_sendAppendEntriesResponse c _ _ _ _
    rw [hb] at hlast
    exact ⟨hsame.commit_eq, hsame.last_eq.trans hlast⟩

/-- The entries of a batch move the commit index at most to that of the leader, and the log ends with them. -/
theorem executeAppendEntriesSync_log (faults : ℕ → Fault) (source : NodeId) (r : AppendEntries) (entries : List Entry)
    (a : Aft) :
    let b := (executeAppendEntriesSync faults source r (entries.zipIdx (a.state.lastIdx + 1)) a).state
    CommitsUpTo r.leaderCommitIdx a b ∧ b.state.lastIdx ≤ a.state.lastIdx + entries.length := by
  induction entries generalizing a with
  | nil =>
    obtain ⟨hcommit, hlast⟩ := executeAppendEntriesFinish_log a r source
    exact ⟨hcommit.le.trans (commitsUpTo_commitIfPossible a _), hlast.le⟩
  | cons e rest ih =>
    simp only [List.zipIdx_cons, executeAppendEntriesSync, List.length_cons]
    split
    · exact ⟨le_max_left _ _, Nat.le_add_right _ _⟩
    · have hcommit := commitsUpTo_executeEntry a r (a.state.lastIdx + 1) e
      have hlast := (executeEntry_log (Nat.lt_succ_self a.state.lastIdx) r e).2
      cases hb : a.executeEntry r (a.state.lastIdx + 1) e with
      | raised err b =>
        rw [hb] at hcommit hlast
        exact ⟨hcommit, hlast.le.trans (by omega)⟩
      | ok b =>
        rw [hb, Outcome.state_ok] at hcommit hlast
        obtain ⟨hcommit', hlast'⟩ := ih b
        rw [hlast] at hcommit' hlast'
        exact ⟨hcommit.trans hcommit', hlast'.trans (by omega)⟩

theorem commitIdx_rollback (a : Aft) (idx : ℕ) : (a.rollback idx).state.commitIdx = a.state.commitIdx := by
  unfold rollback
  split_ifs
  · rfl
  · rw [rollbackConfigurations_state]
    exact (rollbackRetirement_log _ idx).2.2.1

theorem commitIdx_processEntries_le (hinv : IndexInv a.state) (faults : ℕ → Fault) (source : NodeId) (data : List Entry)
    (hview : a.state.currentView ≤ r.term) (hterm : a.getTermInternal r.prevIdx = r.prevTerm)
    (hpast : ¬a.CommitsPastBatch r) :
    (a.processEntries faults source r data).state.state.commitIdx ≤
      max a.state.commitIdx (min r.leaderCommitIdx r.idx) := by
  have hinv' := ((works_processEntries a faults source r data).advances hinv).1
  unfold processEntries at hinv' ⊢
  split_ifs at hinv' ⊢ with hcommit hlast
  · exact le_max_left _ _
  · exact le_max_left _ _
  · have hscan := @scanned faults source r.termOfIdx r.idx a r.prevIdx
      (not_lt.1 hcommit) (not_lt.1 hlast) data
    generalize scanEntries faults source r.termOfIdx (r.idx - r.prevIdx) (r.prevIdx + 1) data [] a = s at hscan hinv' ⊢
    have hcut : ∀ {k : ℕ} {b : Aft}, ScanBase a r.termOfIdx r.idx k b → b.state.commitIdx = a.state.commitIdx := by
      intro k b hbase
      cases hbase with
      | keep => rfl
      | cut => exact commitIdx_rollback a k
    cases hscan with
    | short | ignored => exact le_max_left _ _
    | unreadable _ _ _ _ hbase => exact (hcut hbase).le.trans (le_max_left _ _)
    | @collected k b hprev hk hmax hskip hbase hlen =>
      rcases lt_or_ge k r.idx with hlt | hge
      · -- the log ends with the batch
        have hend : b.state.lastIdx = k := by
          cases hbase with
          | keep h => omega
          | cut => exact cutAt_lastIdx ((not_lt.1 hcommit).trans hprev)
        obtain ⟨hle, hlast'⟩ := executeAppendEntriesSync_log faults source r
          ((data.drop (k - r.prevIdx)).take (r.idx - k)) b
        rw [hend] at hle hlast'
        rw [CommitsUpTo, hcut hbase] at hle
        have hlength := List.length_take_le (r.idx - k) (data.drop (k - r.prevIdx))
        have := hinv'.commit_le_last
        dsimp only at this ⊢
        omega
      · -- nothing is applied, and the log may go on after the batch
        cases hbase with
        | cut _ hidx => omega
        | keep =>
          rw [Nat.sub_eq_zero_of_le hge, List.take_zero, List.zipIdx_nil]
          show (a.executeAppendEntriesFinish r source).state.state.commitIdx ≤ _
          rw [(executeAppendEntriesFinish_log a r source).1]
          rcases commitIdx_commitIfPossible a r.leaderCommitIdx with h | ⟨c, hc, hle, h⟩
          · exact h.le.trans (le_max_left _ _)
          · rw [h]
            refine le_max_of_le_right (le_min hle (not_lt.1 fun hidx => hpast ?_))
            exact ⟨hview, hterm, not_lt.1 hcommit, hge.trans hk, fun j hj hle => hskip j hj (hle.trans hge),
              c, hc, hidx, hle⟩

/-- A batch commits nothing behind it, if the node has no signature there that the leader has committed. -/
theorem commitIdx_recvAppendEntries_le (hinv : IndexInv a.state) (draw : ℕ) (faults : ℕ → Fault) (source : NodeId)
    (data : List Entry) (hpast : ¬a.CommitsPastBatch r) :
    (a.recvAppendEntries draw faults source r data).state.state.commitIdx ≤
      max a.state.commitIdx (min r.leaderCommitIdx r.idx) := by
  have hcheck : ∀ b : Aft, IndexInv b.state → b.state.currentView ≤ r.term → ¬b.CommitsPastBatch r →
      (b.checkAppendEntries draw faults source r data).state.state.commitIdx ≤
        max b.state.commitIdx (min r.leaderCommitIdx r.idx) := by
    intro b hb hview hpast
    unfold checkAppendEntries
    split_ifs with hterm
    · exact le_max_left _ _
    · exact le_max_left _ _
    · exact commitIdx_processEntries_le (a := { b.restartElectionTimeout draw with leaderId := some source }) hb
        faults source data hview (not_not.1 hterm) hpast
  unfold recvAppendEntries
  split_ifs with hlate hfollow
  · exact le_max_left _ _
  · refine hcheck (a.becomeAwareOfNewTerm draw r.term) ?_ le_rfl fun h => hpast ⟨not_lt.1 hlate, h.2⟩
    exact (advances_becomeAwareOfNewTerm a draw (not_lt.1 hlate) hinv).1
  · exact hcheck a hinv (not_lt.1 hlate) hpast

end Aft

theorem World.indexInv_run (g : Genesis) (c : Setup) (xs : List Action) (i : NodeId) :
    Aft.IndexInv (((g.start c).run xs).nodes i).state :=
  Runs.exec_induction (P := fun _ _ => True) (I := fun w : World => Aft.IndexInv (w.nodes i).state)
    (fun w x h _ => (w.advances_step x i h).1) (World.indexInv_start i) (Runs.along_true _ _)

/-- **A follower commits nothing behind the batch**, nor beyond the commit index of the leader, if it has no signature
between the two behind the batch. -/
theorem commits_within_batch (g : Genesis) (c : Setup) (xs : List Action) (src dst : NodeId) (k draw : ℕ)
    (faults : ℕ → Fault) (r : AppendEntries) (data : List Entry) :
    let w := (g.start c).run xs
    (w.channels src dst)[k]? = some (.appendEntries r data) → ¬(w.nodes dst).CommitsPastBatch r →
      ((w.step (.deliver src dst k draw faults)).nodes dst).state.commitIdx ≤
        max (w.nodes dst).state.commitIdx (min r.leaderCommitIdx r.idx) := by
  intro w hmsg hpast
  rw [World.step_deliver hmsg, World.nodes_act]
  exact Aft.commitIdx_recvAppendEntries_le (World.indexInv_run g c xs dst) draw faults src data hpast

set_option maxRecDepth 10000

/-- Node 2 learns that the configuration of all nodes is committed. -/
theorem commits_within_batch_joining :
    let w := (service.start (timeouts [])).run ((joining.map Move.action).take 24)
    let w' := w.step (.deliver 0 2 0 0 fun _ => .none)
    (w.nodes 2).state.commitIdx = 2 ∧ (w'.nodes 2).state.commitIdx = 4 ∧
      (w'.nodes 2).state.commitIdx ≤ max (w.nodes 2).state.commitIdx (min 4 4) :=
  ⟨by decide +kernel, by decide +kernel, commits_within_batch service (timeouts [])
    ((joining.map Move.action).take 24) 0 2
    0 0 (fun _ => .none) ⟨4, 4, 2, 2, 4, 2⟩ [] (by decide +kernel) (by decide +kernel)⟩

section

open Move

/-- As in `overtaking`, but node 2 has heard of the leader of view 4 before the batch of old entries arrives. -/
def overtaken : List Move := overtaking.take 64 ++ .replicate 3 (drop 0 2) ++ [deliver 0 2, drop 0 2, drop 0 2]

end

/-- A short batch with a large commit index, from the leader of the view of the node, makes it commit entries behind
the batch. -/
theorem not_commits_within_batch :
    ¬∀ (g : Genesis) (c : Setup) (xs : List Action), (∀ x ∈ xs, x.Fifo ∧ x.Applies) →
      Runs.Along World.step World.Fits (g.start c) xs →
      ∀ (src dst : NodeId) (r : AppendEntries) (data : List Entry),
        let w := (g.start c).run xs
        let w' := w.step (.deliver src dst 0 0 fun _ => .none)
        (w.channels src dst)[0]? = some (.appendEntries r data) →
        (w.nodes src).isLeader → (w.nodes src).state.currentView = (w.nodes dst).state.currentView →
        r.term = (w.nodes dst).state.currentView →
          (w'.nodes dst).state.commitIdx ≤ max (w.nodes dst).state.commitIdx (min r.leaderCommitIdx r.idx) := by
  intro h
  have hend := h service (timeouts []) (overtaken.map Move.action) (Move.fifo_applies _) (by decide +kernel) 0 2
    ⟨5, 4, 4, 2, 8, 2⟩ [⟨2, dataTx 1000 1⟩]
  revert hend
  decide +kernel

end Ccf
