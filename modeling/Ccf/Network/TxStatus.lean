import Ccf.Aft.TxStatus
import Ccf.Network.Safety

/-! # What the status of a transaction says

A status query compares a transaction identifier with the view a node has for its seqno and with the last committed
identifier of the node. It takes the lock of the node twice (`Consensus::evaluate_tx_status`), so the two are read at
two points of a run: `status_of_settled_query` is about queries whose first read still holds at the second. -/

namespace Ccf

namespace Aft

/-- `get_view` of a sequence number. -/
def getView (a : Aft) (idx : ℕ) : ℕ := a.getTermInternal idx

def getCommittedTxid (a : Aft) : ℕ × ℕ := (a.getTermInternal a.state.commitIdx, a.state.commitIdx)

/-- `Consensus::evaluate_tx_status`, with the node `a` at the first read and the node `b` at the second. -/
def evaluateTxStatus (a b : Aft) (targetView targetSeqno : ℕ) : Except String TxStatus :=
  let localView := a.getView targetSeqno
  let (committedView, committedSeqno) := b.getCommittedTxid
  Ccf.evaluateTxStatus targetView targetSeqno localView committedView committedSeqno

/-- The transaction `view.seqno` is in the committed log of the node. -/
def HasCommitted (a : Aft) (view seqno : ℕ) : Prop :=
  seqno ≤ a.state.commitIdx ∧ ∃ e, entryAt a.ledger seqno = some e ∧ e.view = view

/-- A sequence number that is committed at the second read had its view at the first. -/
def Settled (a b : Aft) (seqno : ℕ) : Prop := seqno ≤ b.state.commitIdx → a.getView seqno = b.getView seqno

end Aft

namespace World

variable {g : Genesis} {c : Setup} {xs : List Action} {i : NodeId} {seqno n k : ℕ}

set_option maxRecDepth 10000

/-! ### What holds at every point of a run -/

theorem commitIdx_le_lastIdx (n : ℕ) (i : NodeId) : (((g.start c).run (xs.take n)).nodes i).state.commitIdx ≤
      (((g.start c).run (xs.take n)).nodes i).state.lastIdx := by
  have hinv : ∀ i, Aft.IndexInv (((g.start c).run (xs.take n)).nodes i).state :=
    Runs.exec_induction (P := fun _ _ => True) (I := fun w : World => ∀ i, Aft.IndexInv (w.nodes i).state)
      (fun w x h _ i => (advances_step w x i (h i)).1) indexInv_start (Runs.along_true _ _)
  exact (hinv i).commit_le_last

/-- The primary has committed the first transaction when the service is started. -/
theorem hasCommitted_start : ((g.start c).nodes g.primary).HasCommitted startingViewChange 1 := by
  obtain ⟨size, count, batchSize, window, -, hnode⟩ := g.nodes_start c
  rw [hnode]
  exact ⟨Nat.le_of_ble_eq_true rfl, _, rfl, rfl⟩

/-! ### Committed identifiers -/

section committed

variable (hsafe : (g.start c).StateMachineSafe xs) {v v' : ℕ} {j : NodeId}

include hsafe in
/-- No two nodes ever commit a sequence number with two views. -/
theorem view_unique (ha : (((g.start c).run (xs.take n)).nodes i).HasCommitted v seqno)
    (hb : (((g.start c).run (xs.take k)).nodes j).HasCommitted v' seqno) : v = v' := by
  obtain ⟨hle, e, he, rfl⟩ := ha
  obtain ⟨hle', e', he', rfl⟩ := hb
  rw [← entryAt_take hle] at he
  rw [← entryAt_take hle'] at he'
  have hsame : ∀ {l l' : List Entry} {f f' : Entry}, l <+: l' → entryAt l seqno = some f →
      entryAt l' seqno = some f' → f = f' := by
    rintro l l' f f' ⟨t, rfl⟩ hf hf'
    rw [entryAt_append_left (entryAt_eq_some hf).2, hf] at hf'
    exact Option.some.inj hf'
  rcases hsafe n k i j with h | h
  · rw [hsame h he he']
  · rw [hsame h he' he]

variable (hviews : (g.start c).ViewsRecorded xs)

include hviews in
/-- The view a node has for a sequence number it has committed is that of its entry. -/
theorem hasCommitted_getView (hpos : 1 ≤ seqno)
    (hle : seqno ≤ (((g.start c).run (xs.take n)).nodes i).state.commitIdx) :
    (((g.start c).run (xs.take n)).nodes i).HasCommitted
      ((((g.start c).run (xs.take n)).nodes i).getView seqno) seqno := by
  have hlast := hle.trans (commitIdx_le_lastIdx n i)
  obtain ⟨e, he, hview⟩ := (hviews n i).2 seqno hpos hlast
  refine ⟨hle, e, he, ?_⟩
  rw [Aft.getView, Aft.getTermInternal, if_neg (by omega), hview]

theorem getView_mono {a : Aft} {p q : ℕ} (hpq : p ≤ q) (hq : q ≤ a.state.lastIdx) : a.getView p ≤ a.getView q := by
  rw [Aft.getView, Aft.getView, Aft.getTermInternal, Aft.getTermInternal, if_neg (by omega), if_neg (by omega)]
  exact a.state.viewHistory.viewAt_mono hpq

include hsafe hviews in
/-- Every node knows the view of what it has committed, since all logs begin with the first transaction of the
service. -/
theorem getView_ne_unknown (hpos : 1 ≤ seqno)
    (hle : seqno ≤ (((g.start c).run (xs.take n)).nodes i).state.commitIdx) :
    (((g.start c).run (xs.take n)).nodes i).getView seqno ≠ viewUnknown := by
  have hfirst : (((g.start c).run (xs.take 0)).nodes g.primary).HasCommitted startingViewChange 1 :=
    hasCommitted_start
  have hone := view_unique hsafe hfirst (hasCommitted_getView hviews le_rfl (hpos.trans hle))
  have hmono := getView_mono hpos (hle.trans (commitIdx_le_lastIdx n i))
  have hview : startingViewChange = 2 := rfl
  have hunknown : viewUnknown = 0 := rfl
  omega

end committed

/-! ### What the answers mean -/

/-- The answer of a query for `view.seqno` on node `i` that reads the view at point `n` of the run and the
committed identifier at point `k`. -/
def query (w : World) (xs : List Action) (i : NodeId) (n k view seqno : ℕ) : Except String TxStatus :=
  ((w.run (xs.take n)).nodes i).evaluateTxStatus ((w.run (xs.take k)).nodes i) view seqno

/-- The transaction is never committed by any node. -/
def NeverCommitted (w : World) (xs : List Action) (view seqno : ℕ) : Prop :=
  ∀ (m : ℕ) (j : NodeId), ¬((w.run (xs.take m)).nodes j).HasCommitted view seqno

/-- The answer is given, and true. -/
def Truthful (w : World) (xs : List Action) (i : NodeId) (n k view seqno : ℕ) : Prop :=
  ∃ status, w.query xs i n k view seqno = .ok status ∧
    (status = .committed → ((w.run (xs.take k)).nodes i).HasCommitted view seqno) ∧
    (status = .invalid → w.NeverCommitted xs view seqno)

/-- Both reads of the query give the same view for a committed sequence number. -/
def SettledQuery (w : World) (xs : List Action) (i : NodeId) (n k seqno : ℕ) : Prop :=
  ((w.run (xs.take n)).nodes i).Settled ((w.run (xs.take k)).nodes i) seqno

theorem truthful_of_settled (hsafe : (g.start c).StateMachineSafe xs) (hviews : (g.start c).ViewsRecorded xs)
    (view : ℕ) (hpos : 1 ≤ seqno) (hsettled : (g.start c).SettledQuery xs i n k seqno) :
    (g.start c).Truthful xs i n k view seqno := by
  by_cases hle : seqno ≤ (((g.start c).run (xs.take k)).nodes i).state.commitIdx
  · have hknown := getView_ne_unknown hsafe hviews hpos hle
    have hentry := hasCommitted_getView hviews hpos hle
    have hsame := hsettled hle
    refine ⟨_, evaluateTxStatus_committed hle (hsame ▸ hknown), ?_⟩
    rw [hsame]
    split_ifs with hmatch
    · exact ⟨fun _ => hmatch ▸ hentry, nofun⟩
    · exact ⟨nofun, fun _ m j hj => hmatch (view_unique hsafe hentry hj)⟩
  · refine ⟨_, evaluateTxStatus_ahead (by omega), ?_⟩
    split_ifs with hmatch hlater
    · exact ⟨nofun, nofun⟩
    · refine ⟨nofun, fun _ m j hj => ?_⟩
      -- a log with the transaction would go back from the view that is committed below it
      have hview : (((g.start c).run (xs.take k)).nodes i).getView
          (((g.start c).run (xs.take k)).nodes i).state.commitIdx ≤
          (((g.start c).run (xs.take m)).nodes j).getView seqno := by
        rcases Nat.eq_zero_or_pos (((g.start c).run (xs.take k)).nodes i).state.commitIdx with hzero | hcommit
        · rw [hzero, Aft.getView, Aft.getTermInternal, if_neg (Nat.not_lt_zero _), (hviews k i).1]
          exact Nat.zero_le _
        · have hprefix : (((g.start c).run (xs.take k)).nodes i).state.commitIdx ≤
              (((g.start c).run (xs.take m)).nodes j).state.commitIdx := by
            have := hj.1
            omega
          rw [view_unique hsafe (hasCommitted_getView hviews hcommit le_rfl)
            (hasCommitted_getView hviews hcommit hprefix)]
          exact getView_mono (by omega) (hj.1.trans (commitIdx_le_lastIdx m j))
      have hsame := view_unique hsafe (hasCommitted_getView hviews hpos hj.1) hj
      have hcommitted : (((g.start c).run (xs.take k)).nodes i).getView
          (((g.start c).run (xs.take k)).nodes i).state.commitIdx > view := hlater
      omega
    · exact ⟨nofun, nofun⟩

/-- Node 0 has written entry 5 in view 2; node 1, elected in view 3, replaces it and commits its own, and node 0
learns of it. -/
def replacing : List Move :=
  joining ++ [.write 0 [(5, dataTx 1000 1)] 2, .tick 1 100, .deliver 1 2, .deliver 2 1,
      .write 1 [(5, dataTx 10 2), (6, signTx)] 3, .tick 1 10] ++
    .replicate 3 (.deliver 1 2) ++ .replicate 3 (.deliver 2 1) ++ [.tick 1 10] ++ .replicate 5 (.deliver 1 0)

theorem permitted_replacing : Runs.Along World.step (World.Permitted faithfulMode) (service.start (timeouts []))
    (replacing.map Move.action) :=
  permitted_faithful (by decide +kernel)

end World

open World

/-- **Transaction status.**  Where state machine safety holds and view histories are right, a query for a positive
sequence number whose two reads agree never throws, calls a transaction committed only if the node has committed it,
and invalid only if no node ever commits it. -/
theorem status_of_settled_query (g : Genesis) (c : Setup) (xs : List Action)
    (hsafe : (g.start c).StateMachineSafe xs) (hviews : (g.start c).ViewsRecorded xs) (view seqno : ℕ)
    (hpos : 1 ≤ seqno) :
    (∀ i n k, n ≤ k → (g.start c).SettledQuery xs i n k seqno → (g.start c).Truthful xs i n k view seqno) ∧
    ∀ i n k i' n' k', n ≤ k → n' ≤ k' → (g.start c).SettledQuery xs i n k seqno →
      (g.start c).SettledQuery xs i' n' k' seqno →
      ¬((g.start c).query xs i n k view seqno = .ok .committed ∧
        (g.start c).query xs i' n' k' view seqno = .ok .invalid) := by
  refine ⟨fun i n k _ hsettled => truthful_of_settled hsafe hviews view hpos hsettled, ?_⟩
  rintro i n k i' n' k' - - hsettled hsettled' ⟨hcommitted, hinvalid⟩
  obtain ⟨s, hs, hhas, -⟩ := truthful_of_settled hsafe hviews view hpos hsettled
  obtain ⟨s', hs', -, hnever⟩ := truthful_of_settled hsafe hviews view hpos hsettled'
  rw [hcommitted] at hs
  rw [hinvalid] at hs'
  cases hs
  cases hs'
  exact hnever rfl k i (hhas rfl)

/-- Node 0 is asked for its own transaction 2.5, which is gone, after it has learnt of the commit. -/
theorem status_of_settled_query_replacing :
    (service.start (timeouts [])).query (replacing.map Move.action) 0 45 45 2 5 = .ok .invalid ∧
      (service.start (timeouts [])).Truthful (replacing.map Move.action) 0 45 45 2 5 :=
  ⟨by decide +kernel, (status_of_settled_query service (timeouts []) (replacing.map Move.action)
    (stateMachineSafe_of_permitted permitted_replacing) (viewsRecorded_of_permitted permitted_replacing) 2 5
    (by decide)).1 0 45 45 le_rfl fun _ => rfl⟩

/-- Node 0 reads its own view for entry 5, loses the entry, and then reads that another entry 5 is committed: it
calls the transaction that is committed invalid. -/
theorem not_status_of_query :
    ¬∀ (g : Genesis) (c : Setup) (xs : List Action), (∀ x ∈ xs, x.Fifo ∧ x.Applies) →
      Runs.Along World.step World.Fits (g.start c) xs → (g.start c).StateMachineSafe xs →
      (g.start c).ViewsRecorded xs → ∀ view seqno, 1 ≤ seqno → ∀ i n k, n ≤ k →
        (g.start c).Truthful xs i n k view seqno := by
  intro h
  obtain ⟨s, hs, -, hnever⟩ :=
    h service (timeouts []) (replacing.map Move.action) (Move.fifo_applies _) (by decide +kernel)
    (stateMachineSafe_of_permitted permitted_replacing) (viewsRecorded_of_permitted permitted_replacing) 3 5
    (by decide) 0 40 45 (by decide)
  have hinvalid : (service.start (timeouts [])).query (replacing.map Move.action) 0 40 45 3 5 = .ok .invalid := by
    decide +kernel
  rw [hinvalid] at hs
  cases hs
  refine hnever rfl 45 0 ⟨by decide +kernel, ⟨3, dataTx 10 2⟩, by decide +kernel, rfl⟩

end Ccf
