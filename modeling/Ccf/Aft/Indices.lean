import Ccf.Aft.Batch
import Ccf.Lib.Runs

/-! # The log indices of a node

`IndexInv` is the invariant of `last_idx`, `commit_idx` and `committable_indices`; `Evolves a b` says that views and
commits only move forwards and that the committed part of the ledger is kept. The two are proved together
(`Advances`), exceptions and faulty entries included.

Almost everything a node does within a view also leaves its view, its vote and the votes it has granted alone, and
changes its role at most by giving it up (`Steady`). What does both is `Works`; what does not even touch the log is
`Quiet`. -/

namespace Ccf.Aft

open Outcome List

structure IndexInv (s : State) : Prop where
  commit_le_last : s.commitIdx ≤ s.lastIdx
  sorted : s.committableIndices.Pairwise (· < ·)
  mem_range : ∀ i ∈ s.committableIndices, s.commitIdx < i ∧ i ≤ s.lastIdx
  pushed : ∀ i ∈ s.committableIndices, i ∈ s.committableHistory
  commit_pushed : s.commitIdx = 0 ∨ s.commitIdx ∈ s.committableHistory

/-- From `a` to `b` neither the view nor the commit goes back, and no committed entry is removed. -/
structure Evolves (a b : Aft) : Prop where
  view_le : a.state.currentView ≤ b.state.currentView
  commit_le : a.state.commitIdx ≤ b.state.commitIdx
  committed_kept : a.ledger.take a.state.commitIdx <+: b.ledger

theorem Evolves.refl (a : Aft) : Evolves a a := ⟨le_rfl, le_rfl, take_prefix _ _⟩

variable {a b c : Aft} {α : Type*}

theorem Evolves.trans (hab : Evolves a b) (hbc : Evolves b c) : Evolves a c where
  view_le := hab.view_le.trans hbc.view_le
  commit_le := hab.commit_le.trans hbc.commit_le
  committed_kept := by
    refine .trans ?_ hbc.committed_kept
    refine prefix_take_iff.2 ⟨hab.committed_kept, ?_⟩
    exact (length_take_le _ _).trans hab.commit_le

/-- `b` keeps the index invariant of `a` and has moved forwards from it. -/
def Advances (a b : Aft) : Prop := IndexInv a.state → IndexInv b.state ∧ Evolves a b

theorem Advances.refl (a : Aft) : Advances a a := fun h => ⟨h, Evolves.refl a⟩

theorem Advances.trans (hab : Advances a b) (hbc : Advances b c) : Advances a c := by
  intro h
  obtain ⟨hb, eab⟩ := hab h
  obtain ⟨hc, ebc⟩ := hbc hb
  exact ⟨hc, eab.trans ebc⟩

/-- The fields the invariant is about. -/
structure SameLog (a b : Aft) : Prop where
  view_eq : b.state.currentView = a.state.currentView
  last_eq : b.state.lastIdx = a.state.lastIdx
  commit_eq : b.state.commitIdx = a.state.commitIdx
  committable_eq : b.state.committableIndices = a.state.committableIndices
  history_eq : b.state.committableHistory = a.state.committableHistory
  ledger_eq : b.ledger = a.ledger

namespace SameLog

theorem refl (a : Aft) : SameLog a a := ⟨rfl, rfl, rfl, rfl, rfl, rfl⟩

theorem trans (hab : SameLog a b) (hbc : SameLog b c) : SameLog a c where
  view_eq := hbc.view_eq.trans hab.view_eq
  last_eq := hbc.last_eq.trans hab.last_eq
  commit_eq := hbc.commit_eq.trans hab.commit_eq
  committable_eq := hbc.committable_eq.trans hab.committable_eq
  history_eq := hbc.history_eq.trans hab.history_eq
  ledger_eq := hbc.ledger_eq.trans hab.ledger_eq

theorem of_talks (h : Talks a b) : SameLog a b where
  view_eq := by rw [h.state_eq]
  last_eq := by rw [h.state_eq]
  commit_eq := by rw [h.state_eq]
  committable_eq := by rw [h.state_eq]
  history_eq := by rw [h.state_eq]
  ledger_eq := h.ledger_eq

theorem indexInv (h : SameLog a b) (hi : IndexInv a.state) : IndexInv b.state where
  commit_le_last := by rw [h.commit_eq, h.last_eq]; exact hi.commit_le_last
  sorted := by rw [h.committable_eq]; exact hi.sorted
  mem_range := by rw [h.commit_eq, h.last_eq, h.committable_eq]; exact hi.mem_range
  pushed := by rw [h.committable_eq, h.history_eq]; exact hi.pushed
  commit_pushed := by rw [h.commit_eq, h.history_eq]; exact hi.commit_pushed

theorem advances (h : SameLog a b) : Advances a b := fun hi =>
  ⟨h.indexInv hi, h.view_eq.ge, h.commit_eq.ge, by rw [h.ledger_eq]; exact take_prefix _ _⟩

end SameLog

/-! ### Votes and roles -/

/-- Whether a message grants a regular vote. -/
def isGrant : Msg → Bool
  | .requestVoteResponse r .regularVote => r.voteGranted
  | _ => false

/-- The messages in the outbox that grant a regular vote. -/
def grants (a : Aft) : List (NodeId × Msg) := a.outbox.filter fun p => isGrant p.2

structure SameVote (a b : Aft) : Prop where
  view_eq : b.state.currentView = a.state.currentView
  voted_eq : b.votedFor = a.votedFor
  grants_eq : b.grants = a.grants

/-- The votes stay the same, and the role is kept or given up. -/
structure Steady (a b : Aft) : Prop extends SameVote a b where
  nodeId_eq : b.state.nodeId = a.state.nodeId
  role : b.state.leadershipState = a.state.leadershipState ∨ b.state.leadershipState = .none

namespace Steady

theorem refl (a : Aft) : Steady a a := ⟨⟨rfl, rfl, rfl⟩, rfl, .inl rfl⟩

theorem trans (hab : Steady a b) (hbc : Steady b c) : Steady a c where
  view_eq := hbc.view_eq.trans hab.view_eq
  voted_eq := hbc.voted_eq.trans hab.voted_eq
  grants_eq := hbc.grants_eq.trans hab.grants_eq
  nodeId_eq := hbc.nodeId_eq.trans hab.nodeId_eq
  role := by
    rcases hbc.role with h | h
    · rw [h]
      exact hab.role
    · exact .inr h

theorem foldl {f : Aft → α → Aft} (hf : ∀ b x, Steady b (f b x)) (l : List α) (a : Aft) :
    Steady a (l.foldl f a) :=
  l.foldlRecOn f (refl a) fun b hb x _ => hb.trans (hf b x)

end Steady

variable (a) (dst : NodeId) {m : Msg}

theorem grants_send (m : Msg) : (a.send dst m).grants = a.grants ++ if isGrant m then [(dst, m)] else [] := by
  unfold grants send
  rw [filter_append, filter_singleton]
  cases isGrant m <;> rfl

theorem steady_send (h : isGrant m = false) : Steady a (a.send dst m) := by
  refine ⟨⟨rfl, rfl, ?_⟩, rfl, .inl rfl⟩
  rw [grants_send, h]
  exact append_nil _

theorem steady_sendAppendEntriesRange (startIdx endIdx : ℕ) :
    Steady a (a.sendAppendEntriesRange dst startIdx endIdx) := by
  have hsend := steady_send a dst (m := a.appendEntriesFor startIdx endIdx) rfl
  unfold sendAppendEntriesRange
  split_ifs
  · exact .refl a
  · exact ⟨⟨rfl, rfl, hsend.grants_eq⟩, rfl, .inl rfl⟩
  · exact .refl a

theorem steady_sendAppendEntries (startIdx : ℕ) : Steady a (a.sendAppendEntries dst startIdx) :=
  sendAppendEntries_rel Steady.refl Steady.trans (fun a => steady_sendAppendEntriesRange a dst) a startIdx

theorem steady_createAndRemoveNodeState : Steady a a.createAndRemoveNodeState := by
  unfold createAndRemoveNodeState
  refine .foldl (fun b n => ?_) _ _
  unfold addNodeState
  dsimp only
  split_ifs
  · exact .refl b
  · exact .refl b
  · refine .trans ?_ (steady_sendAppendEntries _ _ _)
    exact ⟨⟨rfl, rfl, rfl⟩, rfl, .inl rfl⟩
  · exact ⟨⟨rfl, rfl, rfl⟩, rfl, .inl rfl⟩

variable {a} {f : Aft → Result} {o : Result}

/-! ### What leaves the log and the votes alone -/

/-- Neither the log nor a vote is touched. -/
structure Quiet (a b : Aft) : Prop extends SameLog a b, Steady a b

namespace Quiet

theorem refl (a : Aft) : Quiet a a := ⟨SameLog.refl a, rfl, rfl, rfl, .inl rfl⟩

theorem trans (hab : Quiet a b) (hbc : Quiet b c) : Quiet a c :=
  have hsteady := hab.toSteady.trans hbc.toSteady
  ⟨hab.toSameLog.trans hbc.toSameLog, hsteady.voted_eq, hsteady.grants_eq, hsteady.nodeId_eq, hsteady.role⟩

theorem of_talks (ht : Talks a b) (hs : Steady a b) : Quiet a b :=
  ⟨SameLog.of_talks ht, hs.voted_eq, hs.grants_eq, hs.nodeId_eq, hs.role⟩

/-- Sequencing of two parts that leave the log alone. -/
theorem andThen (ho : Quiet a o.state) (hf : ∀ b, Quiet b (f b).state) :
    Quiet a (o.andThen f).state := by
  cases o with
  | ok b => exact ho.trans (hf b)
  | raised e b => exact ho

theorem forEach {f : Aft → α → Result} (hf : ∀ b x, Quiet b (f b x).state) (l : List α) (a : Aft) :
    Quiet a (forEach f l a).state := by
  induction l generalizing a with
  | nil => exact refl a
  | cons x l ih => exact andThen (hf a x) ih

end Quiet

variable (a)

theorem quiet_sendAppendEntriesToAll : Quiet a a.sendAppendEntriesToAll := by
  refine .of_talks (talks_sendAppendEntriesToAll a) ?_
  unfold sendAppendEntriesToAll
  exact .foldl (fun b (n : NodeId × NodeState) => steady_sendAppendEntries b n.1 (n.2.sentIdx + 1)) _ _

theorem quiet_createAndRemoveNodeState : Quiet a a.createAndRemoveNodeState :=
  .of_talks (talks_createAndRemoveNodeState a) (steady_createAndRemoveNodeState a)

theorem quiet_sendProposeRequestVote : Quiet a a.sendProposeRequestVote := by
  refine .of_talks (talks_sendProposeRequestVote a) ?_
  unfold sendProposeRequestVote
  split
  · exact .refl a
  · exact steady_send a _ rfl

theorem quiet_sendAppendEntriesResponse (success : Bool) (term idx : ℕ) :
    Quiet a (a.sendAppendEntriesResponse dst success term idx) :=
  .of_talks (talks_send a _ _) (steady_send a dst rfl)

variable (idx : ℕ)

theorem quiet_becomeRetired (phase : RetirementPhase) : Quiet a (a.becomeRetired idx phase).state := by
  cases phase with
  | ordered =>
    unfold becomeRetired
    dsimp only
    split_ifs
    · exact .refl a
    · exact { Quiet.refl _ with }
  | signed =>
    unfold becomeRetired
    dsimp only
    split
    · exact .refl a
    · split_ifs
      · exact .refl a
      · exact { Quiet.refl _ with }
  | completed => exact { Quiet.refl _ with }
  | retiredCommitted =>
    unfold becomeRetired
    dsimp only
    split_ifs
    · refine (quiet_sendProposeRequestVote a).trans ?_
      exact { Quiet.refl _ with role := .inr rfl }
    · exact { Quiet.refl _ with role := .inr rfl }

variable {a}

theorem quiet_setRetiredCommittedNode (seqno : ℕ) (a : Aft) (n : NodeId) :
    Quiet a (setRetiredCommittedNode seqno a n).state := by
  unfold setRetiredCommittedNode
  split_ifs
  · refine .trans ?_ (quiet_becomeRetired _ seqno .retiredCommitted)
    exact { Quiet.refl _ with }
  · exact .refl a
  · exact { Quiet.refl _ with }

variable (a)

theorem quiet_compactStore (start idx : ℕ) : Quiet a (a.compactStore start idx).state := by
  unfold compactStore
  refine .forEach (fun b e => ?_) _ a
  unfold setRetiredCommitted
  exact .forEach (quiet_setRetiredCommittedNode _) _ b

theorem quiet_addConfiguration (conf : List NodeId) : Quiet a (a.addConfiguration idx conf).state := by
  unfold addConfiguration
  refine .andThen ?_ fun b => ?_
  · split_ifs
    · exact quiet_becomeRetired a idx .ordered
    · exact .refl a
  · split_ifs
    · refine .trans ?_ (quiet_createAndRemoveNodeState _)
      exact { Quiet.refl _ with }
    · exact .refl b

theorem quiet_configurationChangeHook (version : ℕ) (t : Tx) :
    Quiet a (a.configurationChangeHook version t).state := by
  unfold configurationChangeHook
  split_ifs
  · exact quiet_addConfiguration a version _
  · exact .refl a

theorem quiet_completeRetirement : Quiet a (a.completeRetirement idx).state := by
  unfold completeRetirement
  split_ifs
  · split
    · exact .refl a
    · split_ifs
      · exact quiet_becomeRetired a idx .completed
      · exact .refl a
  · exact .refl a

theorem quiet_discardCommittedConfigurations : Quiet a (a.discardCommittedConfigurations idx) := by
  unfold discardCommittedConfigurations
  dsimp only
  split_ifs
  · refine .trans ?_ (quiet_createAndRemoveNodeState _)
    exact { Quiet.refl _ with }
  · exact { Quiet.refl _ with }

theorem quiet_rollbackConfigurations : Quiet a (a.rollbackConfigurations idx) := by
  unfold rollbackConfigurations
  dsimp only
  split_ifs
  · refine .trans ?_ (quiet_createAndRemoveNodeState _)
    exact { Quiet.refl _ with }
  · exact { Quiet.refl _ with }

theorem quiet_updateViewHistory (idx view : ℕ) : Quiet a (a.updateViewHistory idx view).state := by
  unfold updateViewHistory
  split
  · exact .refl a
  · exact { Quiet.refl _ with }

theorem quiet_startTickingIfNecessary : Quiet a a.startTickingIfNecessary := by
  unfold startTickingIfNecessary
  split_ifs
  · exact { Quiet.refl _ with }
  · exact .refl a

theorem quiet_flushIfFull : Quiet a a.flushIfFull := by
  unfold flushIfFull
  split_ifs
  · refine .trans ?_ (quiet_sendAppendEntriesToAll _)
    exact { Quiet.refl _ with }
  · exact .refl a

theorem quiet_periodicSend : Quiet a a.periodicSend := by
  unfold periodicSend
  split_ifs
  · refine .trans ?_ (quiet_sendAppendEntriesToAll _)
    exact { Quiet.refl _ with }
  · exact .refl a

variable {a} {l : List ℕ}

/-! ### Commit and rollback -/

/-- What a node does within its view: the log moves forwards, and the votes stay as they are. -/
structure Works (a b : Aft) : Prop where
  advances : Advances a b
  steady : Steady a b

namespace Works

theorem refl (a : Aft) : Works a a := ⟨Advances.refl a, Steady.refl a⟩

theorem trans (hab : Works a b) (hbc : Works b c) : Works a c :=
  ⟨hab.advances.trans hbc.advances, hab.steady.trans hbc.steady⟩

theorem andThen (ho : Works a o.state) (hf : ∀ b, o = .ok b → Works b (f b).state) :
    Works a (o.andThen f).state := by
  cases o with
  | ok b => exact ho.trans (hf b rfl)
  | raised e b => exact ho

end Works

theorem Quiet.works (h : Quiet a b) : Works a b := ⟨h.toSameLog.advances, h.toSteady⟩

theorem dropWhile_le_eq_filter (hl : l.Pairwise (· < ·)) (k : ℕ) : l.dropWhile (· ≤ k) = l.filter (k < ·) := by
  rw [dropWhile_eq_filter (hl.imp ?_)]
  · refine filter_congr fun x _ => ?_
    rw [Bool.eq_iff_iff]
    simp
  · intro x y hxy hy
    simp only [decide_eq_true_eq] at hy ⊢
    omega

theorem rdropWhile_gt_eq_filter {f : α → ℕ} {l : List α} (hl : l.Pairwise (f · < f ·)) (k : ℕ) :
    l.rdropWhile (f · > k) = l.filter (f · ≤ k) := by
  rw [← rdropWhile_eq_filter (hl.imp ?_)]
  · congr 1
    funext x
    rw [Bool.eq_iff_iff]
    simp
  · intro x y hxy hy
    simp only [decide_eq_true_eq] at hy ⊢
    omega

theorem findHighestPossibleCommittableIndex_eq_some {idx c : ℕ}
    (h : a.findHighestPossibleCommittableIndex idx = some c) : c ∈ a.state.committableIndices ∧ c ≤ idx := by
  unfold findHighestPossibleCommittableIndex at h
  have hle := find?_some h
  exact ⟨mem_reverse.1 (mem_of_find?_eq_some h), by simpa using hle⟩

variable (a)

theorem quiet_finishCommit (start idx : ℕ) : Quiet a (a.finishCommit start idx).state := by
  unfold finishCommit
  refine .andThen (quiet_completeRetirement a idx) fun b => ?_
  exact .andThen (quiet_compactStore b start idx) fun c => quiet_discardCommittedConfigurations c idx

theorem works_commit {idx : ℕ} (hidx : idx ∈ a.state.committableIndices) : Works a (a.commit idx).state := by
  unfold commit
  split_ifs with hlast hcommit
  · exact .refl a
  · exact .refl a
  · refine .trans (b := a.setCommit idx) ⟨fun hi => ?_, ⟨rfl, rfl, rfl⟩, rfl, .inl rfl⟩
      (quiet_finishCommit _ _ idx).works
    refine ⟨⟨not_lt.1 hlast, ?_, ?_, ?_, Or.inr (hi.pushed idx hidx)⟩, le_rfl, ?_, take_prefix _ _⟩
    · exact hi.sorted.sublist (dropWhile_sublist _)
    · intro i hmem
      unfold setCommit at hmem ⊢
      rw [dropWhile_le_eq_filter hi.sorted, mem_filter] at hmem
      exact ⟨by simpa using hmem.2, (hi.mem_range i hmem.1).2⟩
    · intro i hmem
      exact hi.pushed i ((dropWhile_sublist _).subset hmem)
    · exact (not_le.1 hcommit).le

theorem works_commitIfPossible : Works a (a.commitIfPossible idx).state := by
  unfold commitIfPossible
  split_ifs
  · split
    · exact .refl a
    · rename_i c hc
      exact works_commit a (findHighestPossibleCommittableIndex_eq_some hc).1
  · exact .refl a

theorem works_updateCommit : Works a a.updateCommit.state := by
  unfold updateCommit
  split_ifs
  · split
    · exact .refl a
    · exact .refl a
    · split_ifs
      · exact .refl a
      · split
        · exact .refl a
        · rename_i c hc
          split_ifs
          · exact works_commit a (findHighestPossibleCommittableIndex_eq_some hc).1
          · exact .refl a
  · exact .refl a

variable {a}

theorem rollbackRetirement_log (s : State) (idx : ℕ) : (rollbackRetirement s idx).currentView = s.currentView ∧
      (rollbackRetirement s idx).lastIdx = s.lastIdx ∧
      (rollbackRetirement s idx).commitIdx = s.commitIdx ∧
      (rollbackRetirement s idx).committableIndices = s.committableIndices ∧
      (rollbackRetirement s idx).committableHistory = s.committableHistory ∧
      (rollbackRetirement s idx).leadershipState = s.leadershipState ∧
      (rollbackRetirement s idx).nodeId = s.nodeId := by
  unfold rollbackRetirement
  dsimp only
  split_ifs <;> (repeat' split) <;> exact ⟨rfl, rfl, rfl, rfl, rfl, rfl, rfl⟩

theorem works_rollback (a : Aft) (idx : ℕ) : Works a (a.rollback idx) := by
  unfold rollback
  split_ifs with hidx
  · exact .refl a
  · obtain ⟨hview, hlast, hcommit, hcommittable, hhistory, hrole, hnode⟩ := rollbackRetirement_log
      { a.state with
        lastIdx := idx
        viewHistory := a.state.viewHistory.rollback idx
        committableIndices := a.state.committableIndices.rdropWhile (· > idx) } idx
    refine .trans ?_ (quiet_rollbackConfigurations _ idx).works
    refine ⟨fun hi => ?_, ⟨hview, rfl, rfl⟩, hnode, .inl hrole⟩
    have hge : a.state.commitIdx ≤ idx := not_lt.1 hidx
    refine ⟨⟨?_, ?_, ?_, ?_, ?_⟩, hview.ge, hcommit.ge, ?_⟩
    · rw [hlast, hcommit]
      exact hge
    · rw [hcommittable]
      exact hi.sorted.sublist ( rdropWhile_prefix _ _).sublist
    · intro i hmem
      rw [hcommittable, rdropWhile_gt_eq_filter (f := fun x => x) hi.sorted, mem_filter] at hmem
      rw [hlast, hcommit]
      exact ⟨(hi.mem_range i hmem.1).1, by simpa using hmem.2⟩
    · intro i hmem
      rw [hcommittable] at hmem
      rw [hhistory]
      exact hi.pushed i (( rdropWhile_prefix _ _).subset hmem)
    · rw [hcommit, hhistory]
      exact hi.commit_pushed
    · exact take_prefix_take_left hge

/-! ### Elections -/

theorem advances_of_view {view : ℕ} (hview : a.state.currentView ≤ view)
    (h : SameLog { a with state.currentView := view } b) : Advances a b := by
  refine .trans ?_ h.advances
  exact fun hi => ⟨⟨hi.commit_le_last, hi.sorted, hi.mem_range, hi.pushed, hi.commit_pushed⟩, hview, le_rfl,
    take_prefix _ _⟩

variable (a)

theorem advances_becomeAwareOfNewTerm (draw : ℕ) {term : ℕ} (hterm : a.state.currentView ≤ term) :
    Advances a (a.becomeAwareOfNewTerm draw term) :=
  advances_of_view hterm ⟨rfl, rfl, rfl, rfl, rfl, rfl⟩

theorem works_startLeadership : Works a a.startLeadership.state := by
  unfold startLeadership
  refine .andThen ?_ fun b _ => (Quiet.of_talks (talks_announceLeadership b) ?_).works
  · split_ifs
    · exact works_updateCommit a
    · exact .refl a
  · unfold announceLeadership
    refine .trans ?_ (Steady.foldl (fun d (n : NodeId × NodeState) => steady_sendAppendEntries d n.1 _) _ _)
    exact ⟨⟨rfl, rfl, rfl⟩, rfl, .inl rfl⟩

theorem works_discardUncommittable : Works a a.discardUncommittable := by
  unfold discardUncommittable
  split_ifs
  · exact works_rollback a _
  · exact .refl a

theorem advances_becomeLeader : Advances a a.becomeLeader.state := by
  have htake : Advances a.discardUncommittable a.discardUncommittable.takeLeadership :=
    SameLog.advances ⟨rfl, rfl, rfl, rfl, rfl, rfl⟩
  unfold becomeLeader
  split_ifs with hretired
  · exact .refl a
  · exact (works_discardUncommittable a).advances.trans (htake.trans (works_startLeadership _).advances)

variable {a}

/-! ### Appending an entry -/

/-- `b` is `a` with its log extended up to index `i`, which is pushed to the committable indices if it
is a signature. -/
structure Grown (a : Aft) (i : ℕ) (signature : Bool) (b : Aft) : Prop extends Steady a b where
  last_eq : b.state.lastIdx = i
  commit_eq : b.state.commitIdx = a.state.commitIdx
  committable_eq : b.state.committableIndices = a.state.committableIndices ++ if signature then [i] else []
  history_eq : b.state.committableHistory = a.state.committableHistory ++ if signature then [i] else []
  ledger_prefix : a.ledger <+: b.ledger

namespace Grown

variable {i : ℕ} {signature : Bool}

theorem quiet (h : Grown a i signature b) (hs : Quiet b c) : Grown a i signature c where
  toSteady := h.toSteady.trans hs.toSteady
  last_eq := hs.last_eq.trans h.last_eq
  commit_eq := hs.commit_eq.trans h.commit_eq
  committable_eq := hs.committable_eq.trans h.committable_eq
  history_eq := hs.history_eq.trans h.history_eq
  ledger_prefix := by rw [hs.ledger_eq]; exact h.ledger_prefix

theorem works (h : Grown a i signature b) (hi : a.state.lastIdx < i) : Works a b := by
  refine ⟨fun hinv => ?_, h.toSteady⟩
  have hmem : ∀ {l : List ℕ} {x : ℕ},
      x ∈ l ++ (if signature then [i] else []) ↔ x ∈ l ∨ (x = i ∧ signature = true) := by
    intro l x
    cases signature <;> simp
  refine ⟨⟨?_, ?_, ?_, ?_, ?_⟩, h.view_eq.ge, h.commit_eq.ge, ?_⟩
  · rw [h.commit_eq, h.last_eq]
    exact hinv.commit_le_last.trans hi.le
  · rw [h.committable_eq, pairwise_append]
    refine ⟨hinv.sorted, by cases signature <;> simp, ?_⟩
    intro x hx y hy
    have hy' : y = i := by cases signature <;> simp_all
    have := (hinv.mem_range x hx).2
    omega
  · intro x hx
    rw [h.committable_eq, hmem] at hx
    rw [h.commit_eq, h.last_eq]
    rcases hx with hx | ⟨rfl, _⟩
    · have := hinv.mem_range x hx
      omega
    · have := hinv.commit_le_last
      omega
  · intro x hx
    rw [h.committable_eq, hmem] at hx
    rw [h.history_eq, hmem]
    exact hx.imp_left (hinv.pushed x)
  · rw [h.commit_eq, h.history_eq]
    exact hinv.commit_pushed.imp_right (mem_append_left _)
  · exact ( take_prefix _ _).trans h.ledger_prefix

end Grown

theorem quiet_signRetirement (a : Aft) (idx : ℕ) : Quiet a (a.signRetirement idx).state := by
  unfold signRetirement
  split_ifs
  · exact quiet_becomeRetired a idx .signed
  · exact .refl a

/-- A replicated entry either grows the log by one or, when a hook throws, leaves it alone. -/
theorem replicateEntry_log (a : Aft) (index : ℕ) (t : Tx) :
    (∃ b, a.replicateEntry index t = .ok b ∧ Grown a index t.committable b) ∨
      ∃ e b, a.replicateEntry index t = .raised e b ∧ Quiet a b := by
  unfold replicateEntry
  have hhook := quiet_configurationChangeHook a index t
  cases hb : a.configurationChangeHook index t with
  | raised e b => exact .inr ⟨e, b, rfl, by simpa [hb] using hhook⟩
  | ok b =>
    rw [hb, state_ok] at hhook
    rw [andThen_ok]
    cases ht : t.committable with
    | false =>
      refine .inl ⟨b.putEntry index t, rfl, ⟨⟨hhook.view_eq, hhook.voted_eq, hhook.grants_eq⟩, hhook.nodeId_eq,
        hhook.role⟩, rfl, hhook.commit_eq, ?_, ?_, hhook.ledger_eq ▸ prefix_append _ _⟩
      · simpa [putEntry] using hhook.committable_eq
      · simpa [putEntry] using hhook.history_eq
    | true =>
      unfold replicateSignature
      have hsign := hhook.trans (quiet_signRetirement b index)
      cases hc : b.signRetirement index with
      | raised e c => exact .inr ⟨e, c, rfl, by simpa [hc] using hsign⟩
      | ok c =>
        rw [hc, state_ok] at hsign
        have htick := quiet_startTickingIfNecessary (c.pushCommittable index)
        have hpush : Steady c (c.pushCommittable index) := ⟨⟨rfl, rfl, rfl⟩, rfl, .inl rfl⟩
        have hsteady := hsign.toSteady.trans (hpush.trans htick.toSteady)
        refine .inl ⟨_, rfl, ⟨⟨hsteady.view_eq, hsteady.voted_eq, hsteady.grants_eq⟩, hsteady.nodeId_eq,
          hsteady.role⟩, rfl,
          htick.commit_eq.trans hsign.commit_eq, htick.committable_eq.trans ?_, htick.history_eq.trans ?_, ?_⟩
        · simp [pushCommittable, hsign.committable_eq]
        · simp [pushCommittable, hsign.history_eq]
        · exact (htick.ledger_eq.trans hsign.ledger_eq) ▸ prefix_append _ _

theorem works_replicateLoop (entries : List (ℕ × Tx)) (a : Aft) : Works a (a.replicateLoop entries).1.state := by
  induction entries generalizing a with
  | nil => exact .refl a
  | cons x rest ih =>
    obtain ⟨index, t⟩ := x
    unfold replicateLoop
    split_ifs with hindex
    · exact .refl a
    · have hentry : Works a
          ((a.replicateEntry index t).andThen fun b => b.updateViewHistory index b.state.currentView).state := by
        rcases replicateEntry_log a index t with ⟨b, hb, hgrown⟩ | ⟨e, b, hb, hsame⟩
        · rw [hb, andThen_ok]
          exact (hgrown.works (by omega)).trans (quiet_updateViewHistory b _ _).works
        · rw [hb, andThen_raised]
          exact hsame.works
      split
      · rename_i b hb
        rw [hb] at hentry
        exact hentry.trans ((quiet_flushIfFull b).works.trans (ih _))
      · rename_i e b hb
        rw [hb] at hentry
        exact hentry

variable (a)

theorem works_replicate (entries : List (ℕ × Tx)) (term : ℕ) : Works a (a.replicate entries term).1.state := by
  have hbatch : Works a (a.replicateBatch entries).1.state := by
    have hloop := works_replicateLoop entries a
    unfold replicateBatch
    split
    · rename_i b hb
      rw [hb] at hloop
      split_ifs
      · exact hloop.trans (works_updateCommit b)
      · exact hloop
    · exact hloop
  unfold replicate
  split_ifs
  · exact .refl a
  · exact works_rollback a _
  · exact hbatch
  · exact works_rollback a _

/-! ### Applying a batch -/

theorem commit_log :
    (a.commit idx).state.state.lastIdx = a.state.lastIdx ∧ (a.commit idx).state.ledger = a.ledger := by
  unfold commit
  split_ifs
  · exact ⟨rfl, rfl⟩
  · exact ⟨rfl, rfl⟩
  · have hsame := quiet_finishCommit (a.setCommit idx) a.state.commitIdx idx
    exact ⟨hsame.last_eq, hsame.ledger_eq⟩

theorem commitIfPossible_log : (a.commitIfPossible idx).state.state.lastIdx = a.state.lastIdx ∧
      (a.commitIfPossible idx).state.ledger = a.ledger := by
  unfold commitIfPossible
  split_ifs
  · split
    · exact ⟨rfl, rfl⟩
    · exact commit_log a _
  · exact ⟨rfl, rfl⟩

variable (r : AppendEntries)

theorem quiet_recordSignatureView (view : ℕ) : Quiet a (a.recordSignatureView r view).state := by
  unfold recordSignatureView
  split_ifs
  · exact quiet_updateViewHistory a _ _
  · exact quiet_updateViewHistory a _ _

theorem quiet_recordBatchView : Quiet a (a.recordBatchView r).state := by
  unfold recordBatchView
  split_ifs
  · exact quiet_updateViewHistory a _ _
  · exact quiet_updateViewHistory a _ _
  · exact .refl a

variable {a} {t k : ℕ}

/-- A signature pushes its index and may commit. -/
theorem executeSignature_log {i : ℕ} (hgrown : Grown a i false b) (hi : a.state.lastIdx < i)
    (r : AppendEntries) (e : Entry) :
    Works a (b.executeSignature r i e).state ∧ (b.executeSignature r i e).state.state.lastIdx = i := by
  unfold executeSignature
  have hsign := hgrown.quiet (quiet_signRetirement b i)
  cases hc : b.signRetirement i with
  | raised err c =>
    rw [hc] at hsign
    exact ⟨hsign.works hi, hsign.last_eq⟩
  | ok c =>
    rw [hc, state_ok] at hsign
    have hpush : Grown a i true (c.pushCommittable i) :=
      ⟨⟨⟨hsign.view_eq, hsign.voted_eq, hsign.grants_eq⟩, hsign.nodeId_eq, hsign.role⟩, hsign.last_eq, hsign.commit_eq,
        by simp [pushCommittable, hsign.committable_eq], by simp [pushCommittable, hsign.history_eq],
        hsign.ledger_prefix⟩
    rw [andThen_ok]
    split_ifs
    · have hview := hpush.quiet (quiet_recordSignatureView _ r e.view)
      cases hd : (c.pushCommittable i).recordSignatureView r e.view with
      | raised err d =>
        rw [hd] at hview
        exact ⟨hview.works hi, hview.last_eq⟩
      | ok d =>
        rw [hd, state_ok] at hview
        exact ⟨(hview.works hi).trans (works_commitIfPossible d _),
          (commitIfPossible_log d _).1.trans hview.last_eq⟩
    · exact ⟨hpush.works hi, hpush.last_eq⟩

theorem executeEntry_log {i : ℕ} (hi : a.state.lastIdx < i) (r : AppendEntries) (e : Entry) :
    Works a (a.executeEntry r i e).state ∧ (a.executeEntry r i e).state.state.lastIdx = i := by
  unfold executeEntry
  have hstart : Grown a i false { a with state.lastIdx := i } :=
    ⟨⟨⟨rfl, rfl, rfl⟩, rfl, .inl rfl⟩, rfl, rfl, by simp, by simp, prefix_rfl⟩
  have hhook := hstart.quiet (quiet_configurationChangeHook _ i e.tx)
  cases hb : configurationChangeHook { a with state.lastIdx := i } i e.tx with
  | raised err b =>
    rw [hb] at hhook
    exact ⟨hhook.works hi, hhook.last_eq⟩
  | ok b =>
    rw [hb, state_ok] at hhook
    have hrecord : Grown a i false (b.recordEntry e) := by
      have htick : Quiet b (if e.tx.committable then b.startTickingIfNecessary else b) := by
        split_ifs
        · exact quiet_startTickingIfNecessary b
        · exact .refl b
      have := hhook.quiet htick
      exact ⟨⟨⟨this.view_eq, this.voted_eq, this.grants_eq⟩, this.nodeId_eq, this.role⟩, this.last_eq, this.commit_eq,
        this.committable_eq, this.history_eq, this.ledger_prefix.trans (prefix_append _ _)⟩
    split_ifs
    · exact executeSignature_log hrecord hi r e
    · exact ⟨hrecord.works hi, hrecord.last_eq⟩

theorem works_executeAppendEntriesFinish (a : Aft) (r : AppendEntries) (source : NodeId) :
    Works a (a.executeAppendEntriesFinish r source).state := by
  unfold executeAppendEntriesFinish
  refine .andThen (works_commitIfPossible a _) fun b _ => ?_
  refine .andThen (quiet_recordBatchView b r).works fun c _ => ?_
  exact (quiet_sendAppendEntriesResponse c _ _ _ _).works

theorem works_executeAppendEntriesSync (faults : ℕ → Fault) (source : NodeId) (r : AppendEntries)
    (entries : List Entry) (a : Aft) :
    Works a (executeAppendEntriesSync faults source r (entries.zipIdx (a.state.lastIdx + 1)) a).state := by
  induction entries generalizing a with
  | nil => exact works_executeAppendEntriesFinish a r source
  | cons e rest ih =>
    rw [zipIdx_cons, executeAppendEntriesSync]
    split
    · refine .trans (b := { a with ledger := a.ledger.take a.state.lastIdx }) ⟨fun hi => ?_, ⟨rfl, rfl, rfl⟩,
        rfl, .inl rfl⟩ (quiet_sendAppendEntriesResponse _ _ _ _ _).works
      exact ⟨hi, le_rfl, le_rfl, take_prefix_take_left hi.commit_le_last⟩
    · obtain ⟨hworks, hlast⟩ := executeEntry_log (Nat.lt_succ_self a.state.lastIdx) r e
      refine .andThen hworks fun b hb => ?_
      rw [hb, state_ok] at hlast
      have := ih b
      rwa [hlast] at this

theorem works_scanBase {idx : ℕ} (h : ScanBase a t idx k b) : Works a b := by
  cases h with
  | keep => exact .refl a
  | cut => exact (works_rollback a k).trans (Quiet.works { Quiet.refl _ with })

theorem works_processEntries (a : Aft) (faults : ℕ → Fault) (source : NodeId) (r : AppendEntries)
    (data : List Entry) : Works a (a.processEntries faults source r data).state := by
  unfold processEntries
  split_ifs with hcommit hlast
  · exact .refl a
  · exact .refl a
  · have hscan := @scanned faults source r.termOfIdx r.idx a r.prevIdx
      (not_lt.1 hcommit) (not_lt.1 hlast) data
    generalize scanEntries faults source r.termOfIdx (r.idx - r.prevIdx) (r.prevIdx + 1) data [] a = s at hscan
    cases hscan with
    | short | ignored => exact .refl a
    | unreadable _ _ _ _ hbase => exact (works_scanBase hbase).trans (quiet_sendAppendEntriesResponse _ _ _ _ _).works
    | @collected k b hprev hk _ hskip hbase hlen =>
      refine (works_scanBase hbase).trans ?_
      have hexec := works_executeAppendEntriesSync faults source r
        ((data.drop (k - r.prevIdx)).take (r.idx - k)) b
      have hzip : ((data.drop (k - r.prevIdx)).take (r.idx - k)).zipIdx (k + 1) =
          ((data.drop (k - r.prevIdx)).take (r.idx - k)).zipIdx (b.state.lastIdx + 1) := by
        cases hbase with
        | keep h =>
          rcases h with rfl | h
          · rfl
          · simp [Nat.sub_eq_zero_of_le h]
        | cut => rw [cutAt_lastIdx ((not_lt.1 hcommit).trans hprev)]
      rw [hzip]
      exact hexec

theorem works_checkAppendEntries (a : Aft) (draw : ℕ) (faults : ℕ → Fault) (source : NodeId) (r : AppendEntries)
    (data : List Entry) : Works a (a.checkAppendEntries draw faults source r data).state := by
  unfold checkAppendEntries
  split_ifs
  · exact (quiet_sendAppendEntriesResponse a _ _ _ _).works
  · exact (quiet_sendAppendEntriesResponse a _ _ _ _).works
  · refine .trans (Quiet.works ?_) (works_processEntries _ faults source r data)
    exact { Quiet.refl _ with }

/-- The tick of a leader; one that has not heard of a quorum becomes a follower. -/
theorem quiet_periodicSend_waitForAcks (a : Aft) (elapsed : ℕ) : Quiet a (a.periodicSend.waitForAcks elapsed) :=
  (quiet_periodicSend a).trans { Quiet.refl _ with }

end Ccf.Aft
