import Ccf.Aft.Tracking

/-! # Committing and rolling back a tracked log

A commit completes a retirement whose signature is now committed, and the global hooks of the committed entries, run
one after the other, tell the node that its retirement is committed and make it forget nodes that are gone for good.
`Compacted a idx j b` is the invariant of that loop: the hooks have run for the first `j` entries. -/

namespace Ccf.Aft

open Outcome Retirement List Assoc

open Tracks (Kept)

/-! ### Commit -/

/-- `b` is `a` after `setRetiredCommitted nodes`. -/
structure Marked (nodes : List NodeId) (b c : Aft) : Prop extends Kept b c where
  retirement_eq : c.state.retirement =
    if b.state.nodeId ∈ nodes then { b.state.retirement with retirementPhase := some .retiredCommitted }
    else b.state.retirement
  leadership_eq : c.state.leadershipState = if b.state.nodeId ∈ nodes then .none else b.state.leadershipState
  mem_keys : ∀ n, n ∈ keys c.allOtherNodes ↔
    n ∈ keys b.allOtherNodes ∧ (n = b.state.nodeId ∨ n ∉ nodes)

theorem keys_sendProposeRequestVote (a : Aft) :
    keys a.sendProposeRequestVote.allOtherNodes = keys a.allOtherNodes := by
  unfold sendProposeRequestVote
  split <;> rfl

/-- The node learns that its own retirement is committed. -/
theorem becomeRetiredCommitted_spec (a : Aft) (idx : ℕ) :
    ∃ c, a.becomeRetired idx .retiredCommitted = .ok c ∧ Kept a c ∧ c.state.leadershipState = .none ∧
      c.state.retirement =
        { a.state.retirement with membershipState := .retired, retirementPhase := some .retiredCommitted } ∧
      keys c.allOtherNodes = keys a.allOtherNodes := by
  unfold becomeRetired
  dsimp only
  split_ifs
  · have htalks := talks_sendProposeRequestVote a
    refine ⟨_, rfl, Kept.trans (Kept.of_talks htalks) ⟨rfl, rfl, rfl, rfl, rfl, rfl⟩, rfl, ?_,
      keys_sendProposeRequestVote a⟩
    simp [setRetired, State.retirement, htalks.state_eq]
  · exact ⟨_, rfl, ⟨rfl, rfl, rfl, rfl, rfl, rfl⟩, rfl, rfl, rfl⟩

variable {b : Aft}

theorem setRetiredCommitted_spec {nodes : List NodeId} (hnodup : nodes.Nodup) {seqno : ℕ}
    (hself : b.state.nodeId ∈ nodes → b.isRetired ∧ b.state.retirementPhase = some .completed) :
    ∃ c, b.setRetiredCommitted seqno nodes = .ok c ∧ Marked nodes b c := by
  unfold setRetiredCommitted
  induction nodes generalizing b with
  | nil => exact ⟨b, rfl, ⟨Kept.refl b, by simp, by simp, by simp⟩⟩
  | cons x nodes ih =>
    rw [nodup_cons] at hnodup
    rw [forEach_cons]
    unfold setRetiredCommittedNode
    by_cases hx : b.state.nodeId = x
    · -- the mark of the node itself, which occurs once
      have hdone := hself (by simp [hx])
      obtain ⟨c, hc, hkept, hlead, hret, hkeys⟩ := becomeRetiredCommitted_spec
        { b with state.retiredCommittedIdx := some seqno } seqno
      have hid : c.state.nodeId = b.state.nodeId := hkept.nodeId_eq
      have hrest : c.state.nodeId ∉ nodes := by rw [hid, hx]; exact hnodup.1
      obtain ⟨d, hd, hmarked⟩ := ih hnodup.2 (b := c) fun h => absurd h hrest
      rw [if_pos hx, if_pos hdone, hc, andThen_ok]
      refine ⟨d, hd, ⟨?_, ?_, ?_, ?_⟩⟩
      · refine .trans ?_ (hkept.trans hmarked.toKept)
        exact ⟨rfl, rfl, rfl, rfl, rfl, rfl⟩
      · rw [hmarked.retirement_eq, if_neg hrest, hret, if_pos (by simp [hx])]
        simp [State.retirement, hdone.1]
      · rw [hmarked.leadership_eq, if_neg hrest, hlead, if_pos (by simp [hx])]
      · intro n
        rw [hmarked.mem_keys, hkeys, hid, mem_cons, not_or, ← hx]
        refine and_congr_right fun _ => ⟨fun h => ?_, fun h => ?_⟩
        · by_cases hn : n = b.state.nodeId
          · exact .inl hn
          · exact .inr ⟨hn, h.resolve_left hn⟩
        · exact h.imp_right And.right
    · rw [if_neg hx, andThen_ok]
      obtain ⟨d, hd, hmarked⟩ := ih hnodup.2 (b := { b with allOtherNodes := erase x b.allOtherNodes })
        fun h => hself (mem_cons_of_mem _ h)
      have hmem : b.state.nodeId ∈ x :: nodes ↔ b.state.nodeId ∈ nodes := by simp [hx]
      refine ⟨d, hd, ⟨?_, ?_, ?_, ?_⟩⟩
      · refine .trans ?_ hmarked.toKept
        exact ⟨rfl, rfl, rfl, rfl, rfl, rfl⟩
      · rw [hmarked.retirement_eq]
        simp only [hmem]
      · rw [hmarked.leadership_eq]
        simp only [hmem]
      · intro n
        rw [hmarked.mem_keys]
        rw [mem_keys_erase, mem_cons, not_or]
        constructor
        · rintro ⟨⟨hn, hnx⟩, h⟩
          exact ⟨hn, h.imp_right fun h => ⟨hnx, h⟩⟩
        · rintro ⟨hn, rfl | ⟨hnx, h⟩⟩
          · exact ⟨⟨hn, hx⟩, .inl rfl⟩
          · exact ⟨⟨hn, hnx⟩, .inr h⟩

variable {idx commit k j : ℕ} {a : Aft} {R : Retirement} {e : Entry} {s : State}

theorem complete_retiredCommitted
    (h : (R.complete idx).retirementPhase = some .retiredCommitted) : R.complete idx = R := by
  unfold complete at h ⊢
  split at h
  · split_ifs at h ⊢
    · cases h
    · rfl
  · rfl

/-- The commit of a signature completes the retirement it signs. -/
theorem completeRetirement_eq (hwf : WellFormed a.ledger) (hidx : commit ≤ idx)
    (hret : a.state.retirement = retirementAt a.ledger commit commit a.state.nodeId) : a.completeRetirement idx =
      .ok (a.reconfigured (retirementAt a.ledger idx commit a.state.nodeId) a.configurations) := by
  have hmember : a.state.retirementPhase ≠ none → a.isRetired := by
    intro hphase
    have hretired := mt (fun heq => (congrArg retirementPhase hret).trans heq) hphase
    exact (congrArg membershipState hret).trans (retirementAt_retired hretired)
  rw [hwf.retirementAt_commit hidx, ← hret]
  unfold completeRetirement
  by_cases hphase : a.state.retirementPhase = some .signed
  · have hretired := hmember (by simp [hphase])
    rw [if_pos ⟨hretired, hphase⟩]
    cases hs : a.state.retirementCommittableIdx with
    | none =>
      rw [reconfigured_self]
      simp [complete, State.retirement, hphase, hs]
    | some s =>
      simp only [complete, State.retirement, hphase, hs, ge_iff_le]
      split_ifs
      · simp [becomeRetired, setRetired, reconfigured, State.setRetirement, hs, hretired]
      · rw [reconfigured_self]
        simp [State.retirement, hs, hphase]
  · rw [if_neg fun h => hphase h.2]
    have hsame : a.state.retirement.complete idx = a.state.retirement := by
      unfold complete
      split
      · exact absurd ‹_› hphase
      · rfl
    rw [reconfigured_self hsame]

/-- The global hooks have run for the first `j` entries of a log committed up to `idx`. -/
structure Compacted (a : Aft) (idx j : ℕ) (b : Aft) : Prop extends Kept a b where
  retirement_eq : b.state.retirement = retirementAt a.ledger idx j a.state.nodeId
  known : ∀ c ∈ popConfigurations idx a.configurations, ∀ n ∈ c.nodes, n ≠ a.state.nodeId →
    n ∈ keys b.allOtherNodes
  self_not_mem : a.state.nodeId ∉ keys b.allOtherNodes
  idle : Idle b

theorem Compacted.succ (hwf : WellFormed a.ledger)
    (hconf : popConfigurations idx a.configurations = popConfigurations idx (configurationsOf a.ledger))
    (h : Compacted a idx j b) (hj : j < idx) (he : entryAt a.ledger (j + 1) = some e) :
    ∃ c, b.setRetiredCommitted (j + 1) e.tx.retiredCommittedNodes = .ok c ∧ Compacted a idx (j + 1) c := by
  have hid := h.nodeId_eq
  have hself : b.state.nodeId ∈ e.tx.retiredCommittedNodes →
      b.isRetired ∧ b.state.retirementPhase = some .completed := by
    intro hn
    obtain ⟨r, s, hbefore, _⟩ := hwf.retirementAt_marked hj he (hid ▸ hn)
    have hret := h.retirement_eq.trans hbefore
    exact ⟨congrArg membershipState hret, congrArg retirementPhase hret⟩
  obtain ⟨c, hc, hmarked⟩ := setRetiredCommitted_spec e.tx.retiredCommittedNodes_nodup hself
  refine ⟨c, hc, ⟨h.toKept.trans hmarked.toKept, ?_, ?_, ?_, ?_⟩⟩
  · rw [hmarked.retirement_eq, hid, h.retirement_eq]
    split_ifs with hn
    · obtain ⟨r, s, hbefore, hafter⟩ := hwf.retirementAt_marked hj he hn
      rw [hbefore, hafter]
    · exact (retirementAt_unmarked he hn).symm
  · intro conf hmem n hn hne
    refine (hmarked.mem_keys n).2 ⟨h.known conf hmem n hn hne, .inr fun hmark => ?_⟩
    -- a marked node is in no configuration that stays active
    rw [hconf] at hmem
    obtain ⟨k, hk, hnodes⟩ := nodes_of_mem_pop hmem
    rw [hnodes] at hn
    exact hwf.not_member_of_marked he hmark (by omega) hn
  · exact fun hmem => h.self_not_mem ((hmarked.mem_keys _).1 hmem).1
  · rintro ⟨hret, hphase⟩
    rw [hmarked.leadership_eq]
    split_ifs with hn
    · exact .inl rfl
    · have hkept := hmarked.retirement_eq
      rw [if_neg hn] at hkept
      exact h.idle ⟨(congrArg membershipState hkept).symm.trans hret,
        (congrArg retirementPhase hkept).symm.trans hphase⟩

theorem compactStore_spec {start : ℕ} (hwf : WellFormed a.ledger) (hlen : idx ≤ a.ledger.length)
    (hconf : popConfigurations idx a.configurations = popConfigurations idx (configurationsOf a.ledger))
    (h : Compacted a idx start b) (hstart : start ≤ idx) :
    ∃ c, b.compactStore start idx = .ok c ∧ Compacted a idx idx c := by
  unfold compactStore
  rw [h.ledger_eq]
  -- induction on the number of entries whose hooks have not run
  obtain ⟨k, hk⟩ := Nat.exists_eq_add_of_le hstart
  induction k generalizing start b with
  | zero =>
    obtain rfl : idx = start := by omega
    rw [drop_of_length_le (by simp)]
    exact ⟨b, rfl, h⟩
  | succ k ih =>
    have hlt : start < a.ledger.length := by omega
    obtain ⟨c, hc, hnext⟩ := h.succ hwf hconf (by omega)
      (show entryAt a.ledger (start + 1) = some a.ledger[start] from getElem?_eq_getElem hlt)
    obtain ⟨d, hd, hdone⟩ := ih hnext (by omega) (by omega)
    refine ⟨d, ?_, hdone⟩
    rw [drop_eq_getElem_cons (by simp; omega), forEach_cons]
    simp only [getElem_zipIdx, getElem_take, zero_add]
    rw [hc, andThen_ok, hd]

theorem discardCommittedConfigurations_eq
    (h : Knows { a with configurations := popConfigurations idx a.configurations }) :
    a.discardCommittedConfigurations idx = { a with configurations := popConfigurations idx a.configurations } := by
  unfold discardCommittedConfigurations
  dsimp only
  rw [createAndRemoveNodeState_eq_self h, ite_self]

/-! ### What else a commit does -/

/-- What a commit may do to the fields that are not tracked: a node whose retirement is committed gives up
its role and proposes a successor, and nodes that are gone are forgotten. -/
structure Settles (a b : Aft) : Prop where
  nodeId_eq : b.state.nodeId = a.state.nodeId
  view_eq : b.state.currentView = a.state.currentView
  ledger_eq : b.ledger = a.ledger
  history_eq : b.state.viewHistory = a.state.viewHistory
  votedFor_eq : b.votedFor = a.votedFor
  votesForMe_eq : b.votesForMe = a.votesForMe
  ticking_eq : b.ticking = a.ticking
  batchSize_eq : b.entriesBatchSize = a.entriesBatchSize
  leadership : b.state.leadershipState = a.state.leadershipState ∨ b.state.leadershipState = .none
  nodes_sub : b.allOtherNodes ⊆ a.allOtherNodes
  outbox : ∀ p ∈ b.outbox, p ∈ a.outbox ∨ p.1 ∈ keys a.allOtherNodes ∧ ∃ r, p.2 = .proposeRequestVote r

namespace Settles

variable {c : Aft}

theorem refl (a : Aft) : Settles a a :=
  ⟨rfl, rfl, rfl, rfl, rfl, rfl, rfl, rfl, .inl rfl, fun _ h => h, fun _ h => .inl h⟩

theorem trans (hab : Settles a b) (hbc : Settles b c) : Settles a c where
  nodeId_eq := hbc.nodeId_eq.trans hab.nodeId_eq
  view_eq := hbc.view_eq.trans hab.view_eq
  ledger_eq := hbc.ledger_eq.trans hab.ledger_eq
  history_eq := hbc.history_eq.trans hab.history_eq
  votedFor_eq := hbc.votedFor_eq.trans hab.votedFor_eq
  votesForMe_eq := hbc.votesForMe_eq.trans hab.votesForMe_eq
  ticking_eq := hbc.ticking_eq.trans hab.ticking_eq
  batchSize_eq := hbc.batchSize_eq.trans hab.batchSize_eq
  leadership := by
    rcases hbc.leadership with h | h
    · rw [h]
      exact hab.leadership
    · exact .inr h
  nodes_sub := List.Subset.trans hbc.nodes_sub hab.nodes_sub
  outbox p hp := by
    rcases hbc.outbox p hp with h | ⟨hdst, hmsg⟩
    · exact hab.outbox p h
    · exact .inr ⟨map_subset _ hab.nodes_sub hdst, hmsg⟩

theorem andThen {o : Result} {f : Aft → Result} (ho : Settles a o.state) (hf : ∀ b, Settles b (f b).state) :
    Settles a (o.andThen f).state := by
  cases o with
  | ok b => exact ho.trans (hf b)
  | raised e b => exact ho

theorem forEach {α : Type*} {f : Aft → α → Result} (hf : ∀ b x, Settles b (f b x).state) (l : List α) (a : Aft) :
    Settles a (forEach f l a).state := by
  induction l generalizing a with
  | nil => exact refl a
  | cons x l ih => exact andThen (hf a x) ih

end Settles

/-- The proposed successor is one of the other nodes. -/
theorem considerSuccessor_mem {n : NodeId} (a : Aft) (l : List (NodeId × NodeState)) (s : Successor)
    (h : (l.foldl a.considerSuccessor s).node = some n) : s.node = some n ∨ n ∈ keys l := by
  induction l generalizing s with
  | nil => exact .inl h
  | cons x l ih =>
    rcases ih _ h with hx | hmem
    · unfold considerSuccessor at hx
      dsimp only at hx
      split_ifs at hx
      · exact .inl hx
      · exact .inr (by simp [Assoc.keys, Option.some.inj hx])
      · exact .inl hx
    · exact .inr (mem_cons_of_mem _ hmem)

theorem settles_sendProposeRequestVote (a : Aft) : Settles a a.sendProposeRequestVote := by
  unfold sendProposeRequestVote
  split
  · exact .refl a
  · rename_i n hn
    refine { Settles.refl a with outbox := fun p hp => ?_ }
    rcases mem_append.1 hp with hp | hp
    · exact .inl hp
    · rw [mem_singleton] at hp
      subst hp
      refine .inr ⟨?_, _, rfl⟩
      exact (considerSuccessor_mem a _ _ hn).resolve_left (by simp)

theorem settles_setRetiredCommittedNode (seqno : ℕ) (a : Aft) (n : NodeId) :
    Settles a (setRetiredCommittedNode seqno a n).state := by
  unfold setRetiredCommittedNode
  split_ifs
  · have hmark : Settles a { a with state.retiredCommittedIdx := some seqno } := { Settles.refl a with }
    refine hmark.trans ?_
    unfold becomeRetired
    dsimp only
    split_ifs
    · refine (settles_sendProposeRequestVote _).trans ?_
      exact { Settles.refl _ with leadership := .inr rfl }
    · exact { Settles.refl _ with leadership := .inr rfl }
  · exact .refl a
  · exact { Settles.refl a with nodes_sub := fun _ h => mem_of_mem_filter h }

theorem settles_compactStore (a : Aft) (start idx : ℕ) : Settles a (a.compactStore start idx).state := by
  unfold compactStore
  refine .forEach (fun b e => ?_) _ a
  unfold setRetiredCommitted
  exact .forEach (settles_setRetiredCommittedNode _) _ b

theorem Tracks.mem_committable {c : ℕ} (h : Tracks a) :
    c ∈ a.state.committableIndices ↔ SignedAt a.ledger c ∧ a.state.commitIdx < c := by
  rw [h.committable_eq, mem_filter, decide_eq_true_eq, mem_signatures]

theorem Tracks.signedAt {c : ℕ} (h : Tracks a) (hc : c ∈ a.state.committableIndices) : SignedAt a.ledger c :=
  (h.mem_committable.1 hc).1

/-- The commit of a signature succeeds, and the node keeps tracking its log. -/
theorem commit_spec (h : Tracks a) (hidx : idx ∈ a.state.committableIndices) :
    ∃ b, a.commit idx = .ok b ∧ Tracks b ∧ Settles a b ∧ b.state.commitIdx = idx := by
  obtain ⟨hsig, hlt⟩ := h.mem_committable.1 hidx
  have hle := SignedAt.le_length hsig
  have hcommit : a.state.commitIdx ≤ idx := hlt.le
  unfold commit
  rw [if_neg (by rw [h.last_eq]; omega), if_neg (by omega)]
  have hpop : popConfigurations idx a.configurations = popConfigurations idx (configurationsOf a.ledger) := by
    rw [h.configurations_eq, popConfigurations_pop hcommit]
  unfold finishCommit
  rw [completeRetirement_eq (a := a.setCommit idx) h.wf hcommit h.retirement_eq, andThen_ok]
  let b := (a.setCommit idx).reconfigured
    (retirementAt (a.setCommit idx).ledger idx a.state.commitIdx (a.setCommit idx).state.nodeId)
    (a.setCommit idx).configurations
  have hstart : Compacted (a.setCommit idx) idx a.state.commitIdx b := by
    refine ⟨⟨rfl, rfl, rfl, rfl, rfl, rfl⟩, rfl, ?_, h.knows.self_not_mem, ?_⟩
    · intro c hc
      exact h.knows.known c ((popConfigurations_suffix idx _).subset hc)
    · refine .of_retirement (a := a) h.idle rfl fun hphase => ?_
      show retirementAt a.ledger idx a.state.commitIdx a.state.nodeId = a.state.retirement
      have hcomplete := h.wf.retirementAt_commit hcommit a.state.nodeId
      rw [h.retirement_eq, retirementOf, hcomplete]
      refine complete_retiredCommitted ?_
      rw [← hcomplete]
      exact hphase
  obtain ⟨c, hc, hdone⟩ := compactStore_spec (a := a.setCommit idx) h.wf hle hpop hstart hcommit
  have hknows : Knows { c with configurations := popConfigurations idx c.configurations } := by
    refine ⟨?_, ?_⟩
    · intro conf hconf n hn hne
      rw [hdone.configurations_eq] at hconf
      exact hdone.known conf hconf n hn (by rw [← hdone.nodeId_eq]; exact hne)
    · show c.state.nodeId ∉ _
      rw [hdone.nodeId_eq]
      exact hdone.self_not_mem
  have hsettles := settles_compactStore b a.state.commitIdx idx
  rw [hc, state_ok] at hsettles
  rw [hc, andThen_ok, discardCommittedConfigurations_eq hknows]
  refine ⟨_, rfl, ?_, ?_, hdone.commit_eq⟩
  swap
  · have hstart' : Settles a b := { Settles.refl a with }
    exact (hstart'.trans hsettles).trans { Settles.refl c with }
  have hledger : c.ledger = a.ledger := hdone.ledger_eq
  have hci : c.state.commitIdx = idx := hdone.commit_eq
  have hid : c.state.nodeId = a.state.nodeId := hdone.nodeId_eq
  refine ⟨?_, ?_, ?_, ?_, ?_, hknows, ?_, hdone.idle⟩
  · exact hledger ▸ h.wf
  · exact hdone.last_eq.trans (h.last_eq.trans (congrArg List.length hledger.symm))
  · right
    show SignedAt c.ledger c.state.commitIdx
    rw [hledger, hci]
    exact hsig
  · show c.state.committableIndices = (signatures c.ledger).filter (c.state.commitIdx < ·)
    rw [hdone.committable_eq, hledger, hci]
    show a.state.committableIndices.dropWhile (· ≤ idx) = _
    have hsorted := (signatures_sorted a.ledger).sublist (filter_sublist (p := (a.state.commitIdx < ·)))
    rw [h.committable_eq, dropWhile_le_eq_filter hsorted, filter_filter]
    refine filter_congr fun i _ => ?_
    rw [Bool.eq_iff_iff]
    simp only [Bool.and_eq_true, decide_eq_true_eq]
    omega
  · show popConfigurations idx c.configurations = popConfigurations c.state.commitIdx (configurationsOf c.ledger)
    rw [hdone.configurations_eq, hledger, hci]
    exact hpop
  · show c.state.retirement = retirementAt c.ledger c.state.commitIdx c.state.commitIdx c.state.nodeId
    rw [hdone.retirement_eq, hledger, hci, hid]
    rfl

/-! ### Rollback -/

theorem rollbackRetirement_eq {n : NodeId} {log : List Entry}
    (hret : s.retirement = retirementOf log commit n) (idx : ℕ) :
    rollbackRetirement s idx = s.setRetirement (s.retirement.cut idx) := by
  obtain ⟨_, _, _, _, _, _, _, _, _, membership, phase, ordered, signed, _⟩ := s
  rcases retirementAt_cases log commit commit n with hnone | ⟨r, _, hord⟩ | ⟨p, r, i, hp, hsigned⟩
  · cases hret.trans hnone
    simp [rollbackRetirement, cut, State.retirement, State.setRetirement]
  · cases hret.trans hord
    by_cases hr : idx < r <;> simp [rollbackRetirement, cut, State.retirement, State.setRetirement, hr]
  · cases hret.trans hsigned
    cases p with
    | ordered => exact absurd rfl hp
    | signed =>
      by_cases hi : idx < i <;> by_cases hr : idx < r <;>
        simp [rollbackRetirement, cut, State.retirement, State.setRetirement, hi, hr]
    | completed | retiredCommitted => simp [rollbackRetirement, cut, State.retirement, State.setRetirement]

theorem cut_retiredCommitted (h : (R.cut idx).retirementPhase = some .retiredCommitted) : R.cut idx = R := by
  obtain ⟨membership, phase, ordered, signed⟩ := R
  rcases phase with _ | (_ | _ | _ | _)
  · rfl
  · rcases ordered with _ | r
    · rfl
    · by_cases hr : idx < r <;> simp [cut, hr] at h
  · rcases ordered with _ | r <;> rcases signed with _ | s
    · rfl
    · by_cases hs : idx < s <;> simp [cut, hs] at h
    · rfl
    · by_cases hs : idx < s <;> by_cases hr : idx < r <;> simp [cut, hs, hr] at h
  · rfl
  · rfl

theorem rollbackConfigurations_eq (h : Knows a) :
    a.rollbackConfigurations idx = { a with configurations := a.configurations.rdropWhile (·.idx > idx) } := by
  have hknows : Knows { a with configurations := a.configurations.rdropWhile (·.idx > idx) } :=
    ⟨fun c hc => h.known c (( rdropWhile_prefix _ _).subset hc), h.self_not_mem⟩
  unfold rollbackConfigurations
  dsimp only
  rw [createAndRemoveNodeState_eq_self hknows, ite_self]

theorem rollback_eq (h : Tracks a) (hk : a.state.commitIdx ≤ k) : a.rollback k = { a with
        ledger := a.ledger.take k
        state := .setRetirement
          { a.state with
            lastIdx := k
            viewHistory := a.state.viewHistory.rollback k
            committableIndices := a.state.committableIndices.rdropWhile (· > k) }
          (a.state.retirement.cut k)
        configurations := a.configurations.rdropWhile (·.idx > k) } := by
  let s : State := { a.state with
    lastIdx := k
    viewHistory := a.state.viewHistory.rollback k
    committableIndices := a.state.committableIndices.rdropWhile (· > k) }
  have hret : s.retirement = retirementOf a.ledger a.state.commitIdx a.state.nodeId := h.retirement_eq
  unfold rollback
  rw [if_neg (by omega), rollbackConfigurations_eq]
  · rw [rollbackRetirement_eq hret]
    rfl
  · have hid : (rollbackRetirement s k).nodeId = a.state.nodeId := by
      rw [rollbackRetirement_eq hret]
      rfl
    refine ⟨?_, ?_⟩
    · rw [hid]
      exact h.knows.known
    · rw [hid]
      exact h.knows.self_not_mem

theorem rollback_tracks (h : Tracks a) (hk : k ≤ a.state.lastIdx) : Tracks (a.rollback k) := by
  rcases lt_or_ge k a.state.commitIdx with hcommit | hcommit
  · unfold rollback
    rw [if_pos hcommit]
    exact h
  rw [h.last_eq] at hk
  rw [rollback_eq h hcommit]
  refine ⟨h.wf.take k, ?_, ?_, ?_, ?_, ⟨?_, h.knows.self_not_mem⟩, ?_, ?_⟩
  · exact (length_take_of_le hk).symm
  · refine h.commit_signed.imp_right ?_
    rintro ⟨e, he, hs⟩
    exact ⟨e, (entryAt_take hcommit).trans he, hs⟩
  · show a.state.committableIndices.rdropWhile (· > k) = (signatures (a.ledger.take k)).filter (a.state.commitIdx < ·)
    have hsorted := (signatures_sorted a.ledger).sublist (filter_sublist (p := (a.state.commitIdx < ·)))
    rw [h.committable_eq, rdropWhile_gt_eq_filter (f := fun x => x) hsorted, signatures_take, filter_comm]
  · show a.configurations.rdropWhile (·.idx > k) =
      popConfigurations a.state.commitIdx (configurationsOf (a.ledger.take k))
    have hsorted := (configurationsOf_sorted a.ledger).sublist
      (popConfigurations_suffix a.state.commitIdx _).sublist
    rw [configurationsOf_take, popConfigurations_filter hcommit (configurationsOf_sorted a.ledger),
      h.configurations_eq, ← rdropWhile_gt_eq_filter hsorted]
  · exact fun c hc => h.knows.known c (( rdropWhile_prefix _ _).subset hc)
  · show a.state.retirement.cut k = retirementAt (a.ledger.take k) a.state.commitIdx a.state.commitIdx a.state.nodeId
    rw [retirementAt_take hcommit hcommit, h.retirement_eq]
    rfl
  · exact h.idle.of_retirement rfl cut_retiredCommitted

end Ccf.Aft
