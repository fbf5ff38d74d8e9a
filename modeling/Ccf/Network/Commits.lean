import Ccf.Aft.Quorum
import Ccf.Network.Sending

/-! # Commits

The index a leader commits has been acknowledged by a majority of each of its active configurations, so a
commit of a leader is one of the protocol; a follower commits what its leader says is committed. -/

namespace Ccf

open List SignedRaft ViewHistory

/-- The node can be reached in the protocol from `s` by steps of `i`. -/
def Reaches (g : Genesis) (m : Mode NodeId) (s : Sys NodeId Entry) (i : NodeId) (a : Aft) : Prop :=
  ∃ s', Steps g.proto m i s s' ∧ Sim g m s' i a

variable {g : Genesis} {m : Mode NodeId} {s s' : Sys NodeId Entry} {i n : NodeId} {a b : Aft} {c x : ℕ}

theorem Sim.reaches (h : Sim g m s i a) : Reaches g m s i a := ⟨s, .refl, h⟩

theorem Reaches.of_steps (hsteps : Steps g.proto m i s s') (h : Reaches g m s' i a) : Reaches g m s i a := by
  obtain ⟨s'', hs, hsim⟩ := h
  exact ⟨s'', hsteps.trans hs, hsim⟩

theorem Sim.nodeId_eq (h : Sim g m s i a) : a.state.nodeId = i := h.tells.nodeId_eq

theorem Sim.leader_eq (h : Sim g m s i a) (hlead : a.isLeader) : s.leader (s.view i) = some i := by
  rw [h.view_eq]
  exact (h.tells.speaks hlead).leader_eq

theorem Sim.coherent (h : Sim g m s i a) (hinv : Inv g.proto m s) : g.proto.Coherent s.tl a.ledger :=
  h.log_eq ▸ hinv.log_coherent i

theorem Sim.genesis_prefix (h : Sim g m s i a) (hinv : Inv g.proto m s) (hlen : g.log.length ≤ a.ledger.length) :
    g.log <+: a.ledger :=
  (hinv.genesis_of_le_length (h.coherent hinv) (h.log_eq ▸ hinv.log_le i) hlen).2

/-! ### The effects of a commit -/

/-- A node whose commit index is raised, both in the protocol and by `commit`. -/
theorem Shadows.settle (h : Shadows g m s i a) (hl : Later s s') (hleader : s'.leader = s.leader) (htl : s'.tl = s.tl)
    (hview : s'.view i = s.view i) (hlog : s'.log i = s.log i) (hcands : s'.cands = s.cands)
    (hvotes : s'.votes = s.votes) (hcommit : s'.commit i = b.state.commitIdx)
    (hle : a.state.commitIdx ≤ b.state.commitIdx) (hst : Aft.Settles a b) (htr : Aft.Tracks b)
    (hcand : a.state.leadershipState ≠ .candidate)
    (hproven : b.isLeader → m.strict → s'.Committed (b.ledger.take b.state.commitIdx) b.state.currentView) :
    Shadows g m s' i b := by
  have hlead : b.isLeader → a.isLeader := by
    intro hb
    rcases hst.leadership with heq | hnone
    · exact heq.symm.trans hb
    · cases hnone.symm.trans hb
  have hlast : b.state.lastIdx = a.state.lastIdx := by
    rw [htr.last_eq, hst.ledger_eq, h.tracks.last_eq]
  refine ⟨⟨⟨hst.nodeId_eq.trans h.tells.nodeId_eq, fun hmem => h.tells.self_not_mem (map_subset _ hst.nodes_sub hmem),
    by rw [hst.batchSize_eq]; exact h.tells.batch_pos, fun p hp => ?_, fun hb => ?_⟩, fun hb p hp _ => ?_⟩,
    by rw [hview, h.view_eq, hst.view_eq], by rw [hlog, h.log_eq, hst.ledger_eq], hcommit, htr, fun hp => ?_,
    fun hc => ?_, fun hu => ⟨fun vt hvt hvoter hterm => ?_, fun c hc hnode hterm => ?_⟩⟩
  · rcases hst.outbox p hp with hp | ⟨hdst, r, hmsg⟩
    · obtain ⟨hne, hj⟩ := h.tells.outbox p hp
      exact ⟨hne, hj.later hl⟩
    · refine ⟨fun heq => h.tells.self_not_mem (heq ▸ hdst), ?_⟩
      rw [hmsg]
      trivial
  · have hs := h.tells.speaks (hlead hb)
    refine ⟨?_, ?_, ?_, ?_, hs.commit_ge.trans hle, htr.commit_le, hproven hb, fun hret => ?_, htr.wf,
      fun p hp hpos => ?_⟩
    · rw [hst.view_eq, hleader]
      exact hs.leader_eq
    · rw [hst.view_eq, hst.ledger_eq, htl]
      exact hs.tl_eq
    · exact htr.last_eq
    · unfold Aft.Recorded
      rw [hst.history_eq, hst.ledger_eq]
      exact hs.recorded
    · have hidle := htr.idle hret
      have hb' : b.state.leadershipState = .leader := hb
      rw [hb'] at hidle
      rcases hidle with hidle | hidle <;> cases hidle
    · rw [hst.view_eq]
      exact hl.acks_sub (hs.acks p (hst.nodes_sub hp) hpos)
  · rw [hlast]
    exact h.tells.sent (hlead hb) p (hst.nodes_sub hp) (by simp)
  · rcases hst.leadership with heq | hnone
    · exact (h.preVote (heq.symm.trans hp)).trans hle
    · cases hnone.symm.trans hp
  · rcases hst.leadership with heq | hnone
    · exact absurd (heq.symm.trans hc) hcand
    · cases hnone.symm.trans hc
  · rw [hst.votedFor_eq]
    exact (h.voted hu).vote vt (hvotes ▸ hvt) hvoter (hterm.trans hst.view_eq)
  · rw [hst.votedFor_eq, hst.view_eq, hleader]
    exact (h.voted hu).own c (hcands ▸ hc) hnode (hterm.trans hst.view_eq)

/-- Raising the commit index keeps the rest of the relation. -/
theorem Sim.settled (h : Sim g m s i a) (hb : Shadows g m s' i b) (hst : Aft.Settles a b)
    (hle : a.state.commitIdx ≤ b.state.commitIdx) : Sim g m s' i b := by
  refine ⟨hb, ?_, fun hlen => ?_, fun ht => ?_⟩
  · unfold Aft.Recorded
    rw [hst.history_eq, hst.ledger_eq]
    exact h.recorded
  · rw [hst.ledger_eq] at hlen
    exact (h.covered hlen).trans hle
  · rw [hst.ticking_eq] at ht
    exact (h.ticking ht).trans hle

theorem Shadows.commit_follower (h : Shadows g m s i a) (hcand : a.state.leadershipState ≠ .candidate)
    (hlead : ¬a.isLeader) (hc : c ∈ a.state.committableIndices)
    (hstrict : m.strict → s.Committed (a.ledger.take c) a.state.currentView) :
    ∃ b s', a.commit c = .ok b ∧ Steps g.proto m i s s' ∧ Shadows g m s' i b ∧ Aft.Settles a b ∧
      a.state.commitIdx ≤ b.state.commitIdx := by
  obtain ⟨hsig, hlt⟩ := h.tracks.mem_committable.1 hc
  obtain ⟨b, hb, htr, hst, hcommit⟩ := Aft.commit_spec h.tracks hc
  have hstep : Step g.proto m i s { s with commit := Function.update s.commit i c } := by
    refine .commitFollower c (by rw [h.commit_eq]; exact hlt.le) ?_ fun hm => ?_
    · rw [h.log_eq]
      exact Aft.SignedAt.le_length hsig
    · rw [h.log_eq, h.view_eq]
      exact hstrict hm
  refine ⟨b, _, hb, .single hstep, ?_, hst, by omega⟩
  refine h.settle ⟨fun _ _ h => h, fun _ => prefix_rfl, subset_rfl, subset_rfl, subset_rfl, subset_rfl⟩ rfl rfl rfl
    rfl rfl rfl ?_ (by omega) hst htr hcand fun hb' => ?_
  · rw [hcommit]
    simp
  · rcases hst.leadership with heq | hnone
    · exact absurd (heq.symm.trans hb') hlead
    · cases hnone.symm.trans hb'

/-- A follower commits at most up to the index its leader names. -/
theorem Shadows.commitIfPossible (h : Shadows g m s i a) (hcand : a.state.leadershipState ≠ .candidate)
    (hlead : ¬a.isLeader) {idx : ℕ}
    (hstrict : m.strict → ∀ c ∈ a.state.committableIndices, c ≤ idx →
      s.Committed (a.ledger.take c) a.state.currentView) :
    ∃ b s', a.commitIfPossible idx = .ok b ∧ Steps g.proto m i s s' ∧ Shadows g m s' i b ∧ Aft.Settles a b ∧
      a.state.commitIdx ≤ b.state.commitIdx := by
  unfold Aft.commitIfPossible
  split_ifs
  · split
    · exact ⟨a, s, rfl, .refl, h, Aft.Settles.refl a, le_rfl⟩
    · rename_i c hc
      obtain ⟨hmem, hle⟩ := Aft.findHighestPossibleCommittableIndex_eq_some hc
      exact h.commit_follower hcand hlead hmem fun hm => hstrict hm c hmem hle
  · exact ⟨a, s, rfl, .refl, h, Aft.Settles.refl a, le_rfl⟩

/-! ### Counting acknowledgements -/

/-- `n` has reached index `x`, as far as the leader `a` knows. -/
def HasReached (a : Aft) (x : ℕ) (n : NodeId) : Prop :=
  n = a.state.nodeId ∧ x ≤ a.state.lastIdx ∨ ∃ p ∈ a.allOtherNodes, p.1 = n ∧ x ≤ p.2.matchIdx

theorem hasReached_of_le_matchOf (hpos : 0 < x) (h : x ≤ a.matchOf n) : HasReached a x n := by
  unfold Aft.matchOf at h
  split_ifs at h with hself
  · exact .inl ⟨hself, h⟩
  · cases hlookup : a.allOtherNodes.lookup n with
    | none =>
      rw [hlookup] at h
      exact absurd h (not_le.2 hpos)
    | some ns =>
      rw [hlookup] at h
      exact .inr ⟨_, Assoc.mem_of_lookup hlookup, rfl, h⟩

open Classical in
/-- The nodes that have reached an index that a majority of a configuration has reached are a majority of it. -/
theorem majority_of_reached {c : Configuration} (hnodup : c.nodes.Nodup) (hpos : 0 < x) (h : a.Reached c x)
    {S : Finset NodeId} (hS : ∀ n ∈ c.nodes, HasReached a x n → n ∈ S) : Majority S c.nodes.toFinset := by
  have hsub : (c.nodes.filter (x ≤ a.matchOf ·)).toFinset ⊆ S ∩ c.nodes.toFinset := by
    intro n hn
    rw [mem_toFinset, mem_filter, decide_eq_true_eq] at hn
    exact Finset.mem_inter.2 ⟨hS n hn.1 (hasReached_of_le_matchOf hpos hn.2), mem_toFinset.2 hn.1⟩
  have hcard := Finset.card_le_card hsub
  rw [toFinset_card_of_nodup (hnodup.filter _), ← countP_eq_length_filter] at hcard
  have hquorum := h.trans hcard
  unfold Majority
  rw [toFinset_card_of_nodup hnodup]
  unfold Aft.getQuorum at hquorum
  omega

/-! ### Commits of a leader -/

open Classical in
/-- A leader commits a signature of its view that a majority of every configuration has reached. -/
theorem Sim.commit_leader (h : Sim g m s i a) (hinv : Inv g.proto m s) (hlead : a.isLeader)
    (hc : c ∈ a.state.committableIndices) (hterm : a.getTermInternal c = a.state.currentView)
    (hreached : ∀ conf ∈ a.configurations, a.Reached conf c) :
    Reaches g m s i (a.commit c).state := by
  have hs := h.tells.speaks hlead
  obtain ⟨hsig, hlt⟩ := h.tracks.mem_committable.1 hc
  have hlen : c ≤ a.ledger.length := Aft.SignedAt.le_length hsig
  obtain ⟨b, hb, htr, hst, hcommit⟩ := Aft.commit_spec h.tracks hc
  have htl : s.tl (s.view i) = a.ledger := by rw [h.view_eq, hs.tl_eq]
  let Q : Finset NodeId := (a.configurations.flatMap (·.nodes)).toFinset.filter (HasReached a c ·)
  -- the leader has its own log
  have hack : Step g.proto m i s { s with acks := insert ⟨i, s.view i, c⟩ s.acks } := by
    refine .acked c (by rw [htl]; exact hlen) ?_
    rw [htl, h.log_eq]
    exact take_prefix _ _
  have hstep : Step g.proto m i { s with acks := insert ⟨i, s.view i, c⟩ s.acks }
      { s with
        acks := insert ⟨i, s.view i, c⟩ s.acks
        commit := Function.update s.commit i c
        events := insert ⟨s.view i, c, s.commit i, (s.log i).length, Q⟩ s.events } := by
    refine .commitLeader c Q (h.leader_eq hlead) ?_ ?_ ?_ ?_ ?_ ?_
    · show s.commit i < c
      rw [h.commit_eq]
      exact hlt
    · show g.log.length ≤ s.commit i
      rw [h.commit_eq]
      exact hs.commit_ge
    · show g.proto.SigAt (s.log i) c
      rw [h.log_eq]
      exact (sigAt_iff_signedAt _ _).2 hsig
    · show g.proto.termAt (s.log i) c = s.view i
      rw [h.log_eq, h.view_eq, ← h.recorded.getTermInternal_eq h.tracks.last_eq]
      exact hterm
    · intro n hn
      rcases (Finset.mem_filter.1 hn).2 with ⟨hself, -⟩ | ⟨p, hp, rfl, hle⟩
      · exact ⟨_, Set.mem_insert _ _, by rw [hself]; exact h.nodeId_eq.symm, rfl, le_rfl⟩
      · refine ⟨_, Set.mem_insert_of_mem _ (hs.acks p hp (by omega)), rfl, ?_, hle⟩
        exact h.view_eq.symm
    · show g.proto.Quorate (s.log i) (s.commit i) Q
      rw [h.log_eq, h.commit_eq]
      refine h.tracks.quorate hs.commit_ge (h.genesis_prefix hinv (hs.commit_ge.trans hs.commit_le))
        fun conf hconf => ?_
      refine majority_of_reached (h.tracks.nodup_nodes hconf) (by omega) (hreached conf hconf) fun n hn hr => ?_
      exact Finset.mem_filter.2 ⟨mem_toFinset.2 (mem_flatMap.2 ⟨conf, hconf, hn⟩), hr⟩
  rw [hb, Outcome.state_ok]
  refine ⟨_, .tail (.single hack) hstep, h.settled ?_ hst (by omega)⟩
  refine h.settle ⟨fun _ _ h => h, fun _ => prefix_rfl, Set.subset_insert _ _, subset_rfl, subset_rfl,
    Set.subset_insert _ _⟩ rfl rfl rfl rfl rfl rfl ?_ (by omega) hst htr (fun hcand => by cases hlead.symm.trans hcand)
    fun _ _ => ?_
  · show Function.update s.commit i c i = _
    rw [Function.update_self, hcommit]
  · refine .inr ⟨_, Set.mem_insert _ _, by rw [hst.view_eq]; exact h.view_eq.le, ?_⟩
    show _ <+: (s.tl (s.view i)).take c
    rw [hst.ledger_eq, hcommit, htl]

theorem Sim.updateCommit (h : Sim g m s i a) (hinv : Inv g.proto m s) : Reaches g m s i a.updateCommit.state := by
  unfold Aft.updateCommit
  split_ifs with hlead
  · split
    · exact h.reaches
    · exact h.reaches
    · rename_i agreed hagreed
      split_ifs
      · exact h.reaches
      · split
        · exact h.reaches
        · rename_i c hc
          obtain ⟨hmem, hle⟩ := Aft.findHighestPossibleCommittableIndex_eq_some hc
          split_ifs with hterm
          · exact h.commit_leader hinv hlead hmem hterm
              (((Aft.newAgreementIndex_spec hagreed).2 agreed rfl c).1 hle).2
          · exact h.reaches
  · exact h.reaches

end Ccf
