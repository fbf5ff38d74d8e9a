import Ccf.Network.Commits

/-! # Roles and votes

A node that becomes a follower, moves to another view or votes for a candidate stays related to the
protocol. A vote goes on record unless its candidate has been elected already. -/

namespace Ccf

open SignedRaft ViewHistory

variable {g : Genesis} {m : Mode NodeId} {s s' : Sys NodeId Entry} {i : NodeId} {a b : Aft}

/-! ### Roles -/

variable (h : Sim g m s i a) {T : ℕ}
include h

/-- Beyond its log and its role only what a node tells others matters. -/
theorem Sim.of_tells (htells : Tells g m s i b) (hstate : b.state = a.state)
    (hledger : b.ledger = a.ledger) (hconf : b.configurations = a.configurations) (hvoted : b.votedFor = a.votedFor)
    (hvotes : b.votesForMe = a.votesForMe) (hticking : b.ticking = a.ticking)
    (hkeys : Assoc.keys b.allOtherNodes = Assoc.keys a.allOtherNodes) : Sim g m s i b := by
  refine ⟨⟨htells, by rw [hstate]; exact h.view_eq, by rw [hledger]; exact h.log_eq, by rw [hstate]; exact h.commit_eq,
    ?_, by rw [hstate]; exact h.preVote, fun hc => ?_, fun hu => ⟨?_, ?_⟩⟩, ?_,
    by rw [hledger, hstate]; exact h.covered,
    by rw [hticking, hstate]; exact h.ticking⟩
  · refine h.tracks.of_same ⟨⟨hledger, ?_, ?_, ?_, hconf, ?_⟩, ?_, hkeys⟩ ?_
    · rw [hstate]
    · rw [hstate]
    · rw [hstate]
    · rw [hstate]
    · rw [hstate]
    · unfold Aft.Idle Aft.isRetiredCommitted
      rw [hstate]
      exact h.tracks.idle
  · rw [hstate] at hc
    have hcamp := h.campaigns hc
    refine ⟨by rw [hstate, hledger]; exact hcamp.record, by rw [hstate]; exact hcamp.not_leader, ?_⟩
    rw [hconf, hvotes, hstate]
    exact hcamp.counts
  · rw [hvoted, hstate]
    exact (h.voted hu).vote
  · rw [hvoted, hstate]
    exact (h.voted hu).own
  · unfold Aft.Recorded
    rw [hstate, hledger]
    exact h.recorded

theorem Sim.of_talks (ht : Aft.Talks a b) (htells : Tells g m s i b)
    (hkeys : Assoc.keys b.allOtherNodes = Assoc.keys a.allOtherNodes) : Sim g m s i b := by
  have hvoted := congrArg Aft.votedFor ht
  have hvotes := congrArg Aft.votesForMe ht
  have hticking := congrArg Aft.ticking ht
  exact h.of_tells htells ht.state_eq ht.ledger_eq ht.configurations_eq hvoted hvotes hticking hkeys

theorem Sim.send {dst : NodeId} {msg : Msg} (hne : i ≠ dst) (hmsg : Justified g m s i dst msg) :
    Sim g m s i (a.send dst msg) :=
  h.of_talks (Aft.talks_send a dst msg) (h.tells.send hne hmsg) rfl

omit h

/-- A node that does not lead has only its outgoing messages to account for. -/
theorem Tells.of_not_leader (h : Sends g m s i a) (hl : Later s s') (hlead : ¬b.isLeader)
    (hid : b.state.nodeId = a.state.nodeId) (hkeys : Assoc.keys b.allOtherNodes = Assoc.keys a.allOtherNodes)
    (hbatch : b.entriesBatchSize = a.entriesBatchSize) (hout : b.outbox = a.outbox) : Tells g m s' i b := by
  refine ⟨⟨hid.trans h.nodeId_eq, by rw [hkeys]; exact h.self_not_mem, by rw [hbatch]; exact h.batch_pos,
    fun p hp => ?_, fun hb => absurd hb hlead⟩, fun hb => absurd hb hlead⟩
  rw [hout] at hp
  obtain ⟨hne, hj⟩ := h.outbox p hp
  exact ⟨hne, hj.later hl⟩

theorem Sim.becomeFollower (h : Sim g m s i a) (draw : ℕ) : Sim g m s i (a.becomeFollower draw) := by
  have hlead : ¬(a.becomeFollower draw).isLeader := nofun
  exact ⟨⟨.of_not_leader h.tells.toSends (Later.refl s) hlead rfl (Aft.keys_resetLastAckTimeouts a) rfl rfl, h.view_eq,
    h.log_eq, h.commit_eq, h.tracks.becomeFollower draw, nofun, nofun,
    fun hu => ⟨(h.voted hu).vote, (h.voted hu).own⟩⟩, h.recorded, h.covered, h.ticking⟩

theorem later_bump (s : Sys NodeId Entry) (v : NodeId → ℕ) : Later s { s with view := v } :=
  ⟨fun _ _ h => h, fun _ => List.prefix_rfl, subset_rfl, subset_rfl, subset_rfl, subset_rfl⟩

include h

theorem Sim.becomeAwareOfNewTerm (draw : ℕ) (hT : a.state.currentView ≤ T)
    (hvoted : m.unique → (∀ vt ∈ s.votes, vt.voter = i → vt.term ≠ T) ∧
      ∀ c ∈ s.cands, c.node = i → c.term = T → ∃ L, s.leader T = some L ∧ L ≠ i) :
    ∃ s', Step g.proto m i s s' ∧ Later s s' ∧ Sim g m s' i (a.becomeAwareOfNewTerm draw T) := by
  have hlead : ¬(a.becomeAwareOfNewTerm draw T).isLeader := nofun
  refine ⟨_, .bump T (by rw [h.view_eq]; exact hT), later_bump s _, ?_⟩
  refine ⟨⟨.of_not_leader h.tells.toSends (later_bump s _) hlead rfl (Aft.keys_resetLastAckTimeouts a) rfl rfl, ?_,
    h.log_eq, h.commit_eq, h.tracks.becomeAwareOfNewTerm draw T, nofun, nofun,
    fun hu => ⟨fun vt hvt hvoter hterm => ?_, fun c hc hnode hterm => ?_⟩⟩, h.recorded, h.covered, h.ticking⟩
  · show Function.update s.view i T i = T
    rw [Function.update_self]
  · exact absurd hterm ((hvoted hu).1 vt hvt hvoter)
  · exact .inr ((hvoted hu).2 c hc hnode hterm)

/-- A later view has no votes and no candidacy of the node yet. -/
theorem Sim.becomeAwareOfLaterTerm (hinv : Inv g.proto m s) (draw : ℕ) (hT : a.state.currentView < T) :
    ∃ s', Step g.proto m i s s' ∧ Later s s' ∧ Sim g m s' i (a.becomeAwareOfNewTerm draw T) := by
  refine h.becomeAwareOfNewTerm draw hT.le fun _ => ⟨fun vt hvt hvoter hterm => ?_, fun c hc hnode hterm => ?_⟩
  · have := hinv.vote_view vt hvt
    rw [hvoter, h.view_eq] at this
    omega
  · have := hinv.cand_view c hc
    rw [hnode, h.view_eq] at this
    omega

omit h

/-! ### Granting votes -/

variable {source : NodeId} {electionType : ElectionType} {r : RequestVote}

include h

theorem Sim.sendRequestVoteResponse (hne : i ≠ source) {answer : Bool}
    (hans : electionType = .regularVote → answer = true → s.leader a.state.currentView = some source ∨
      ∃ vt ∈ s.votes, vt.term = a.state.currentView ∧ vt.voter = i ∧ vt.node = source) :
    Sim g m s i (a.sendRequestVoteResponse source answer electionType) := by
  refine h.send hne ?_
  cases electionType with
  | preVote => trivial
  | regularVote => exact fun hgranted => hans rfl hgranted

/-- The vote of a node, unless the candidate has been elected already, goes on record. -/
theorem Sim.voteFor (draw : ℕ) (hne : i ≠ source) (hr : Justified g m s source i (.requestVote r .regularVote))
    (hterm : r.term = a.state.currentView) (hgrant : a.grantVote source r .regularVote) :
    ∃ s', Steps g.proto m i s s' ∧ Sim g m s' i (a.voteFor draw source) ∧
      (s'.leader a.state.currentView = some source ∨
        ∃ vt ∈ s'.votes, vt.term = a.state.currentView ∧ vt.voter = i ∧ vt.node = source) := by
  obtain ⟨c, hc, hcterm, hcnode, hidx, htermOf⟩ := hr
  obtain ⟨-, hvote, hup⟩ := hgrant
  have hvote' : a.votedFor = none ∨ a.votedFor = some source := by
    by_contra hcon
    rw [not_or] at hcon
    exact hvote ⟨rfl, Option.isSome_iff_ne_none.2 hcon.1, hcon.2⟩
  have hown : m.unique → ∀ c' ∈ s.cands, c'.node = i → c'.term = a.state.currentView →
      ∃ L, s.leader a.state.currentView = some L ∧ L ≠ i := by
    intro hu c' hc' hnode' hterm'
    refine ((h.voted hu).own c' hc' hnode' hterm').resolve_left fun hself => ?_
    rcases hvote' with hnone | hsome
    · rw [hnone] at hself
      cases hself
    · exact hne (Option.some.inj (hself.symm.trans hsome))
  have hvotes : m.unique → ∀ vt ∈ s.votes, vt.voter = i → vt.term = a.state.currentView → vt.node = source := by
    intro hu vt hvt hvoter hterm'
    have hsome := (h.voted hu).vote vt hvt hvoter hterm'
    rcases hvote' with hnone | hsource
    · rw [hnone] at hsome
      cases hsome
    · exact Option.some.inj (hsome.symm.trans hsource)
  -- `votedFor` is changed, the rest of the node is as before
  have hsim : ∀ {s' : Sys NodeId Entry}, Later s s' → s'.view = s.view → s'.log = s.log → s'.commit = s.commit →
      s'.leader = s.leader → s'.tl = s.tl → s'.cands = s.cands →
      (∀ vt ∈ s'.votes, vt ∈ s.votes ∨ vt.node = source) → Sim g m s' i (a.voteFor draw source) := by
    intro s' hl hview hlog hcommit hleader htl hcands hnew
    have htells : Tells g m s' i a := h.tells.later hl fun hlead => by
      rw [htl]
      exact (h.tells.speaks hlead).tl_eq
    refine ⟨⟨htells.adjust rfl rfl (List.Subset.refl _) rfl htells.batch_pos fun hlead p hp => htells.nodeOk hlead hp,
      by rw [hview]; exact h.view_eq, by rw [hlog]; exact h.log_eq, by rw [hcommit]; exact h.commit_eq,
      { h.tracks with knows := { h.tracks.knows with } }, h.preVote, fun hcand => ?_,
      fun hu => ⟨fun vt hvt hvoter hterm' => ?_, fun c' hc' hnode' hterm' => ?_⟩⟩, h.recorded, h.covered, h.ticking⟩
    · have hcamp := (h.campaigns hcand).later hl fun hlead => by rwa [hleader] at hlead
      exact ⟨hcamp.record, hcamp.not_leader, hcamp.counts⟩
    · show some source = some vt.node
      rcases hnew vt hvt with hold | heq
      · rw [hvotes hu vt hold hvoter hterm']
      · rw [heq]
    · rw [hcands] at hc'
      right
      show ∃ L, s'.leader a.state.currentView = some L ∧ L ≠ i
      rw [hleader]
      exact hown hu c' hc' hnode' hterm'
  by_cases hleader : s.leader a.state.currentView = some source
  · exact ⟨s, .refl, hsim (Later.refl s) rfl rfl rfl rfl rfl rfl fun vt hvt => .inl hvt, .inl hleader⟩
  · have hcview : c.term = s.view i := by rw [hcterm, hterm, h.view_eq]
    have hupto : g.proto.UpToDate c.log (s.log i) := by
      unfold Proto.UpToDate
      rw [h.log_eq, h.tracks.lastSig_eq, ← h.recorded.getTermInternal_eq h.tracks.last_eq, ← htermOf, ← hidx]
      refine hup.imp id ?_
      rintro ⟨h1, h2⟩
      exact ⟨h1.symm, h2⟩
    have hstep : Step g.proto m i s { s with votes := insert ⟨c.term, i, c.node, s.log i⟩ s.votes } := by
      refine .grant c hc hcview (by rw [hcnode]; exact hne) ?_ hupto fun hu => ⟨fun vt hvt hvt' hvoter => ?_,
        fun c' hc' hct hcn => ?_⟩
      · rw [hcview, h.view_eq, hcnode]
        exact hleader
      · rw [hcnode]
        exact hvotes hu vt hvt hvoter (by rw [hvt', hcview, h.view_eq])
      · obtain ⟨L, hL, hLne⟩ := hown hu c' hc' hcn (by rw [hct, hcview, h.view_eq])
        refine ⟨L, by rw [hcview, h.view_eq]; exact hL, hLne, ?_⟩
        rintro rfl
        exact hleader (by rw [hL, hcnode])
    refine ⟨_, .single hstep, hsim ⟨fun _ _ h => h, fun _ => List.prefix_rfl, subset_rfl, subset_rfl,
      Set.subset_insert _ _, subset_rfl⟩ rfl rfl rfl rfl rfl rfl fun vt hvt => ?_,
      .inr ⟨_, Set.mem_insert _ _, ?_, rfl, hcnode⟩⟩
    · rcases Set.mem_insert_iff.1 hvt with rfl | hvt
      · exact .inr hcnode
      · exact .inl hvt
    · exact hcview.trans h.view_eq

theorem Sim.answerRequestVote (draw : ℕ) (hne : i ≠ source)
    (hr : Justified g m s source i (.requestVote r electionType)) (hterm : r.term = a.state.currentView) :
    Reaches g m s i (a.answerRequestVote draw source r electionType) := by
  unfold Aft.answerRequestVote
  split_ifs with hgrant hregular
  · subst hregular
    obtain ⟨s', hsteps, hsim, hvote⟩ := h.voteFor draw hne hr hterm hgrant
    exact ⟨s', hsteps, hsim.sendRequestVoteResponse hne fun _ _ => hvote⟩
  · exact (h.sendRequestVoteResponse hne fun heq => absurd heq hregular).reaches
  · exact (h.sendRequestVoteResponse hne fun _ hfalse => (by cases hfalse)).reaches

theorem Sim.recvRequestVoteUnsafe (hinv : Inv g.proto m s) (draw : ℕ) (hne : i ≠ source)
    (hr : Justified g m s source i (.requestVote r electionType)) :
    Reaches g m s i (a.recvRequestVoteUnsafe draw source r electionType) := by
  unfold Aft.recvRequestVoteUnsafe
  split_ifs with hlate hlt
  · exact (h.sendRequestVoteResponse hne fun _ hfalse => (by cases hfalse)).reaches
  · obtain ⟨s', hstep, hl, hsim⟩ := h.becomeAwareOfLaterTerm hinv draw hlt
    exact (hsim.answerRequestVote draw hne (hr.later hl) rfl).of_steps (.single hstep)
  · exact h.answerRequestVote draw hne hr (by omega)

omit h

end Ccf
