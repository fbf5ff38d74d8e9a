import Ccf.Network.Elections

/-! # Winning an election

The votes a candidate counts are on record, so that when it has a quorum in each of its configurations it can be
elected. That no one else was elected in the same view follows from the records when votes are unique, and has to be
known otherwise. The operations that may end in an election assume that the node `MayLead` in the view it then leads.
-/

namespace Ccf

open Aft List Function Outcome SignedRaft ViewHistory

variable {g : Genesis} {m : Mode NodeId} {s s' : Sys NodeId Entry} {i source n q : NodeId} {a b : Aft}
  {c c' : Configuration} {x : ℕ}

/-! ### Counting votes -/

/-- The active configurations are told apart by their indices. -/
theorem Aft.Tracks.configuration_ext (h : Aft.Tracks a) (hc : c ∈ a.configurations)
    (hc' : c' ∈ a.configurations) (hidx : c.idx = c'.idx) : c = c' := by
  have hsorted : a.configurations.Pairwise (·.idx < ·.idx) := by
    rw [h.configurations_eq]
    exact (configurationsOf_sorted a.ledger).sublist (popConfigurations_suffix _ _).sublist
  have hnodup : (a.configurations.map (·.idx)).Nodup := pairwise_map.2 (hsorted.imp fun hlt => hlt.ne)
  exact inj_on_of_nodup_map hnodup hc hc' hidx

/-- A vote that is on record may be counted in every configuration of the voter. -/
theorem Campaigns.recordVote (h : Campaigns s i a) (htr : Aft.Tracks a)
    (hvote : Backs s i a.state.currentView source) : Campaigns s i (a.recordVote source) :=
  ⟨h.record, h.not_leader, fun c hc => (h.counts c hc).recordVote hvote fun _ hd => htr.configuration_ext hd hc⟩

open Classical in
/-- The nodes of the active configurations that support `i`. -/
noncomputable def backers (s : Sys NodeId Entry) (i : NodeId) (a : Aft) : Finset NodeId :=
  (a.configurations.flatMap (·.nodes)).toFinset.filter (Backs s i a.state.currentView)

theorem mem_backers :
    q ∈ backers s i a ↔ (∃ c ∈ a.configurations, q ∈ c.nodes) ∧ Backs s i a.state.currentView q := by
  simp [backers]

/-- A node that is elected has a majority in every active configuration. -/
theorem Campaigns.majority (h : Campaigns s i a) (htr : Aft.Tracks a) (helected : a.isElected)
    (hc : c ∈ a.configurations) : Majority (backers s i a) c.nodes.toFinset := by
  obtain ⟨votes, hnodup, hvotes, hmany⟩ := (h.counts c hc).majority helected
  have hsub : votes.toFinset ⊆ backers s i a ∩ c.nodes.toFinset := by
    intro q hq
    obtain ⟨hmem, hbacks⟩ := hvotes q (mem_toFinset.1 hq)
    exact Finset.mem_inter.2 ⟨mem_backers.2 ⟨⟨c, hc, hmem⟩, hbacks⟩, mem_toFinset.2 hmem⟩
  have hcard := Finset.card_le_card hsub
  rw [toFinset_card_of_nodup hnodup] at hcard
  unfold Majority
  rw [toFinset_card_of_nodup (htr.nodup_nodes hc)]
  omega

theorem Sim.recordVote (h : Sim g m s i a)
    (hvote : a.state.leadershipState = .candidate → Backs s i a.state.currentView source) :
    Sim g m s i (a.recordVote source) :=
  ⟨⟨h.tells.adjust rfl rfl (List.Subset.refl _) rfl h.tells.batch_pos fun hlead _ => h.tells.nodeOk hlead, h.view_eq,
    h.log_eq, h.commit_eq, h.tracks.recordVote source, h.preVote,
    fun hc => (h.campaigns hc).recordVote h.tracks (hvote hc), fun hu => ⟨(h.voted hu).vote, (h.voted hu).own⟩⟩,
    h.recorded, h.covered, h.ticking⟩

/-! ### Asking for votes -/

theorem mem_otherNodesInActiveConfigs :
    n ∈ a.otherNodesInActiveConfigs ↔ n ≠ a.state.nodeId ∧ ∃ c ∈ a.configurations, n ∈ c.nodes := by
  have main : ∀ l acc : List NodeId,
      n ∈ l.foldl (fun s n => if n = a.state.nodeId ∨ n ∈ s then s else s ++ [n]) acc ↔
        n ∈ acc ∨ n ≠ a.state.nodeId ∧ n ∈ l := by
    intro l
    induction l with
    | nil => simp
    | cons x l ih =>
      intro acc
      rw [foldl_cons, ih]
      by_cases hx : x = a.state.nodeId ∨ x ∈ acc
      · rw [if_pos hx]
        refine ⟨fun h => h.imp_right fun h => ⟨h.1, mem_cons_of_mem _ h.2⟩, ?_⟩
        rintro (h | ⟨hne, hmem⟩)
        · exact .inl h
        · rcases mem_cons.1 hmem with rfl | hmem
          · exact .inl (hx.resolve_left hne)
          · exact .inr ⟨hne, hmem⟩
      · rw [if_neg hx, mem_append, mem_singleton, mem_cons]
        rw [not_or] at hx
        refine ⟨?_, ?_⟩
        · rintro ((h | rfl) | ⟨hne, hmem⟩)
          · exact .inl h
          · exact .inr ⟨hx.1, .inl rfl⟩
          · exact .inr ⟨hne, .inr hmem⟩
        · rintro (h | ⟨hne, rfl | hmem⟩)
          · exact .inl (.inl h)
          · exact .inl (.inr rfl)
          · exact .inr ⟨hne, hmem⟩
  unfold otherNodesInActiveConfigs
  rw [main]
  simp

/-- The candidacy of `a` in its view is on record, with the last signature `a` has. -/
def Stands (g : Genesis) (s : Sys NodeId Entry) (i : NodeId) (a : Aft) : Prop :=
  ∃ c ∈ s.cands, c.term = a.state.currentView ∧ c.node = i ∧ a.lastCommittableIndex = g.proto.lastSig c.log ∧
    a.getTermInternal a.lastCommittableIndex = g.proto.termAt c.log (g.proto.lastSig c.log)

theorem Sim.stands (h : Sim g m s i a) (hcand : a.state.leadershipState = .candidate) : Stands g s i a := by
  refine ⟨_, (h.campaigns hcand).record, rfl, rfl, h.tracks.lastSig_eq.symm, ?_⟩
  rw [h.recorded.getTermInternal_eq (g := g) h.tracks.last_eq, h.tracks.lastSig_eq]

theorem Sim.sendRequestVotes (h : Sim g m s i a) {electionType : ElectionType}
    (hstands : electionType = .regularVote → Stands g s i a) :
    Sim g m s i (a.sendRequestVotes electionType).state := by
  have hmsg : ∀ dst, Justified g m s i dst (.requestVote
      { term := a.state.currentView
        lastCommittableIdx := a.lastCommittableIndex
        termOfLastCommittableIdx := a.getTermInternal a.lastCommittableIndex } electionType) := by
    intro dst
    cases electionType with
    | preVote => trivial
    | regularVote => exact hstands rfl
  have hne : ∀ n ∈ a.otherNodesInActiveConfigs, i ≠ n := fun n hn heq =>
    (mem_otherNodesInActiveConfigs.1 hn).1 (heq.symm.trans h.nodeId_eq.symm)
  unfold Aft.sendRequestVotes
  split_ifs
  · exact h
  generalize Msg.requestVote _ electionType = msg at hmsg ⊢
  generalize a.otherNodesInActiveConfigs = l at hne ⊢
  clear * - h hmsg hne
  induction l generalizing a with
  | nil => exact h
  | cons n l ih =>
    exact ih (h.send (hne n mem_cons_self) (hmsg n)) fun x hx => hne x (mem_cons_of_mem _ hx)

/-! ### A leader on its own -/

theorem watermark_alone (hne : c.nodes ≠ []) (hself : ∀ n ∈ c.nodes, n = a.state.nodeId) :
    a.watermark c = .ok a.state.lastIdx := by
  have hmatch : ∀ l : List NodeId, (∀ n ∈ l, n = a.state.nodeId) →
      a.matchIndices l = some (List.replicate l.length a.state.lastIdx) := by
    intro l
    induction l with
    | nil => exact fun _ => rfl
    | cons n l ih =>
      intro hl
      unfold matchIndices
      rw [if_pos (hl n mem_cons_self), ih fun n' hn' => hl n' (mem_cons_of_mem _ hn')]
      rfl
  have hpos := length_pos_iff.2 hne
  unfold watermark
  rw [hmatch c.nodes hself]
  dsimp only
  split
  · rename_i hnone
    rw [getElem?_eq_none_iff, length_insertionSort, length_replicate] at hnone
    omega
  · rename_i x hx
    have hmem := (mem_insertionSort _).1 (mem_of_getElem? hx)
    rw [eq_of_mem_replicate hmem]

theorem newAgreementIndex_alone {confs : List Configuration} (h : ∀ c ∈ confs, a.watermark c = .ok x)
    {acc : Option ℕ} (hacc : ∀ y, acc = some y → y = x) :
    ∃ r, a.newAgreementIndex confs acc = .ok r ∧ ∀ y, r = some y → y = x := by
  induction confs generalizing acc with
  | nil => exact ⟨acc, rfl, hacc⟩
  | cons c confs ih =>
    have hrest := fun d hd => h d (mem_cons_of_mem _ hd)
    unfold newAgreementIndex
    rw [h c mem_cons_self]
    cases acc with
    | none => exact ih hrest fun y hy => (Option.some.inj hy).symm
    | some z =>
      refine ih hrest fun y hy => ?_
      rw [hacc z rfl] at hy
      simpa using hy.symm

/-- A leader that is alone, and has no signature of its view yet, commits nothing. -/
theorem updateCommit_alone (hlead : a.isLeader) (hne : ∀ c ∈ a.configurations, c.nodes ≠ [])
    (hself : a.otherNodesInActiveConfigs = [])
    (hold : ∀ c ∈ a.state.committableIndices, a.getTermInternal c ≠ a.state.currentView) : a.updateCommit = .ok a := by
  have hmark : ∀ c ∈ a.configurations, a.watermark c = .ok a.state.lastIdx := by
    refine fun c hc => watermark_alone (hne c hc) fun n hn => ?_
    by_contra hother
    have := mem_otherNodesInActiveConfigs.2 ⟨hother, c, hc, hn⟩
    rw [hself] at this
    cases this
  have hnone : ∀ y : ℕ, none = some y → y = a.state.lastIdx := nofun
  obtain ⟨r, hr, hx⟩ := newAgreementIndex_alone hmark hnone
  unfold updateCommit
  rw [if_neg (not_not.2 hlead), hr]
  cases r with
  | none => rfl
  | some agreed =>
    dsimp only
    rw [hx agreed rfl, if_neg (lt_irrefl _)]
    split
    · rfl
    · rename_i c hc
      rw [if_neg (hold c (findHighestPossibleCommittableIndex_eq_some hc).1)]

theorem startLeadership_eq (hlead : a.isLeader) (hne : ∀ c ∈ a.configurations, c.nodes ≠ [])
    (hold : ∀ c ∈ a.state.committableIndices, a.getTermInternal c ≠ a.state.currentView) :
    a.startLeadership = .ok a.announceLeadership := by
  unfold startLeadership
  split_ifs with hself
  · rw [updateCommit_alone hlead hne hself hold, Outcome.andThen_ok]
  · rw [Outcome.andThen_ok]

/-! ### Winning an election -/

section

variable (h : Sim g m s i a) (hinv : Inv g.proto m s) (hcand : a.state.leadershipState = .candidate)

include h hcand

theorem Sim.candidate_active : ¬a.isRetiredCommitted := by
  intro hret
  have hidle := h.tracks.idle hret
  rw [hcand] at hidle
  rcases hidle with hidle | hidle <;> cases hidle

include hinv

theorem Sim.candidate_commit : g.log.length ≤ a.state.commitIdx :=
  (hinv.cand_commit _ (h.campaigns hcand).record).1

theorem Sim.candidate_views {n : ℕ} (hn : 0 < n) (hle : n ≤ a.ledger.length) :
    g.proto.termAt a.ledger n < a.state.currentView := by
  obtain ⟨e, he, hterm⟩ := Proto.termAt_mem (P := g.proto) hn hle
  rw [hterm]
  exact hinv.cand_lt _ (h.campaigns hcand).record e he

/-- The log a new leader keeps ends with its last signature. -/
theorem Sim.discardUncommittable_eq : a.discardUncommittable = { a with
        ledger := a.ledger.take (g.proto.lastSig a.ledger)
        state := State.setRetirement
          { a.state with
            lastIdx := g.proto.lastSig a.ledger
            viewHistory := a.state.viewHistory.rollback (g.proto.lastSig a.ledger)
            committableIndices := a.state.committableIndices.rdropWhile (· > g.proto.lastSig a.ledger) }
          (a.state.retirement.cut (g.proto.lastSig a.ledger))
        configurations := a.configurations.rdropWhile (·.idx > g.proto.lastSig a.ledger) } ∧
      a.state.commitIdx ≤ g.proto.lastSig a.ledger := by
  have hgen := h.candidate_commit hinv hcand
  rw [g.length_log] at hgen
  have hcommit : a.state.commitIdx ≤ g.proto.lastSig a.ledger := by
    rcases h.tracks.commit_signed with hzero | hsigned
    · omega
    · exact ((sigAt_iff_signedAt _ _).2 hsigned).le_lastSig
  refine ⟨?_, hcommit⟩
  unfold discardUncommittable
  rw [if_pos (by omega), ← h.tracks.lastSig_eq (g := g)]
  exact rollback_eq h.tracks hcommit

/-- The election of a candidate that has counted enough votes. -/
theorem Sim.elect (helected : a.isElected) (hmay : m.elects a.state.currentView i) :
    s.leader a.state.currentView = none ∧ Step g.proto m i s { s with
      leader := update s.leader (s.view i) (some i)
      log := update s.log i ((s.log i).take (g.proto.lastSig (s.log i)))
      tl := update s.tl (s.view i) ((s.log i).take (g.proto.lastSig (s.log i))) } := by
  have hcamp := h.campaigns hcand
  have hcommit := h.candidate_commit hinv hcand
  have hle := h.tracks.commit_le
  have hsup : s.Supports a.state.currentView i (backers s i a) := fun q hq => (mem_backers.1 hq).2
  have hquorate : g.proto.Quorate a.ledger a.state.commitIdx (backers s i a) :=
    h.tracks.quorate hcommit (h.genesis_prefix hinv (hcommit.trans hle)) fun c hc => hcamp.majority h.tracks helected hc
  have hfree : s.leader a.state.currentView = none := by
    by_contra hsome
    obtain ⟨L, hL⟩ := Option.ne_none_iff_exists'.1 hsome
    have hself : L = i := by
      rcases m.alone with ⟨hs, hu⟩ | halone
      · exact hinv.leader_of_cert hs hu ⟨hcamp.record, hsup, hquorate⟩ hL
      · exact halone _ _ _ (hinv.leader_elects _ _ hL) hmay
    exact hcamp.not_leader (hself ▸ hL)
  refine ⟨hfree, ?_⟩
  refine .elect (backers s i a) ?_ ?_ ?_ ?_ ?_ ?_
  · rw [h.view_eq, h.log_eq, h.commit_eq]
    exact hcamp.record
  · rw [h.view_eq]
    exact hsup
  · rw [h.log_eq, h.commit_eq]
    exact hquorate
  · rw [h.view_eq]
    exact hfree
  · rw [h.log_eq, h.commit_eq]
    exact (h.discardUncommittable_eq hinv hcand).2
  · rw [h.view_eq]
    exact hmay

theorem Sim.ledger_takeLeadership :
    a.discardUncommittable.takeLeadership.ledger = a.ledger.take (g.proto.lastSig a.ledger) := by
  rw [(h.discardUncommittable_eq hinv hcand).1]
  rfl

theorem Sim.recorded_takeLeadership : a.discardUncommittable.takeLeadership.Recorded := by
  have hcut := Faithful.rollback h.recorded (k := g.proto.lastSig a.ledger)
    (by rw [length_map]; exact Proto.lastSig_le _)
  unfold Aft.Recorded
  rw [h.ledger_takeLeadership hinv hcand, map_take, (h.discardUncommittable_eq hinv hcand).1]
  exact hcut

/-- A candidate with enough votes becomes leader without committing anything. -/
theorem Sim.becomeLeader_eq (helected : a.isElected) :
    a.becomeLeader = .ok a.discardUncommittable.takeLeadership.announceLeadership := by
  have hactive := h.candidate_active hcand
  obtain ⟨hd, -⟩ := h.discardUncommittable_eq hinv hcand
  have htracks := h.tracks.discardUncommittable.takeLeadership fun hret =>
    hactive (discardUncommittable_isRetiredCommitted h.tracks hret)
  have hcur : a.discardUncommittable.takeLeadership.state.currentView = a.state.currentView := by rw [hd]; rfl
  have hledger := h.ledger_takeLeadership hinv hcand
  unfold becomeLeader
  rw [if_neg hactive]
  refine startLeadership_eq rfl (fun c hc hnil => ?_) fun c hc => ?_
  · -- an empty configuration has no quorum
    rw [hd] at hc
    have hmaj := (h.campaigns hcand).majority h.tracks helected (( rdropWhile_prefix _ _).subset hc)
    rw [hnil] at hmaj
    simp [Majority] at hmaj
  · have hsig := (sigAt_iff_signedAt (g := g) _ _).2 (htracks.signedAt hc)
    have hlen := hsig.le_length
    rw [hledger, length_take] at hlen
    rw [(h.recorded_takeLeadership hinv hcand).getTermInternal_eq (g := g) htracks.last_eq, hcur, hledger,
      Proto.termAt_take (by omega)]
    exact (h.candidate_views hinv hcand hsig.pos (by omega)).ne

theorem Sim.becomeLeader_isLeader (helected : a.isElected) :
    a.becomeLeader.state.isLeader ∧ a.becomeLeader.state.state.currentView = a.state.currentView := by
  obtain ⟨hd, -⟩ := h.discardUncommittable_eq hinv hcand
  rw [h.becomeLeader_eq hinv hcand helected, Outcome.state_ok]
  unfold isLeader
  rw [(talks_announceLeadership _).state_eq]
  refine ⟨rfl, ?_⟩
  rw [hd]
  rfl

/-- The node as it starts to lead, before it tells the others. -/
theorem Sim.takeLeadership (hl : Later s s') (hinv' : Inv g.proto m s')
    (hleader : s'.leader = update s.leader (s.view i) (some i))
    (hlog : s'.log = update s.log i ((s.log i).take (g.proto.lastSig (s.log i))))
    (htl : s'.tl = update s.tl (s.view i) ((s.log i).take (g.proto.lastSig (s.log i))))
    (hview : s'.view = s.view) (hcommit : s'.commit = s.commit) (hcands : s'.cands = s.cands)
    (hvotes : s'.votes = s.votes) (hfree : s.leader a.state.currentView = none)
    (hb : a.discardUncommittable.takeLeadership = b) :
    Sim g m s' i { b with allOtherNodes := b.allOtherNodes.map (resetNodeIndices (b.state.lastIdx + 1)) } := by
  obtain ⟨hd, hle⟩ := h.discardUncommittable_eq hinv hcand
  have hgen := h.candidate_commit hinv hcand
  have hold : ¬a.discardUncommittable.isRetiredCommitted := fun hret =>
    h.candidate_active hcand (discardUncommittable_isRetiredCommitted h.tracks hret)
  have hactive : ¬b.isRetiredCommitted := by
    rw [← hb]
    exact hold
  have hkeys : Assoc.keys (b.allOtherNodes.map (resetNodeIndices (b.state.lastIdx + 1))) =
      Assoc.keys b.allOtherNodes := by
    simp [Assoc.keys, resetNodeIndices, comp_def]
  have hkeys' : Assoc.keys b.allOtherNodes = Assoc.keys a.allOtherNodes := by
    rw [← hb, hd]
    exact keys_resetLastAckTimeouts a
  have htracks : Aft.Tracks { b with
      allOtherNodes := b.allOtherNodes.map (resetNodeIndices (b.state.lastIdx + 1)) } := by
    have htr : Aft.Tracks b := hb ▸ h.tracks.discardUncommittable.takeLeadership hold
    exact htr.of_same ⟨⟨rfl, rfl, rfl, rfl, rfl, rfl⟩, rfl, hkeys⟩ fun hret => absurd hret hactive
  have hid : b.state.nodeId = a.state.nodeId := by rw [← hb, hd]; rfl
  have hcur : b.state.currentView = a.state.currentView := by rw [← hb, hd]; rfl
  have hcom : b.state.commitIdx = a.state.commitIdx := by rw [← hb, hd]; rfl
  have hledger : b.ledger = a.ledger.take (g.proto.lastSig a.ledger) := hb ▸ h.ledger_takeLeadership hinv hcand
  have hbatch : b.entriesBatchSize = a.entriesBatchSize := by rw [← hb, hd]; rfl
  have hout : b.outbox = a.outbox := by rw [← hb, hd]; rfl
  have hvoted : b.votedFor = a.votedFor := by rw [← hb, hd]; rfl
  have hrec : b.Recorded := hb ▸ h.recorded_takeLeadership hinv hcand
  have hlead : b.state.leadershipState = .leader := by rw [← hb]; rfl
  have hview' : s'.view i = a.state.currentView := by rw [hview, h.view_eq]
  have hlog' : s'.log i = b.ledger := by rw [hlog, update_self, hledger, h.log_eq]
  have hcommit' : s'.commit i = b.state.commitIdx := by rw [hcommit, h.commit_eq, hcom]
  have hgen' : g.log.length ≤ b.state.commitIdx := by
    rw [hcom]
    exact hgen
  refine ⟨⟨⟨⟨hid.trans h.nodeId_eq, ?_, ?_, fun p hp => ?_, fun _ => ?_⟩, fun _ p hp _ => ?_⟩, hview'.trans hcur.symm,
    hlog', hcommit', htracks, fun hc => (by cases hlead.symm.trans hc), fun hc => (by cases hlead.symm.trans hc),
    fun hu => ⟨fun vt hvt hvoter hterm => ?_, fun c hc hnode hterm => .inl ?_⟩⟩, hrec, fun _ => hgen', fun _ => hgen'⟩
  · show i ∉ Assoc.keys (List.map _ _)
    rw [hkeys, hkeys']
    exact h.tells.self_not_mem
  · show 1 ≤ b.entriesBatchSize
    rw [hbatch]
    exact h.tells.batch_pos
  · rw [hout] at hp
    obtain ⟨hne, hj⟩ := h.tells.outbox p hp
    exact ⟨hne, hj.later hl⟩
  · refine ⟨?_, ?_, htracks.last_eq, hrec, hgen', htracks.commit_le, fun hs => ?_, hactive, htracks.wf,
      fun p hp hpos => ?_⟩
    · show s'.leader b.state.currentView = some i
      rw [hcur, hleader, h.view_eq, update_self]
    · show s'.tl b.state.currentView = b.ledger
      rw [hcur, htl, h.view_eq, update_self, hledger, h.log_eq]
    · show s'.Committed (b.ledger.take b.state.commitIdx) b.state.currentView
      have := hinv'.commit_proven hs i
      rwa [hlog', hcommit', hview', ← hcur] at this
    · obtain ⟨p₀, -, rfl⟩ := mem_map.1 hp
      exact absurd hpos (by simp [resetNodeIndices])
  · obtain ⟨p₀, -, rfl⟩ := mem_map.1 hp
    exact le_rfl
  · show b.votedFor = some vt.node
    rw [hvoted]
    exact (h.voted hu).vote vt (hvotes ▸ hvt) hvoter (hterm.trans hcur)
  · show b.votedFor = some i
    rw [hvoted]
    refine ((h.voted hu).own c (hcands ▸ hc) hnode (hterm.trans hcur)).resolve_right ?_
    rintro ⟨L, hL, -⟩
    rw [hfree] at hL
    cases hL

/-- **The election of a candidate** with enough votes is one of the protocol. -/
theorem Sim.becomeLeader (helected : a.isElected) (hmay : m.elects a.state.currentView i) :
    ∃ s', Step g.proto m i s s' ∧ Sim g m s' i a.becomeLeader.state ∧ Stands g s' i a.becomeLeader.state := by
  obtain ⟨hfree, hstep⟩ := h.elect hinv hcand helected hmay
  have hinv' := hstep.inv hinv
  have hsim := h.takeLeadership hinv hcand (Steps.later hinv (.single hstep)) hinv' rfl rfl rfl rfl rfl rfl rfl
      hfree rfl
  have htells := Tells.foldl_sendAppendEntries hinv'.toLogInv (fun n : NodeId × NodeState => n.1)
    (fun _ => a.discardUncommittable.takeLeadership.state.lastIdx + 1)
    (a.discardUncommittable.takeLeadership.allOtherNodes.map
      (resetNodeIndices (a.discardUncommittable.takeLeadership.state.lastIdx + 1))) hsim.tells rfl
    fun n _ => ⟨Nat.succ_pos _, le_rfl⟩
  have hfinal := hsim.of_talks (b := a.discardUncommittable.takeLeadership.announceLeadership)
    (Aft.Talks.foldl (fun b (n : NodeId × NodeState) => talks_sendAppendEntries b n.1 _) _ _) htells
    (keys_foldl (fun b (n : NodeId × NodeState) => keys_sendAppendEntries b n.1 _) _ _)
  have hcur := (h.becomeLeader_isLeader hinv hcand helected).2
  have hledger : a.discardUncommittable.takeLeadership.announceLeadership.ledger =
      a.ledger.take (g.proto.lastSig a.ledger) := by
    rw [(talks_announceLeadership _).ledger_eq, h.ledger_takeLeadership hinv hcand]
  rw [h.becomeLeader_eq hinv hcand helected, Outcome.state_ok] at hcur ⊢
  refine ⟨_, hstep, hfinal, _, (h.campaigns hcand).record, hcur.symm, rfl, ?_, ?_⟩
  · rw [← hfinal.tracks.lastSig_eq (g := g), hledger, Proto.lastSig_take_lastSig]
  · rw [hfinal.recorded.getTermInternal_eq (g := g) hfinal.tracks.last_eq, ← hfinal.tracks.lastSig_eq (g := g), hledger,
      Proto.lastSig_take_lastSig, Proto.termAt_take le_rfl]

end

/-! ### Standing for election -/

/-- Where `b` leads, the mode elects it. -/
def MayLead (m : Mode NodeId) (i : NodeId) (b : Aft) : Prop := b.isLeader → m.elects b.state.currentView i

theorem MayLead.of_talks (h : MayLead m i b) (ht : Aft.Talks a b) : MayLead m i a := by
  unfold MayLead Aft.isLeader at h ⊢
  rw [ht.state_eq] at h
  exact h

section
variable (h : Sim g m s i a) (hinv : Inv g.proto m s) {draw : ℕ}
include h hinv

variable (hret : ¬a.isRetiredCommitted) (hgen : g.log.length ≤ a.state.commitIdx) {r : RequestVoteResponse}
include hret hgen

theorem Sim.startCandidacy (draw : ℕ) :
    ∃ s', Step g.proto m i s s' ∧ s'.leader = s.leader ∧ Sim g m s' i (a.startCandidacy draw) := by
  have hstep : Step g.proto m i s { s with
      view := Function.update s.view i (s.view i + 1)
      cands := insert ⟨s.view i + 1, i, s.log i, s.commit i⟩ s.cands } :=
    .candidate (by rw [h.commit_eq]; exact hgen)
  have hl := Steps.later hinv (.single hstep)
  have hlead : ¬(a.startCandidacy draw).isLeader := nofun
  have hview : (a.startCandidacy draw).state.currentView = s.view i + 1 := by
    rw [h.view_eq]
    rfl
  refine ⟨_, hstep, rfl, ⟨.of_not_leader h.tells.toSends hl hlead rfl (Aft.keys_resetLastAckTimeouts a) rfl rfl, ?_,
    h.log_eq, h.commit_eq, ?_, nofun, fun _ => ⟨?_, ?_, fun c hc => ?_⟩,
    fun hu => ⟨fun vt hvt hvoter hterm => ?_, fun c hc hnode hterm => .inl ?_⟩⟩, h.recorded, h.covered, fun _ => hgen⟩
  · rw [hview]
    exact Function.update_self _ _ _
  · exact h.tracks.of_same ⟨⟨rfl, rfl, rfl, rfl, rfl, rfl⟩, rfl, Aft.keys_resetLastAckTimeouts a⟩
      fun hr => absurd hr hret
  · rw [hview, ← show s.log i = (a.startCandidacy draw).ledger from h.log_eq,
      ← show s.commit i = (a.startCandidacy draw).state.commitIdx from h.commit_eq]
    exact Set.mem_insert _ _
  · show s.leader (a.startCandidacy draw).state.currentView ≠ some i
    intro hleader
    have := hinv.leader_view _ _ hleader
    omega
  · exact .of_reset hc fun d hd => h.tracks.configuration_ext hd hc
  · have := hinv.vote_view vt hvt
    rw [hvoter] at this
    omega
  · show some a.state.nodeId = some i
    rw [h.nodeId_eq]

theorem Sim.becomeCandidate (hmay : MayLead m i (a.becomeCandidate draw).state) :
    Reaches g m s i (a.becomeCandidate draw).state := by
  unfold Aft.becomeCandidate at hmay ⊢
  split_ifs at hmay ⊢ with hconf
  · exact h.reaches
  obtain ⟨s₁, hstep, hleader, hsim⟩ := h.startCandidacy hinv hret hgen draw
  have hinv₁ := hstep.inv hinv
  have hb : Sim g m s₁ i ((a.startCandidacy draw).recordVote a.state.nodeId) :=
    hsim.recordVote fun _ => .inl h.nodeId_eq
  have hconf' : (a.startCandidacy draw).configurations ≠ [] := hconf
  unfold Aft.addVoteForMeWith at hmay ⊢
  rw [if_neg hconf'] at hmay ⊢
  dsimp only at hmay ⊢
  split_ifs at hmay ⊢ with helected
  · -- the own vote is enough
    have hlead := hb.becomeLeader_isLeader hinv₁ rfl helected
    have hok := hb.becomeLeader_eq hinv₁ rfl helected
    have hstate : ((a.startCandidacy draw).recordVote a.state.nodeId).state.leadershipState = .candidate := rfl
    simp only [hstate] at hmay ⊢
    rw [hok, andThen_ok] at hmay ⊢
    rw [hok, state_ok] at hlead
    have hmay' : m.elects ((a.startCandidacy draw).recordVote a.state.nodeId).state.currentView i := by
      rw [← hlead.2]
      exact hmay.of_talks (Aft.talks_sendRequestVotes _ _) hlead.1
    obtain ⟨s₂, hstep₂, hsim₂, hstands⟩ := hb.becomeLeader hinv₁ rfl helected hmay'
    rw [hok, state_ok] at hsim₂ hstands
    exact ⟨s₂, .tail (.single hstep) hstep₂, hsim₂.sendRequestVotes fun _ => hstands⟩
  · exact ⟨s₁, .single hstep, hb.sendRequestVotes fun _ => hb.stands rfl⟩

omit hgen hret

/-- A vote may make a pre-vote candidate a candidate, and a candidate leader. -/
theorem Sim.addVoteForMe (hvote : a.state.leadershipState = .candidate → Backs s i a.state.currentView source)
    (hmay : MayLead m i (a.addVoteForMe draw source).state) :
    Reaches g m s i (a.addVoteForMe draw source).state := by
  have hb := h.recordVote hvote
  unfold Aft.addVoteForMe Aft.addVoteForMeWith at hmay ⊢
  dsimp only at hmay ⊢
  split_ifs at hmay ⊢ with hconf helected
  · exact h.reaches
  · cases hrole : (a.recordVote source).state.leadershipState with
    | preVoteCandidate =>
      simp only [hrole] at hmay ⊢
      refine hb.becomeCandidate hinv (fun hret => ?_) (hb.preVote hrole) hmay
      have hidle := hb.tracks.idle hret
      rw [hrole] at hidle
      rcases hidle with hidle | hidle <;> cases hidle
    | candidate =>
      simp only [hrole] at hmay ⊢
      have hlead := hb.becomeLeader_isLeader hinv hrole helected
      have helect : m.elects (a.recordVote source).state.currentView i := by
        rw [← hlead.2]
        exact hmay hlead.1
      obtain ⟨s', hstep, hsim, -⟩ := hb.becomeLeader hinv hrole helected helect
      exact ⟨s', .single hstep, hsim⟩
    | none | leader | follower => exact hb.reaches
  · exact hb.reaches

omit hinv

include hret hgen

theorem Sim.startPreVote (draw : ℕ) : Sim g m s i (a.startPreVote draw) := by
  have hlead : ¬(a.startPreVote draw).isLeader := nofun
  exact ⟨⟨.of_not_leader h.tells.toSends (Later.refl s) hlead rfl rfl rfl rfl, h.view_eq, h.log_eq, h.commit_eq,
    { h.tracks with knows := { h.tracks.knows with }, idle := fun hr => absurd hr hret }, fun _ => hgen,
    nofun, fun hu => ⟨(h.voted hu).vote, (h.voted hu).own⟩⟩, h.recorded, h.covered, h.ticking⟩

omit hgen hret

include hinv hret hgen

theorem Sim.becomePreVoteCandidate (hmay : MayLead m i (a.becomePreVoteCandidate draw).state) :
    Reaches g m s i (a.becomePreVoteCandidate draw).state := by
  unfold Aft.becomePreVoteCandidate at hmay ⊢
  split_ifs at hmay ⊢ with hconf
  · exact h.reaches
  have hsim := h.startPreVote hret hgen draw
  have hmay' : MayLead m i ((a.startPreVote draw).addVoteForMe draw a.state.nodeId).state := by
    cases hadd : (a.startPreVote draw).addVoteForMe draw a.state.nodeId with
    | ok b =>
      rw [hadd, andThen_ok] at hmay
      exact hmay.of_talks (Aft.talks_sendRequestVotes b _)
    | raised e b =>
      rw [hadd] at hmay
      exact hmay
  obtain ⟨s', hsteps, hsim'⟩ := hsim.addVoteForMe hinv nofun hmay'
  refine ⟨s', hsteps, ?_⟩
  cases hadd : (a.startPreVote draw).addVoteForMe draw a.state.nodeId with
  | ok b =>
    rw [hadd, state_ok] at hsim'
    exact hsim'.sendRequestVotes nofun
  | raised e b =>
    rw [hadd] at hsim'
    exact hsim'

omit hgen hret

/-! ### Messages and time -/

theorem Sim.recvRequestVoteResponse {electionType : ElectionType}
    (hr : Justified g m s source i (.requestVoteResponse r electionType))
    (hmay : MayLead m i (a.recvRequestVoteResponse draw source r electionType).state) :
    Reaches g m s i (a.recvRequestVoteResponse draw source r electionType).state := by
  unfold Aft.recvRequestVoteResponse at hmay ⊢
  split_ifs at hmay ⊢ with hknown hlt hterm hrole hregular hpre hgranted
  · exact h.reaches
  · obtain ⟨s', hstep, -, hsim⟩ := h.becomeAwareOfLaterTerm hinv draw hlt
    exact ⟨s', .single hstep, hsim⟩
  · exact h.reaches
  · exact h.reaches
  · exact h.reaches
  · exact h.reaches
  · exact h.reaches
  · refine h.addVoteForMe hinv (fun hcand => .inr ?_) hmay
    cases electionType with
    | preVote => exact absurd ⟨rfl, by rw [hcand]; decide⟩ hpre
    | regularVote =>
      rw [not_not] at hterm
      have hgranted' : r.voteGranted = true := by simpa using hgranted
      rcases hr hgranted' with hleader | ⟨vt, hvt, hvterm, hrest⟩
      · rw [← hterm] at hleader
        exact absurd hleader (h.campaigns hcand).not_leader
      · exact ⟨vt, hvt, hvterm.trans hterm.symm, hrest⟩

theorem Sim.recvProposeRequestVote {r : ProposeRequestVote}
    (hmay : MayLead m i (a.recvProposeRequestVote draw r).state) :
    Reaches g m s i (a.recvProposeRequestVote draw r).state := by
  unfold Aft.recvProposeRequestVote at hmay ⊢
  split_ifs at hmay ⊢ with hcond
  · exact h.becomeCandidate hinv hcond.1 (h.ticking hcond.2.1) hmay
  · exact h.reaches

omit hinv

theorem Sim.nominateSuccessor : Sim g m s i a.nominateSuccessor := by
  unfold Aft.nominateSuccessor Aft.sendProposeRequestVote
  split_ifs
  · split
    · exact h
    · rename_i n hn
      refine h.send (fun heq => h.tells.self_not_mem ?_) trivial
      rw [heq]
      exact (Aft.considerSuccessor_mem a _ _ hn).resolve_left (by simp)
  · exact h

end

end Ccf
