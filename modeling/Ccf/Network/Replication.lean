import Ccf.Network.Leadership

/-! # Replication on the leader

A leader appends entries of its view to its log, sends what it has not sent yet, and learns from the
responses how much of its log the other nodes have. Only an acknowledgement raises the match index of a
node, and it is on record. -/

namespace Ccf

open Aft List Function SignedRaft ViewHistory

variable {g : Genesis} {m : Mode NodeId} {s s' : Sys NodeId Entry} {i : NodeId} {a b : Aft}
  {es : List (ℕ × Tx)} {R : Retirement} {t : Tx} {v : ℕ} {e : ℕ × Tx}

/-! ### Configuration changes -/

theorem Tells.reconfigured (h : Tells g m s i a) {confs : List Configuration}
    (hR : a.isLeader → R.retirementPhase ≠ some .retiredCommitted) : Tells g m s i (a.reconfigured R confs) := by
  refine ⟨⟨h.nodeId_eq, h.self_not_mem, h.batch_pos, h.outbox, fun hlead => ?_⟩, h.sent⟩
  have hs := h.speaks hlead
  exact ⟨hs.leader_eq, hs.tl_eq, hs.last_eq, hs.recorded, hs.commit_ge, hs.commit_le, hs.proven,
    fun hret => hR hlead hret.2, hs.wf, hs.acks⟩

theorem Tells.enrols (h : Tells g m s i a) (hinv : LogInv g.proto s) (he : Aft.Enrols a b) : Tells g m s i b := by
  rcases he with rfl | rfl
  · exact h
  · exact h.createAndRemoveNodeState hinv

theorem afterChange_active {removed : Prop} [Decidable removed] {idx : ℕ}
    (h : R.retirementPhase ≠ some .retiredCommitted) :
    (R.afterChange removed idx).retirementPhase ≠ some .retiredCommitted := by
  unfold Retirement.afterChange
  split_ifs
  · simp
  · exact h

/-- The retirement of a leader is not committed. -/
theorem Aft.Tracks.leader_active (h : Aft.Tracks a) (hlead : a.isLeader) :
    a.state.retirement.retirementPhase ≠ some .retiredCommitted := by
  intro hphase
  have hretired : a.state.membershipState = .retired := by
    have hmember : a.state.retirement.membershipState = .retired := by
      rw [h.retirement_eq] at hphase ⊢
      exact retirementAt_retired (by rw [retirementOf] at hphase; rw [hphase]; simp)
    exact hmember
  have hidle := h.idle ⟨hretired, hphase⟩
  rw [show a.state.leadershipState = .leader from hlead] at hidle
  rcases hidle with hidle | hidle <;> cases hidle

/-! ### New entries -/

theorem Sim.replicateEntry (h : Sim g m s i a) (hinv : Inv g.proto m s) (hlead : a.isLeader)
    (hwf : WellFormed (a.ledger ++ [⟨a.state.currentView, t⟩])) :
    ∃ b s', ((a.replicateEntry (a.state.lastIdx + 1) t).andThen
        fun b => b.updateViewHistory (a.state.lastIdx + 1) b.state.currentView) = .ok b ∧
      Step g.proto m i s s' ∧ Sim g m s' i b ∧ b.isLeader ∧ b.state.currentView = a.state.currentView ∧
      b.ledger = a.ledger ++ [⟨a.state.currentView, t⟩] := by
  have hs := h.tells.speaks hlead
  obtain ⟨b, c, hb, happ, henrols, hbeside⟩ := replicateEntry_appended h.tracks hwf
  have htalks := henrols.talks
  have htells : Tells g m s i c := (h.tells.reconfigured fun hl =>
    afterChange_active (h.tracks.leader_active hl)).enrols hinv.toLogInv henrols
  have hhistory : b.state.viewHistory = a.state.viewHistory := by
    rw [hbeside.history_eq, htalks.state_eq]
    rfl
  have hvotedc := congrArg votedFor htalks
  have hvoted : b.votedFor = a.votedFor := hbeside.votedFor_eq.trans hvotedc
  have hlastView : viewOf (a.ledger.map Entry.view) (a.ledger.map Entry.view).length ≤ a.state.currentView := by
    rw [length_map, ← termAt_eq_viewOf (g := g)]
    refine Proto.termAt_le (fun e he => ?_) _
    rw [← h.view_eq]
    exact hinv.log_le i e (h.log_eq ▸ he)
  obtain ⟨history, hupdate, hfaithful⟩ := Faithful.update h.recorded hlastView Nat.one_pos
  have hledger := happ.ledger_eq
  have hb' : b.updateViewHistory (a.state.lastIdx + 1) b.state.currentView =
      .ok { b with state.viewHistory := history } := by
    unfold updateViewHistory
    rw [length_map] at hupdate
    rw [hhistory, happ.view_eq, h.tracks.last_eq, hupdate]
  have hrec : Aft.Recorded { b with state.viewHistory := history } := by
    show Faithful history (b.ledger.map Entry.view)
    rw [hledger, map_append]
    exact hfaithful
  have hstep : Step g.proto m i s { s with
      log := update s.log i (s.log i ++ [⟨a.state.currentView, t⟩])
      tl := update s.tl (s.view i) (s.tl (s.view i) ++ [⟨a.state.currentView, t⟩]) } :=
    .append _ (h.leader_eq hlead) h.view_eq.symm
  have hl := Steps.later hinv (.single hstep)
  have htracks : Aft.Tracks { b with state.viewHistory := history } :=
    { happ.tracks h.tracks hwf with knows := { (happ.tracks h.tracks hwf).knows with } }
  have hcommit : g.log.length ≤ b.state.commitIdx := by
    rw [happ.commit_eq]
    exact hs.commit_ge
  have hleadb : b.isLeader := happ.leadership_eq.trans hlead
  have hlast : b.state.lastIdx = a.state.lastIdx + 1 := by rw [happ.last_eq, h.tracks.last_eq]
  have hleadc : c.isLeader := by
    unfold isLeader
    rw [htalks.state_eq]
    exact hlead
  refine ⟨{ b with state.viewHistory := history }, _, by rw [hb, Outcome.andThen_ok]; exact hb', hstep, ?_, hleadb,
    happ.view_eq, hledger⟩
  refine ⟨⟨⟨⟨happ.nodeId_eq.trans h.nodeId_eq, ?_, ?_, fun p hp => ?_, fun _ => ?_⟩, fun _ p hp _ => ?_⟩,
    h.view_eq.trans happ.view_eq.symm, ?_, h.commit_eq.trans happ.commit_eq.symm, htracks, fun hc => ?_, fun hc => ?_,
    fun hu => ⟨?_, ?_⟩⟩, hrec, fun _ => hcommit, fun _ => hcommit⟩
  · show i ∉ Assoc.keys b.allOtherNodes
    rw [hbeside.nodes_eq]
    exact htells.self_not_mem
  · show 1 ≤ b.entriesBatchSize
    rw [hbeside.batchSize_eq]
    exact htells.batch_pos
  · rw [hbeside.outbox_eq] at hp
    obtain ⟨hne, hj⟩ := htells.outbox p hp
    exact ⟨hne, hj.later hl⟩
  · have hsc := htells.speaks hleadc
    refine ⟨?_, ?_, htracks.last_eq, hrec, hcommit, htracks.commit_le, fun hm => ?_, fun hret => ?_, htracks.wf,
      fun p hp hpos => ?_⟩
    · show s.leader b.state.currentView = some i
      rw [happ.view_eq]
      exact hs.leader_eq
    · show update s.tl (s.view i) _ b.state.currentView = b.ledger
      rw [happ.view_eq, ← h.view_eq, update_self, h.view_eq, hs.tl_eq, hledger]
    · show Sys.Committed _ (b.ledger.take b.state.commitIdx) b.state.currentView
      rw [happ.view_eq, happ.commit_eq, hledger, take_append_of_le_length h.tracks.commit_le]
      exact hl.committed (hs.proven hm)
    · exact (happ.tracks h.tracks hwf).leader_active hleadb hret.2
    · rw [hbeside.nodes_eq] at hp
      have hack := hsc.acks p hp hpos
      rw [htalks.state_eq] at hack
      show (⟨p.1, b.state.currentView, p.2.matchIdx⟩ : Ack NodeId) ∈ s.acks
      rw [happ.view_eq]
      exact hack
  · rw [hbeside.nodes_eq] at hp
    have hle := htells.sent hleadc p hp (by simp)
    rw [htalks.state_eq] at hle
    show p.2.sentIdx ≤ b.state.lastIdx
    exact hle.trans (by rw [hlast]; exact Nat.le_succ _)
  · show update s.log i _ i = b.ledger
    rw [update_self, h.log_eq, hledger]
  · cases hleadb.symm.trans hc
  · cases hleadb.symm.trans hc
  · show ∀ vt ∈ s.votes, vt.voter = i → vt.term = b.state.currentView → b.votedFor = some vt.node
    rw [happ.view_eq, hvoted]
    exact (h.voted hu).vote
  · show ∀ c ∈ s.cands, c.node = i → c.term = b.state.currentView →
      b.votedFor = some i ∨ ∃ L, s.leader b.state.currentView = some L ∧ L ≠ i
    rw [happ.view_eq, hvoted]
    exact (h.voted hu).own

/-! ### Bookkeeping -/

theorem one_le_updateBatchSize (a : Aft) : 1 ≤ a.updateBatchSize.entriesBatchSize := by
  show 1 ≤ (max _ (1 : ℤ)).toNat
  omega

theorem Aft.isLeader.flushIfFull (h : a.isLeader) : a.flushIfFull.isLeader := by
  unfold Aft.flushIfFull
  split_ifs
  · unfold isLeader
    rw [(talks_sendAppendEntriesToAll _).state_eq]
    exact h
  · exact h

/-- The entries are for the positions from `v` on. -/
def NumberedFrom (v : ℕ) (es : List (ℕ × Tx)) : Prop := ∀ (k : ℕ) p, es[k]? = some p → p.1 = v + k

theorem NumberedFrom.cons (h : NumberedFrom (v + 1) es) : NumberedFrom v ((v, t) :: es) := by
  intro k p hp
  cases k with
  | zero =>
    cases hp
    rfl
  | succ k =>
    have := h k p hp
    omega

theorem numberedFrom_cons : NumberedFrom v (e :: es) ↔ e.1 = v ∧ NumberedFrom (v + 1) es := by
  refine ⟨fun h => ⟨h 0 e rfl, fun k p hp => ?_⟩, fun ⟨he, h⟩ => ?_⟩
  · have := h (k + 1) p hp
    omega
  · obtain ⟨v', t⟩ := e
    obtain rfl : v' = v := he
    exact h.cons

section
variable (h : Sim g m s i a) {entries : List (ℕ × Tx)} {f : NodeState → NodeState}
include h

section
variable (hinv : Inv g.proto m s) (hlead : a.isLeader)
include hinv hlead

/-- Sending everything pending, with a new batch size. -/
theorem Sim.sendAppendEntriesToAll (hstate : b.state = a.state) (hledger : b.ledger = a.ledger)
    (hconf : b.configurations = a.configurations)
    (hvoted : b.votedFor = a.votedFor) (hvotes : b.votesForMe = a.votesForMe) (hticking : b.ticking = a.ticking)
    (hout : b.outbox = a.outbox) (hnodes : b.allOtherNodes = a.allOtherNodes) (hbatch : 1 ≤ b.entriesBatchSize) :
    Sim g m s i b.sendAppendEntriesToAll := by
  have hkeys : Assoc.keys b.allOtherNodes = Assoc.keys a.allOtherNodes := by rw [hnodes]
  have htells : Tells g m s i b := h.tells.adjust hstate hledger (hout ▸ List.Subset.refl _) hkeys hbatch fun _ p hp =>
    h.tells.nodeOk hlead (hnodes ▸ hp)
  have hlead' : b.isLeader := by
    unfold isLeader
    rw [hstate]
    exact hlead
  have hb := h.of_tells htells hstate hledger hconf hvoted hvotes hticking hkeys
  exact hb.of_talks (talks_sendAppendEntriesToAll b) (htells.sendAppendEntriesToAll hinv.toLogInv hlead')
    (keys_sendAppendEntriesToAll b)

theorem Sim.flushIfFull : Sim g m s i a.flushIfFull := by
  unfold Aft.flushIfFull
  split_ifs
  · exact h.sendAppendEntriesToAll hinv hlead rfl rfl rfl rfl rfl rfl rfl rfl (one_le_updateBatchSize a)
  · exact h

/-- The loop of `replicate` writes the entries from the next index on, until one has another index. -/
theorem Sim.replicateLoop (hwf : WellFormed (a.ledger ++ newEntries a.state.currentView es)) :
    Reaches g m s i (a.replicateLoop es).1.state ∧ ∃ n ≤ es.length,
      (a.replicateLoop es).1.state.ledger = a.ledger ++ (newEntries a.state.currentView es).take n ∧
      NumberedFrom (a.ledger.length + 1) (es.take n) ∧ (NumberedFrom (a.ledger.length + 1) es → n = es.length) := by
  induction es generalizing a s with
  | nil => exact ⟨h.reaches, 0, le_rfl, (append_nil _).symm, by rintro _ _ ⟨⟩, fun _ => rfl⟩
  | cons e es ih =>
    obtain ⟨index, t⟩ := e
    unfold replicateLoop
    by_cases hindex : index = a.state.lastIdx + 1
    · subst hindex
      have hcons : a.ledger ++ newEntries a.state.currentView ((a.state.lastIdx + 1, t) :: es) =
          (a.ledger ++ [⟨a.state.currentView, t⟩]) ++ newEntries a.state.currentView es := by
        simp [newEntries]
      rw [hcons] at hwf
      obtain ⟨b, s', hb, hstep, hsim, hleadb, hview, hledger⟩ :=
        h.replicateEntry hinv hlead (hwf.of_isPrefix (prefix_append _ _))
      have hinv' := hstep.inv hinv
      have hflush := quiet_flushIfFull b
      have hledgerf : b.flushIfFull.ledger = a.ledger ++ [⟨a.state.currentView, t⟩] := hflush.ledger_eq.trans hledger
      have hviewf : b.flushIfFull.state.currentView = a.state.currentView := hflush.view_eq.trans hview
      rw [if_neg (not_not.2 rfl), hb]
      have hlength : b.flushIfFull.ledger.length = a.ledger.length + 1 := by
        rw [hledgerf, length_append, length_singleton]
      obtain ⟨hreaches, n, hn, hrest, hnumbered, hall⟩ :=
        ih (hsim.flushIfFull hinv' hleadb) hinv' hleadb.flushIfFull (by rw [hledgerf, hviewf]; exact hwf)
      rw [hlength] at hnumbered hall
      rw [h.tracks.last_eq]
      refine ⟨.of_steps (.single hstep) hreaches, n + 1, Nat.succ_le_succ hn, ?_, hnumbered.cons, fun hes => ?_⟩
      · dsimp only
        rw [hrest, hledgerf, hviewf, append_assoc]
        rfl
      · rw [hall (numberedFrom_cons.1 hes).2]
        rfl
    · rw [if_pos hindex]
      refine ⟨h.reaches, 0, Nat.zero_le _, (append_nil _).symm, by rintro _ _ ⟨⟩, fun hes => ?_⟩
      have := (numberedFrom_cons.1 hes).1
      rw [h.tracks.last_eq] at hindex
      exact absurd this hindex

theorem Sim.replicateBatch (hwf : WellFormed (a.ledger ++ newEntries a.state.currentView entries)) :
    Reaches g m s i (a.replicateBatch entries).1.state := by
  have hloop := (h.replicateLoop hinv hlead hwf).1
  unfold Aft.replicateBatch
  split
  · rename_i b hb
    rw [hb] at hloop
    obtain ⟨s', hsteps, hsim⟩ := hloop
    split_ifs
    · exact Reaches.of_steps hsteps (hsim.updateCommit (hsteps.inv hinv))
    · exact ⟨s', hsteps, hsim⟩
  · exact hloop

end

theorem Sim.rollback_last : a.rollback a.state.lastIdx = a := by
  have hback := rollback_tracks h.tracks le_rfl
  have hcommit : a.state.commitIdx ≤ a.state.lastIdx := by
    rw [h.tracks.last_eq]
    exact h.tracks.commit_le
  have hledger : a.ledger.take a.state.lastIdx = a.ledger := take_of_length_le h.tracks.last_eq.ge
  have hhistory : a.state.viewHistory.rollback a.state.lastIdx = a.state.viewHistory := by
    have := Faithful.rollback_length h.recorded
    rwa [length_map, ← h.tracks.last_eq] at this
  rw [rollback_eq h.tracks hcommit, hledger, hhistory] at hback ⊢
  have hcommittable := hback.committable_eq.trans h.tracks.committable_eq.symm
  have hconf := hback.configurations_eq.trans h.tracks.configurations_eq.symm
  have hret := hback.retirement_eq.trans h.tracks.retirement_eq.symm
  dsimp only [State.setRetirement] at hcommittable hconf
  rw [hcommittable, hconf]
  have hret : a.state.retirement.cut a.state.lastIdx = a.state.retirement := hret
  rw [hret]
  rfl

theorem Sim.replicate (hinv : Inv g.proto m s) (term : ℕ)
    (hwf : a.isLeader → WellFormed (a.ledger ++ newEntries a.state.currentView entries)) :
    Reaches g m s i (a.replicate entries term).1.state := by
  unfold Aft.replicate
  split_ifs with hlead
  · exact h.reaches
  · rw [h.rollback_last]
    exact h.reaches
  · exact h.replicateBatch hinv hlead (hwf hlead)
  · rw [h.rollback_last]
    exact h.reaches

/-! ### Responses -/

theorem Sim.setNode (n : NodeId)
    (hf : a.isLeader → ∀ ns, NodeOk s a (n, ns) → NodeOk s a (n, f ns)) : Sim g m s i (a.setNode n f) := by
  refine h.of_tells (h.tells.adjust rfl rfl (List.Subset.refl _)
    (Assoc.keys_modify _ _ _) h.tells.batch_pos fun hlead p hp => ?_)
    rfl rfl rfl rfl rfl rfl (Assoc.keys_modify _ _ _)
  obtain ⟨p₀, hp₀, hkey, ⟨-, rfl⟩ | ⟨heq, hval⟩⟩ := Assoc.mem_modify hp
  · exact h.tells.nodeOk hlead hp₀
  · have hok := h.tells.nodeOk hlead hp₀
    rw [show p₀ = (n, p₀.2) from Prod.ext (hkey.symm.trans heq) rfl] at hok
    rw [show p = (n, f p₀.2) from Prod.ext heq hval]
    exact hf hlead p₀.2 hok

section
variable (hinv : Inv g.proto m s) (draw : ℕ) {source : NodeId} {r : AppendEntriesResponse}
  (hr : Justified g m s source i (.appendEntriesResponse r))
include hinv draw hr

theorem Sim.processResponse (matchIdx : ℕ) : Reaches g m s i (a.processResponse draw source r matchIdx).state := by
  unfold Aft.processResponse
  split_ifs with hlt hstale hold hnack
  · obtain ⟨s', hstep, -, hsim⟩ := h.becomeAwareOfLaterTerm hinv draw hlt
    exact ⟨s', .single hstep, hsim⟩
  · exact h.reaches
  · exact h.reaches
  · refine Sim.reaches (h.setNode source fun hlead ns hok => ⟨?_, hok.2⟩)
    have hmatch : ns.matchIdx ≤ a.state.lastIdx := by
      rcases Nat.eq_zero_or_pos ns.matchIdx with hzero | hpos
      · omega
      · have hs := h.tells.speaks hlead
        have := (hinv.ack_le _ (hok.2 hpos)).1
        rwa [hs.tl_eq, ← hs.last_eq] at this
    have hsent := hok.1
    dsimp only at hsent ⊢
    omega
  · have hsuccess : r.success = true := by simpa using hnack
    have hterm : a.state.currentView = r.term := by
      by_contra hne
      exact hstale ⟨hne, hsuccess⟩
    refine Sim.updateCommit (h.setNode source fun _ ns hok => ⟨hok.1, fun _ => ?_⟩) hinv
    rcases le_total r.lastLogIdx ns.matchIdx with hle | hle
    · rcases Nat.eq_zero_or_pos ns.matchIdx with hzero | hpos
      · rw [max_eq_right (by omega), hterm]
        exact hr hsuccess
      · rw [Nat.max_eq_left hle]
        exact hok.2 hpos
    · rw [max_eq_right hle, hterm]
      exact hr hsuccess

theorem Sim.recvAppendEntriesResponse : Reaches g m s i (a.recvAppendEntriesResponse draw source r).state := by
  unfold Aft.recvAppendEntriesResponse
  split
  · exact h.reaches
  · split_ifs
    · refine Sim.processResponse (h.setNode source ?_) hinv draw hr _
      exact fun _ ns hok => ⟨hok.1, hok.2⟩
    · exact h.reaches

end

/-! ### Time -/

theorem Sim.tick_leader (hinv : Inv g.proto m s) (hlead : a.isLeader) (draw elapsed : ℕ) :
    Sim g m s i ((a.periodicSend.waitForAcks elapsed).checkQuorum draw) := by
  have hsend : Sim g m s i a.periodicSend := by
    unfold periodicSend
    split_ifs
    · exact h.sendAppendEntriesToAll hinv hlead rfl rfl rfl rfl rfl rfl rfl rfl (one_le_updateBatchSize _)
    · exact h
  have hkeys : Assoc.keys (a.periodicSend.waitForAcks elapsed).allOtherNodes =
      Assoc.keys a.periodicSend.allOtherNodes := by
    simp [waitForAcks, Assoc.keys, comp_def]
  have hwait : Sim g m s i (a.periodicSend.waitForAcks elapsed) := by
    refine hsend.of_tells (hsend.tells.adjust rfl rfl (List.Subset.refl _) hkeys hsend.tells.batch_pos
      fun hl p hp => ?_) rfl rfl rfl rfl rfl rfl hkeys
    obtain ⟨p₀, hp₀, rfl⟩ := mem_map.1 hp
    have hok := hsend.tells.nodeOk hl hp₀
    exact ⟨hok.1, hok.2⟩
  unfold checkQuorum
  split_ifs
  · exact hwait
  · exact hwait.becomeFollower draw

theorem Sim.periodic (hinv : Inv g.proto m s) {draw elapsed : ℕ}
    (hmay : MayLead m i (a.periodic draw elapsed).state) : Reaches g m s i (a.periodic draw elapsed).state := by
  have hb : Sim g m s i { a with timeoutElapsed := a.timeoutElapsed + elapsed } :=
    h.of_tells (h.tells.adjust rfl rfl (List.Subset.refl _) rfl h.tells.batch_pos fun hl p hp => h.tells.nodeOk hl hp)
      rfl rfl rfl rfl rfl rfl rfl
  unfold Aft.periodic Aft.tick at hmay ⊢
  split_ifs at hmay ⊢ with hlead hready hpre
  · exact (hb.tick_leader hinv hlead draw elapsed).reaches
  · exact hb.becomePreVoteCandidate hinv hready.1 (hb.ticking hready.2.1) hmay
  · exact hb.becomeCandidate hinv hready.1 (hb.ticking hready.2.1) hmay
  · exact hb.reaches

end

end Ccf
