import Ccf.Network.Batches

/-! # Receiving a batch

The end of a batch, the loop over its entries and the checks before it. A node that receives a batch of a
leader stays related to the protocol, and never fails to record a view, unless it loses the view of a batch
or commits past it. -/

namespace Ccf

open List SignedRaft ViewHistory

variable {g : Genesis} {m : Mode NodeId} {s s' : Sys NodeId Entry} {i : NodeId} {a b : Aft} {o : Result}

/-! ### The end of a batch -/

/-- A result that is related to the protocol and has not failed to record a view. -/
def Safe (g : Genesis) (m : Mode NodeId) (s : Sys NodeId Entry) (i : NodeId) (o : Result) : Prop :=
  Reaches g m s i o.state ∧ o.error? ≠ some .viewHistoryBackwards

theorem Sim.safe (h : Sim g m s i a) : Safe g m s i (.ok a) := ⟨h.reaches, by simp [Outcome.error?]⟩

theorem Safe.of_steps (hsteps : Steps g.proto m i s s') (h : Safe g m s' i o) : Safe g m s i o :=
  ⟨h.1.of_steps hsteps, h.2⟩

theorem Sim.nack (h : Sim g m s i a) {dst : NodeId} (hne : i ≠ dst) (term idx : ℕ) :
    Sim g m s i (a.sendAppendEntriesResponse dst false term idx) :=
  h.send hne nofun

variable {src : NodeId} {r : AppendEntries} {data : List Entry} {faults : ℕ → Fault}

section

variable (hr : GoodBatch g m s src r data)
  (hinv : Inv g.proto m s) (hne : i ≠ src)

include hr hinv hne

/-- The acknowledgement of a batch that is in the log. -/
theorem Sim.ack (h : Sim g m s i a) (hterm : a.state.currentView = r.term)
    (hlog : (s.tl r.term).take r.idx <+: a.ledger) : Reaches g m s i (a.sendAppendEntriesResponseAck src r) := by
  have hstep : Step g.proto m i s { s with acks := insert ⟨i, s.view i, r.idx⟩ s.acks } := by
    refine .acked r.idx ?_ ?_
    · rw [h.view_eq, hterm]
      exact hr.idx_le
    · rw [h.view_eq, hterm, h.log_eq]
      exact hlog
  refine ⟨_, .single hstep, ?_⟩
  have hsim : Sim g m { s with acks := insert ⟨i, s.view i, r.idx⟩ s.acks } i a := by
    have hl := Steps.later hinv (.single hstep)
    exact h.later hl rfl rfl rfl (fun hlead => (h.tells.speaks hlead).tl_eq) (fun _ => id) (fun _ hvt _ => hvt)
      fun _ hc _ => hc
  refine hsim.send hne fun _ => ?_
  rw [← h.view_eq]
  exact Set.mem_insert _ _

variable (hlog : (s.tl r.term).take r.idx <+: a.ledger)
  (hhistory : a.Recorded ∨ a.ledger = (s.tl r.term).take r.idx ∧
    Faithful a.state.viewHistory (((s.tl r.term).take r.prevIdx).map Entry.view) ∧
    ∀ j, r.prevIdx < j → j ≤ r.idx → ¬g.proto.SigAt (s.tl r.term) j)
include hlog hhistory

omit hne in
/-- The view of a log that ends in the batch is recorded, unless it already is. -/
theorem Aft.Tracks.recordBatchView_eq (h : Aft.Tracks a) (hcoh : g.proto.Coherent s.tl a.ledger) :
    ∃ h', a.recordBatchView r = .ok { a with state.viewHistory := h' } ∧ Faithful h' (a.ledger.map Entry.view) := by
  have hpos := hr.view_pos hinv
  have hidx := hr.idx_le
  have hprev := hr.prev_le
  have hlenr : ((s.tl r.term).take r.idx).length = r.idx := by
    rw [length_take]
    omega
  unfold Aft.recordBatchView Aft.updateViewHistory
  rw [if_neg (by unfold invalidView; omega), ← h.lastSig_eq (g := g)]
  by_cases hrec : a.Recorded
  · refine ⟨a.state.viewHistory, ?_, hrec⟩
    split_ifs with hlt
    · -- the entries after the last signature are of the view of the batch
      have hlen := hlog.length_le
      rw [hlenr] at hlen
      have hafter : ∀ n, g.proto.lastSig a.ledger < n → n ≤ a.ledger.length →
          viewOf (a.ledger.map Entry.view) n = viewOf (a.ledger.map Entry.view) (a.ledger.map Entry.view).length := by
        intro n hsig hn
        rw [length_map, ← termAt_eq_viewOf (g := g), ← termAt_eq_viewOf (g := g)]
        exact termAt_after_lastSig hinv.toLogInv hcoh hsig hn
      have hterm : viewOf (a.ledger.map Entry.view) r.idx = r.termOfIdx := by
        rw [← termAt_eq_viewOf (g := g), Proto.termAt_of_isPrefix hlog hlenr.ge, Proto.termAt_take le_rfl]
        exact hr.termOfIdx_eq.symm
      have hu := Faithful.update_known hrec (by rw [length_map]; omega)
        (hafter (g.proto.lastSig a.ledger + 1) (Nat.lt_succ_self _) (by omega))
        (hterm ▸ (hafter r.idx hlt hlen).le)
      rw [hu]
    · rfl
  · obtain ⟨hledger, hfaithful, hunsigned⟩ := hhistory.resolve_left hrec
    have hlenp : (((s.tl r.term).take r.prevIdx).map Entry.view).length = r.prevIdx := by
      rw [length_map, length_take]
      omega
    have hviews := hr.views_take hprev le_rfl
    have hlastp : viewOf (((s.tl r.term).take r.prevIdx).map Entry.view)
        (((s.tl r.term).take r.prevIdx).map Entry.view).length = g.proto.termAt (s.tl r.term) r.prevIdx := by
      rw [hlenp, ← termAt_eq_viewOf (g := g), Proto.termAt_take le_rfl]
    have hlt : g.proto.termAt (s.tl r.term) r.prevIdx ≠ r.termOfIdx := by
      intro heq
      refine hrec ?_
      unfold Aft.Recorded
      rw [hledger, hviews]
      exact hfaithful.extend (hlastp.trans heq) _
    have hlt' : r.prevIdx < r.idx := by
      rcases eq_or_lt_of_le hprev with heq | hlt'
      · rw [hr.termOfIdx_eq, heq] at hlt
        exact absurd rfl hlt
      · exact hlt'
    -- the view changes right after `prev_idx`, so there is a signature there
    have hsig : g.proto.lastSig a.ledger = r.prevIdx := by
      rw [hledger]
      refine Proto.lastSig_eq ?_ fun j hj => ?_
      · rcases Nat.eq_zero_or_pos r.prevIdx with hzero | hposp
        · exact .inl hzero
        · refine .inr ((Proto.sigAt_take hprev).2 (hinv.tl_boundary r.term _ hposp (by omega) ?_))
          rw [hr.one_view (r.prevIdx + 1) (by omega) (by omega)]
          exact hlt
      · by_contra hgt
        have hjlen := hj.le_length
        rw [hlenr] at hjlen
        exact hunsigned j (by omega) hjlen ((Proto.sigAt_take hjlen).1 hj)
    obtain ⟨h', hu, hf⟩ := hfaithful.update (hlastp.le.trans (hr.prevTerm_le hinv)) (by omega : 0 < r.idx - r.prevIdx)
    rw [hlenp] at hu
    refine ⟨h', ?_, ?_⟩
    · rw [hsig, if_pos hlt', hu]
    · rw [hledger, hviews]
      exact hf

/-- The end of a batch that is in the log of the node. -/
theorem safe_executeAppendEntriesFinish (h : Shadows g m s i a)
    (hcovered : g.log.length ≤ a.ledger.length → g.log.length ≤ a.state.commitIdx)
    (hticking : a.ticking = true → g.log.length ≤ a.state.commitIdx) (hterm : a.state.currentView = r.term)
    (hrole : a.state.leadershipState = .follower ∨ a.state.leadershipState = .none)
    (hbatch : m.strict → ∀ c ∈ a.state.committableIndices, c ≤ r.leaderCommitIdx → c ≤ r.idx) :
    Safe g m s i (a.executeAppendEntriesFinish r src) := by
  have hlead : ¬a.isLeader := fun hl => by
    rcases hrole with hrole | hrole <;> cases hl.symm.trans hrole
  have hcand : a.state.leadershipState ≠ .candidate := fun hc => by
    rcases hrole with hrole | hrole <;> cases hc.symm.trans hrole
  have hstrict : m.strict → ∀ c ∈ a.state.committableIndices, c ≤ r.leaderCommitIdx →
      s.Committed (a.ledger.take c) a.state.currentView := by
    intro hs c hc hle
    have hcr := hbatch hs c hc hle
    rw [hterm]
    refine Committed.mono (hr.proven hs) ?_
    have hlen : c ≤ ((s.tl r.term).take r.idx).length := by
      rw [length_take]
      have := hr.idx_le
      omega
    rw [take_eq_of_isPrefix hlog hlen, take_take, min_eq_left hcr]
    exact take_prefix_take_left hle
  obtain ⟨b, s₁, hb, hsteps, hsh, hst, hle⟩ := h.commitIfPossible hcand hlead hstrict
  have hinv₁ := hsteps.inv hinv
  have hl := Steps.later hinv hsteps
  have hr₁ := hr.later hl
  have htl : (s₁.tl r.term).take r.idx = (s.tl r.term).take r.idx := take_eq_of_isPrefix (hl.tl_prefix _) hr.idx_le
  have htlp : (s₁.tl r.term).take r.prevIdx = (s.tl r.term).take r.prevIdx :=
    take_eq_of_isPrefix (hl.tl_prefix _) (hr.prev_le.trans hr.idx_le)
  have hhistory₁ : b.Recorded ∨ b.ledger = (s₁.tl r.term).take r.idx ∧
      Faithful b.state.viewHistory (((s₁.tl r.term).take r.prevIdx).map Entry.view) ∧
      ∀ j, r.prevIdx < j → j ≤ r.idx → ¬g.proto.SigAt (s₁.tl r.term) j := by
    unfold Aft.Recorded
    rw [hst.history_eq, hst.ledger_eq, htl, htlp]
    refine hhistory.imp_right fun ⟨h1, h2, h3⟩ => ⟨h1, h2, fun j hj hjr => ?_⟩
    rw [Proto.sigAt_of_isPrefix (hl.tl_prefix _) (hjr.trans hr.idx_le)]
    exact h3 j hj hjr
  have hlog₁ : (s₁.tl r.term).take r.idx <+: b.ledger := by
    rw [htl, hst.ledger_eq]
    exact hlog
  obtain ⟨h', hview, hfaithful⟩ :=
    hsh.tracks.recordBatchView_eq hr₁ hinv₁ hlog₁ hhistory₁ (hsh.log_eq ▸ hinv₁.log_coherent i)
  have hleadb : ¬b.isLeader := fun hl => by
    rcases hst.leadership with hsame | hnone
    · exact hlead (hsame.symm.trans hl)
    · cases hnone.symm.trans hl
  have hsim : Sim g m s₁ i { b with state.viewHistory := h' } := by
    refine ⟨⟨.of_not_leader hsh.tells.toSends (Later.refl s₁) hleadb rfl rfl rfl rfl, hsh.view_eq, hsh.log_eq,
      hsh.commit_eq, { hsh.tracks with knows := { hsh.tracks.knows with } }, hsh.preVote, fun hc => ?_,
      fun hu => ⟨(hsh.voted hu).vote, (hsh.voted hu).own⟩⟩, hfaithful, fun hlen => ?_, fun ht => ?_⟩
    · rcases hst.leadership with hsame | hnone
      · exact absurd (hsame.symm.trans hc) hcand
      · cases hnone.symm.trans hc
    · rw [hst.ledger_eq] at hlen
      exact (hcovered hlen).trans hle
    · rw [hst.ticking_eq] at ht
      exact (hticking ht).trans hle
  have hack := hsim.ack hr₁ hinv₁ hne (hst.view_eq.trans hterm) hlog₁
  unfold Aft.executeAppendEntriesFinish
  rw [hb, Outcome.andThen_ok, hview, Outcome.andThen_ok]
  exact ⟨hack.of_steps hsteps, by simp [Outcome.error?]⟩

end

/-! ### The loop over the new entries -/

variable {log : List Entry} {fresh : Prop} {n : ℕ}

/-- No entry after the first fails to apply before the view of the batch is known. -/
def Remembers (g : Genesis) (r : AppendEntries) (faults : ℕ → Fault) (log : List Entry) : Prop :=
  ∀ f, r.prevIdx + 1 < f → f ≤ r.idx → faults f = .apply → g.proto.termAt log r.prevIdx < r.termOfIdx →
    ∃ j, r.prevIdx < j ∧ j < f ∧ g.proto.SigAt log j

/-- Where an entry fails to apply, the view history is that of the log. -/
theorem Applying.recorded (h : Applying g m s i r fresh n a) (hr : GoodBatch g m s src r data)
    (hinv : Inv g.proto m s) (hn : n < r.idx) (hfault : faults (n + 1) = .apply)
    (hrem : fresh → Remembers g r faults (s.tl r.term)) : a.Recorded := by
  by_contra hrec
  obtain ⟨hfresh, hfaithful, hunsigned⟩ := h.history.resolve_left hrec
  have hprev := h.prev_le
  have hviews := hr.views_take hprev hn.le
  have hlenp : (((s.tl r.term).take r.prevIdx).map Entry.view).length = r.prevIdx := by
    have := hr.idx_le
    rw [length_map, length_take]
    omega
  have hext : g.proto.termAt (s.tl r.term) r.prevIdx = r.termOfIdx ∨ n = r.prevIdx → a.Recorded := by
    intro hcase
    unfold Aft.Recorded
    rw [h.ledger_eq, hviews]
    rcases hcase with heq | rfl
    · refine hfaithful.extend ?_ _
      rw [hlenp, ← termAt_eq_viewOf (g := g), Proto.termAt_take le_rfl, heq]
    · simpa using hfaithful
  have hlt : r.prevIdx < n := Nat.lt_of_le_of_ne hprev fun heq => hrec (hext (.inr heq.symm))
  have hterm : g.proto.termAt (s.tl r.term) r.prevIdx < r.termOfIdx :=
    Nat.lt_of_le_of_ne (hr.prevTerm_le hinv) fun heq => hrec (hext (.inl heq))
  obtain ⟨j, hj, hjf, hsig⟩ := hrem hfresh (n + 1) (by omega) hn hfault hterm
  exact hunsigned j hj (by omega) hsig

theorem Remembers.of_isPrefix {log' : List Entry} (h : Remembers g r faults log) (hp : log <+: log')
    (hprev : r.prevIdx ≤ r.idx) (hidx : r.idx ≤ log.length) : Remembers g r faults log' := by
  intro f hf hfr hfault hterm
  rw [Proto.termAt_of_isPrefix hp (hprev.trans hidx)] at hterm
  obtain ⟨j, hj, hjf, hsig⟩ := h f hf hfr hfault hterm
  exact ⟨j, hj, hjf, (Proto.sigAt_of_isPrefix hp (by omega)).2 hsig⟩

theorem Applying.safe_executeAppendEntriesSync (h : Applying g m s i r fresh n a) (hr : GoodBatch g m s src r data)
    (hinv : Inv g.proto m s) (hne : i ≠ src) (hrem : fresh → Remembers g r faults (s.tl r.term))
    (hlog : (s.tl r.term).take r.idx = log) :
    Safe g m s i (Aft.executeAppendEntriesSync faults src r ((log.drop n).zipIdx (n + 1)) a) := by
  have hidx := hr.idx_le
  have hlen : log.length = r.idx := by
    rw [← hlog, length_take]
    omega
  -- induction on the number of entries that are left
  obtain ⟨k, hk⟩ := Nat.exists_eq_add_of_le h.le_idx
  induction k generalizing n a s with
  | zero =>
    subst hk
    rw [drop_of_length_le hlen.le, zipIdx_nil]
    refine safe_executeAppendEntriesFinish hr hinv hne ?_ ?_ h.toShadows h.covered h.ticking h.term_eq h.role ?_
    · rw [h.ledger_eq]
    · exact h.history.imp_right fun ⟨_, hf, hs⟩ => ⟨h.ledger_eq, hf, hs⟩
    · intro _ c hc _
      have := Aft.SignedAt.le_length (h.tracks.signedAt hc)
      rwa [h.length_eq hr] at this
  | succ k ih =>
    have hn : n < r.idx := by omega
    obtain ⟨e, hget⟩ : ∃ e, log[n]? = some e := ⟨_, getElem?_eq_getElem (by omega)⟩
    have he : (s.tl r.term)[n]? = some e := by
      rw [← hget, ← hlog, getElem?_take_of_lt hn]
    have hdrop : log.drop n = e :: log.drop (n + 1) := by
      obtain ⟨hlt, heq⟩ := List.getElem?_eq_some_iff.1 hget
      rw [drop_eq_getElem_cons hlt, heq]
    have hlast := h.last_eq hr
    have hview : e.view = r.termOfIdx := by
      have hterm := hr.one_view (n + 1) (by have := h.prev_le; omega) (by omega)
      rw [Proto.termAt, he] at hterm
      exact hterm
    rw [hdrop, zipIdx_cons, Aft.executeAppendEntriesSync]
    split
    · rename_i happly
      have hfault : faults (n + 1) = .apply := by
        unfold Aft.applyEntry at happly
        split_ifs at happly with hcond
        exact hcond.resolve_right (not_not.2 hview)
      have hsame : { a with ledger := a.ledger.take (n + 1 - 1) } = a := by
        rw [Nat.add_sub_cancel, take_of_length_le (h.length_eq hr).le]
      rw [hsame]
      have hsim : Sim g m s i a := ⟨h.toShadows, h.recorded hr hinv hn hfault hrem, h.covered, h.ticking⟩
      exact (hsim.nack hne _ _).safe
    · obtain ⟨b, s', hb, hsteps, happ⟩ := h.executeEntry hr hinv hne hn he
      rw [hlast] at hb
      rw [hb, Outcome.andThen_ok]
      have hl := Steps.later hinv hsteps
      refine Safe.of_steps hsteps (ih happ (hr.later hl) (hsteps.inv hinv) ?_ ?_ ?_ (by omega))
      · exact fun hf => (hrem hf).of_isPrefix (hl.tl_prefix _) hr.prev_le hidx
      · rw [take_eq_of_isPrefix (hl.tl_prefix _) hidx]
        exact hlog
      · exact (hr.later hl).idx_le

/-! ### Receiving a batch -/

section

variable (h : Sim g m s i a) (hr : GoodBatch g m s src r data) (hinv : Inv g.proto m s) (hne : i ≠ src)
  (hterm : a.state.currentView = r.term)
  (hrole : a.state.leadershipState = .follower ∨ a.state.leadershipState = .none) {k : ℕ}

include h hr hinv

omit hne hterm hrole in
/-- Log matching, for the part of a batch that the node has. -/
theorem Sim.agree (hprevTerm : a.getTermInternal r.prevIdx = r.prevTerm) (hprev : r.prevIdx ≤ k)
    (hlast : k ≤ a.state.lastIdx) (hidx : k ≤ r.idx)
    (hskip : ∀ j, r.prevIdx < j → j ≤ k → a.state.viewHistory.viewAt j = r.termOfIdx) :
    a.ledger.take k = (s.tl r.term).take k := by
  have hlen := h.tracks.last_eq
  refine (h.coherent hinv).take_eq (hinv.tl_coherent _) (by omega) (hidx.trans hr.idx_le) ?_
  rcases eq_or_lt_of_le hprev with rfl | hlt
  · rw [← h.recorded.getTermInternal_eq h.tracks.last_eq, hprevTerm, hr.prevTerm_eq]
  · rw [← h.recorded.viewAt_eq (by omega), hskip k hlt le_rfl, hr.one_view k hlt hidx]

include hne hterm hrole

/-- A follower drops what conflicts with the log of its leader. -/
theorem Sim.cutAt (hcommit : a.state.commitIdx ≤ k) (hk : k < a.state.lastIdx) (hidx : k < r.idx)
    (hprev : r.prevIdx ≤ k) (hag : a.ledger.take k = (s.tl r.term).take k)
    (hview : a.state.viewHistory.viewAt (k + 1) ≠ r.termOfIdx) :
    ∃ s', Step g.proto m i s s' ∧ s'.tl = s.tl ∧ Sim g m s' i (a.cutAt k) ∧ (a.cutAt k).ledger = a.ledger.take k ∧
      (a.cutAt k).state.currentView = a.state.currentView ∧
      (a.cutAt k).state.leadershipState = a.state.leadershipState := by
  have hlen := h.tracks.last_eq
  have htl := hr.idx_le
  have htlview : s.tl (s.view i) = s.tl r.term := by rw [h.view_eq, hterm]
  have hstep : Step g.proto m i s { s with log := Function.update s.log i ((s.tl (s.view i)).take k) } := by
    refine .replace src k k ?_ hne.symm ?_ le_rfl ?_ ?_ (.inr ⟨?_, ?_⟩) ?_
    · rw [h.view_eq, hterm]
      exact hr.leader_eq
    · rw [h.log_eq]
      omega
    · rw [htlview]
      omega
    · rw [h.log_eq, htlview]
      exact hag
    · rw [htlview]
      omega
    · rw [h.log_eq, htlview, ← h.recorded.viewAt_eq (by omega), hr.one_view (k + 1) (by omega) (by omega)]
      exact hview
    · rw [h.commit_eq]
      exact hcommit
  have hl := Steps.later hinv (.single hstep)
  have hback := Aft.rollback_tracks h.tracks hk.le
  have htracks : Aft.Tracks (a.cutAt k) := { hback with knows := { hback.knows with } }
  have heq := Aft.rollback_eq h.tracks hcommit
  have hledger : (a.cutAt k).ledger = a.ledger.take k := by
    show (a.rollback k).ledger = _
    rw [heq]
  have hcur : (a.cutAt k).state.currentView = a.state.currentView := by
    show (a.rollback k).state.currentView = _
    rw [heq]
    rfl
  have hlead : (a.cutAt k).state.leadershipState = a.state.leadershipState := by
    show (a.rollback k).state.leadershipState = _
    rw [heq]
    rfl
  have hcom : (a.cutAt k).state.commitIdx = a.state.commitIdx := by
    show (a.rollback k).state.commitIdx = _
    rw [heq]
    rfl
  have hvoted : (a.cutAt k).votedFor = a.votedFor := by
    show (a.rollback k).votedFor = _
    rw [heq]
  have hnotlead : ¬(a.cutAt k).isLeader := fun hl => by
    rcases hrole with hrole | hrole <;> cases (hlead.trans hrole).symm.trans hl
  refine ⟨_, hstep, rfl, ⟨⟨.of_not_leader h.tells.toSends hl hnotlead ?_ ?_ ?_ ?_, h.view_eq.trans hcur.symm, ?_,
    h.commit_eq.trans hcom.symm, htracks, fun hp => ?_, fun hc => ?_, fun hu => ⟨?_, ?_⟩⟩, ?_, fun hgen => ?_,
    fun ht => ?_⟩,
    hledger, hcur, hlead⟩
  · show (a.rollback k).state.nodeId = _
    rw [heq]
    rfl
  · show Assoc.keys (a.rollback k).allOtherNodes = _
    rw [heq]
  · show (a.rollback k).entriesBatchSize = _
    rw [heq]
  · show (a.rollback k).outbox = _
    rw [heq]
  · rw [hledger, hag, ← htlview]
    exact Function.update_self _ _ _
  · rcases hrole with hrole | hrole <;> cases (hlead.trans hrole).symm.trans hp
  · rcases hrole with hrole | hrole <;> cases (hlead.trans hrole).symm.trans hc
  · rw [hcur, hvoted]
    exact (h.voted hu).vote
  · rw [hcur, hvoted]
    exact (h.voted hu).own
  · have hcut := Faithful.rollback h.recorded (k := k) (by rw [length_map]; omega)
    unfold Aft.Recorded
    rw [hledger, map_take]
    show Faithful (a.rollback k).state.viewHistory _
    rw [heq]
    exact hcut
  · rw [hcom]
    refine h.covered ?_
    rw [hledger, length_take] at hgen
    omega
  · rw [hcom]
    refine h.ticking ?_
    have ht : (a.rollback k).ticking = true := ht
    rw [heq] at ht
    exact ht

/-- What a node does with a batch whose terms match up. -/
theorem Sim.safe_processEntries (hprevTerm : a.getTermInternal r.prevIdx = r.prevTerm)
    (hpast : m.strict → ¬a.CommitsPastBatch r) (hlose : ¬a.LosesView faults r data) :
    Safe g m s i (a.processEntries faults src r data) := by
  unfold Aft.processEntries
  split_ifs with hcommit hlast
  · exact h.safe
  · exact h.safe
  rw [Nat.not_lt] at hcommit hlast
  have hidx := hr.idx_le
  have hprev_le := hr.prev_le
  have hlen := h.tracks.last_eq
  have hdata : data = ((s.tl r.term).take r.idx).drop r.prevIdx := hr.data_eq
  have hlendata : data.length = r.idx - r.prevIdx := by
    rw [hdata, length_drop, length_take]
    omega
  have hviewPrev : a.state.viewHistory.viewAt r.prevIdx = g.proto.termAt (s.tl r.term) r.prevIdx := by
    rw [h.recorded.viewAt_eq (g := g) (by omega), ← h.recorded.getTermInternal_eq h.tracks.last_eq, hprevTerm,
      hr.prevTerm_eq]
  -- the view of the batch is learnt in time when nothing of it was in the log
  have hrem : (a.state.lastIdx = r.prevIdx ∨ a.state.viewHistory.viewAt (r.prevIdx + 1) ≠ r.termOfIdx) →
      Remembers g r faults (s.tl r.term) := by
    intro hnew f hf hfr hfault hlt
    by_contra hnone
    push Not at hnone
    refine hlose ⟨by rw [hviewPrev]; exact hlt, hnew, f - r.prevIdx - 1, by omega, by omega, ?_, fun e he => ?_⟩
    · rw [show r.prevIdx + (f - r.prevIdx - 1) + 1 = f by omega]
      exact hfault
    · obtain ⟨j, hj⟩ := getElem?_of_mem he
      have hjlt : j < f - r.prevIdx - 1 := by
        have := (List.getElem?_eq_some_iff.1 hj).1
        rw [length_take] at this
        omega
      rw [getElem?_take_of_lt hjlt, hdata, getElem?_drop, getElem?_take_of_lt (by omega)] at hj
      by_contra hsig
      rw [Bool.not_eq_false] at hsig
      exact hnone (r.prevIdx + j + 1) (by omega) (by omega) ⟨e, by omega, hj, hsig⟩
  have hrest : ∀ k, r.prevIdx ≤ k →
      (data.drop (k - r.prevIdx)).take (r.idx - k) = ((s.tl r.term).take r.idx).drop k := by
    intro k hk
    rw [hdata, drop_drop, show r.prevIdx + (k - r.prevIdx) = k by omega, take_of_length_le]
    rw [length_drop, length_take]
    omega
  have hscan := @Aft.scanned faults src r.termOfIdx r.idx a r.prevIdx hcommit hlast data
  generalize Aft.scanEntries faults src r.termOfIdx (r.idx - r.prevIdx) (r.prevIdx + 1) data [] a = scan at hscan
  cases hscan with
  | short => exact ⟨h.reaches, by simp [Outcome.error?]⟩
  | ignored => exact h.safe
  | @unreadable k b hprev hk hmax hskip hbase =>
    cases hbase with
    | keep => exact (h.nack hne _ _).safe
    | cut hlt hkr hview hnew =>
      obtain ⟨s', hstep, -, hsim, -⟩ := h.cutAt hr hinv hne hterm hrole (hcommit.trans hprev) hlt hkr hprev
        (h.agree hr hinv hprevTerm hprev hk hkr.le hskip) hview
      exact Safe.of_steps (.single hstep) (hsim.nack hne _ _).safe
  | @collected k b hprev hk hmax hskip hbase hlenk =>
    have hkr : k ≤ r.idx := by omega
    have hag := h.agree hr hinv hprevTerm hprev hk hkr hskip
    dsimp only
    rw [hrest k hprev]
    cases hbase with
    | keep hkeep =>
      by_cases hfull : k = a.state.lastIdx
      · -- the new entries go to the end of the log
        have happ : Applying g m s i r (k = r.prevIdx) k a := by
          refine ⟨h.toShadows, h.covered, h.ticking, hterm, hrole, hprev, hkr, ?_, fun heq => heq, .inl h.recorded⟩
          rw [← hag, take_of_length_le (by omega)]
        exact happ.safe_executeAppendEntriesSync hr hinv hne (fun heq => hrem (.inl (by omega))) rfl
      · -- the node has all of the batch
        obtain rfl : k = r.idx := by omega
        rw [drop_of_length_le (length_take_le _ _), zipIdx_nil, Aft.executeAppendEntriesSync]
        refine safe_executeAppendEntriesFinish hr hinv hne ?_ (.inl h.recorded) h.toShadows h.covered h.ticking hterm
          hrole ?_
        · rw [← hag]
          exact take_prefix _ _
        · intro hs c hc hle
          by_contra hgt
          exact hpast hs ⟨hterm.le, hprevTerm, hcommit, hk, hskip, c, hc, by omega, hle⟩
    | cut hlt hkr' hview hnew =>
      obtain ⟨s', hstep, htl, hsim, hledger, hcur, hlead⟩ := h.cutAt hr hinv hne hterm hrole (hcommit.trans hprev) hlt
        hkr' hprev hag hview
      have hl := Steps.later hinv (.single hstep)
      have happ : Applying g m s' i r (k = r.prevIdx) k (a.cutAt k) := by
        refine ⟨hsim.toShadows, hsim.covered, hsim.ticking, hcur.trans hterm, ?_, hprev, hkr, ?_, fun heq => heq,
          .inl hsim.recorded⟩
        · rw [hlead]
          exact hrole
        · rw [htl, hledger, hag]
      refine Safe.of_steps (.single hstep) (happ.safe_executeAppendEntriesSync (hr.later hl) (hstep.inv hinv) hne ?_ ?_)
      · intro heq
        rw [htl]
        exact hrem (.inr (heq ▸ hview))
      · rw [htl]

theorem Sim.safe_checkAppendEntries (draw : ℕ) (hpast : m.strict → ¬a.CommitsPastBatch r)
    (hlose : ¬a.LosesView faults r data) : Safe g m s i (a.checkAppendEntries draw faults src r data) := by
  unfold Aft.checkAppendEntries
  split_ifs with hprev hunknown
  · exact (h.nack hne _ _).safe
  · exact (h.nack hne _ _).safe
  · rw [not_not] at hprev
    have hb : Sim g m s i { a.restartElectionTimeout draw with leaderId := some src } :=
      h.of_tells (h.tells.adjust rfl rfl (List.Subset.refl _) rfl h.tells.batch_pos fun hl p hp => h.tells.nodeOk hl hp)
        rfl rfl rfl rfl rfl rfl rfl
    exact hb.safe_processEntries hr hinv hne hterm hrole hprev hpast hlose

end

/-- **A batch of a leader** can be received in every state. -/
theorem Sim.safe_recvAppendEntries (h : Sim g m s i a) (hr : GoodBatch g m s src r data)
    (hinv : Inv g.proto m s) (hne : i ≠ src) (draw : ℕ)
    (hforget : m.unique → ¬a.ForgetsVote r) (hpast : m.strict → ¬a.CommitsPastBatch r)
    (hlose : ¬a.LosesView faults r data) : Safe g m s i (a.recvAppendEntries draw faults src r data) := by
  unfold Aft.recvAppendEntries
  split_ifs with hlate hfollow
  · exact (h.nack hne _ _).safe
  · have hle : a.state.currentView ≤ r.term := not_lt.1 hlate
    obtain ⟨s', hstep, hl, hsim⟩ : ∃ s', Step g.proto m i s s' ∧ Later s s' ∧
        Sim g m s' i (a.becomeAwareOfNewTerm draw r.term) := by
      rcases eq_or_lt_of_le hle with heq | hlt
      · -- a candidate of the same view follows the leader
        refine h.becomeAwareOfNewTerm draw hle fun hu => ⟨fun vt hvt hvoter hvterm => ?_, fun _ _ _ _ => ?_⟩
        · have hsome := (h.voted hu).vote vt hvt hvoter (hvterm.trans heq.symm)
          refine hforget hu ⟨heq.symm, hfollow.resolve_left (by omega), vt.node, hsome, fun hself => ?_⟩
          exact (hinv.vote_cand vt hvt).1 (hvoter.trans (h.nodeId_eq.symm.trans hself.symm))
        · exact ⟨src, hr.leader_eq, hne.symm⟩
      · exact h.becomeAwareOfLaterTerm hinv draw hlt
    refine Safe.of_steps (.single hstep) (hsim.safe_checkAppendEntries (hr.later hl) (hstep.inv hinv) hne rfl
      (.inl rfl) draw (fun hs hp => hpast hs ?_) hlose)
    exact ⟨hle, hp.2⟩
  · rw [not_or, not_or] at hfollow
    have hterm : a.state.currentView = r.term := by omega
    refine h.safe_checkAppendEntries hr hinv hne hterm ?_ draw hpast hlose
    cases hrole : a.state.leadershipState with
    | none => exact .inr rfl
    | follower => exact .inl rfl
    | leader =>
      have hleader := (h.tells.speaks hrole).leader_eq
      rw [hterm, hr.leader_eq, Option.some.injEq] at hleader
      exact absurd hleader.symm hne
    | candidate => exact absurd hrole hfollow.2.1
    | preVoteCandidate => exact absurd hrole hfollow.2.2

end Ccf
