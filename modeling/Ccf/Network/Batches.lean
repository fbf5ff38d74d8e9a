import Ccf.Network.Replication

/-! # Applying a batch

A follower that accepts a batch cuts its log where it conflicts with the batch and appends the rest, a piece of the log
of the leader. It learns the view of the new entries at the first signature among them, or else at the end of the
batch. `Applying` describes the node in between: its log is a prefix of the leader's, and its view history either is
that of its log or stops at the beginning of the batch.

A node that fails to apply an entry in between does not know the view of the entries before it (`LosesView`); one
whose log goes on after a batch may commit entries the leader never saw (`CommitsPastBatch`). -/

namespace Ccf

open List SignedRaft ViewHistory Entry

namespace Aft

/-- The log of the node has the batch and goes on after it, and a signature after the batch is at or below
the commit index of the leader. -/
def CommitsPastBatch (a : Aft) (r : AppendEntries) : Prop :=
  a.state.currentView ≤ r.term ∧ a.getTermInternal r.prevIdx = r.prevTerm ∧ a.state.commitIdx ≤ r.prevIdx ∧
    r.idx ≤ a.state.lastIdx ∧ (∀ j, r.prevIdx < j → j ≤ r.idx → a.state.viewHistory.viewAt j = r.termOfIdx) ∧
    ∃ c ∈ a.state.committableIndices, r.idx < c ∧ c ≤ r.leaderCommitIdx

/-- The batch starts a view that the node does not have; some of its entries are applied, none of them a
signature, and the next one fails to apply. -/
def LosesView (a : Aft) (faults : ℕ → Fault) (r : AppendEntries) (data : List Entry) : Prop :=
  a.state.viewHistory.viewAt r.prevIdx < r.termOfIdx ∧
    (a.state.lastIdx = r.prevIdx ∨ a.state.viewHistory.viewAt (r.prevIdx + 1) ≠ r.termOfIdx) ∧
    ∃ n, 0 < n ∧ n < data.length ∧ faults (r.prevIdx + n + 1) = .apply ∧ ∀ e ∈ data.take n, e.tx.committable = false

/-- A candidate that has voted for another node hears from the leader of its view, and forgets its vote. -/
def ForgetsVote (a : Aft) (r : AppendEntries) : Prop :=
  r.term = a.state.currentView ∧
    (a.state.leadershipState = .candidate ∨ a.state.leadershipState = .preVoteCandidate) ∧
    ∃ n, a.votedFor = some n ∧ n ≠ a.state.nodeId

instance (a : Aft) (r : AppendEntries) : Decidable (a.CommitsPastBatch r) :=
  decidable_of_iff (a.state.currentView ≤ r.term ∧ a.getTermInternal r.prevIdx = r.prevTerm ∧
      a.state.commitIdx ≤ r.prevIdx ∧ r.idx ≤ a.state.lastIdx ∧
      (∀ j ≤ r.idx, r.prevIdx < j → a.state.viewHistory.viewAt j = r.termOfIdx) ∧
      ∃ c ∈ a.state.committableIndices, r.idx < c ∧ c ≤ r.leaderCommitIdx) (by
    unfold CommitsPastBatch
    refine and_congr_right' (and_congr_right' (and_congr_right' (and_congr_right' (and_congr_left' ?_))))
    exact ⟨fun h j hj hle => h j hle hj, fun h j hle hj => h j hj hle⟩)

instance (a : Aft) (faults : ℕ → Fault) (r : AppendEntries) (data : List Entry) :
    Decidable (a.LosesView faults r data) :=
  decidable_of_iff (a.state.viewHistory.viewAt r.prevIdx < r.termOfIdx ∧
      (a.state.lastIdx = r.prevIdx ∨ a.state.viewHistory.viewAt (r.prevIdx + 1) ≠ r.termOfIdx) ∧
      ∃ n < data.length, 0 < n ∧ faults (r.prevIdx + n + 1) = .apply ∧ ∀ e ∈ data.take n, e.tx.committable = false) (by
    unfold LosesView
    simp only [and_left_comm])

instance (a : Aft) (r : AppendEntries) : Decidable (a.ForgetsVote r) :=
  inferInstanceAs (Decidable (_ ∧ _ ∧ ∃ n ∈ a.votedFor, n ≠ a.state.nodeId))

end Aft

variable {g : Genesis} {m : Mode NodeId} {s s' : Sys NodeId Entry} {i : NodeId} {a b : Aft} {n : ℕ}
  {q p : List Entry}

/-! ### Logs of leaders -/

theorem Committed.mono {T : ℕ} (h : s.Committed q T) (hp : p <+: q) : s.Committed p T := by
  rcases h with rfl | ⟨e, he, hT, hq⟩
  · exact .inl (prefix_nil.1 hp)
  · exact .inr ⟨e, he, hT, hp.trans hq⟩

/-- After the last signature all entries are of one view. -/
theorem termAt_after_lastSig (hinv : LogInv g.proto s) {log : List Entry} (hlog : g.proto.Coherent s.tl log)
    (hsig : g.proto.lastSig log < n) (hn : n ≤ log.length) :
    g.proto.termAt log n = g.proto.termAt log log.length := by
  obtain ⟨k, hk⟩ := Nat.exists_eq_add_of_le hn
  induction k generalizing n with
  | zero => rw [hk, add_zero]
  | succ k ih =>
    rw [← ih (by omega : g.proto.lastSig log < n + 1) (by omega) (by omega)]
    by_contra hne
    have := (hinv.boundary hlog (by omega) (by omega) hne).le_lastSig
    omega

variable {src : NodeId} {r : AppendEntries} {data : List Entry}

section

variable (hr : GoodBatch g m s src r data)
  (hinv : Inv g.proto m s)

include hr hinv

theorem GoodBatch.prevTerm_le : g.proto.termAt (s.tl r.term) r.prevIdx ≤ r.termOfIdx := by
  rw [hr.termOfIdx_eq]
  exact hinv.termAt_mono (hinv.tl_coherent _) hr.prev_le hr.idx_le

theorem GoodBatch.view_pos : 2 ≤ r.termOfIdx := by
  rw [hr.termOfIdx_eq]
  exact first_le_termAt hinv.toLogInv (hinv.tl_coherent _) hr.pos hr.idx_le

theorem GoodBatch.genesis : g.log <+: s.tl r.term := hinv.tl_genesis _ _ hr.leader_eq

omit hinv in
/-- The views of a beginning of the leader's log that ends in the batch. -/
theorem GoodBatch.views_take (hprev : r.prevIdx ≤ n) (hn : n ≤ r.idx) : ((s.tl r.term).take n).map view =
      ((s.tl r.term).take r.prevIdx).map view ++ List.replicate (n - r.prevIdx) r.termOfIdx := by
  have hidx := hr.idx_le
  refine ext_getElem? fun j => ?_
  rcases lt_or_ge j r.prevIdx with hlt | hge
  · rw [getElem?_append_left (by simp; omega)]
    simp only [getElem?_map, getElem?_take]
    rw [if_pos hlt, if_pos (by omega)]
  · have hlen : (((s.tl r.term).take r.prevIdx).map view).length = r.prevIdx := by
      rw [length_map, length_take]
      omega
    rw [getElem?_append_right (by omega), hlen, getElem?_replicate, getElem?_map, getElem?_take]
    rcases lt_or_ge j n with hjn | hjn
    · rw [if_pos hjn, if_pos (by omega)]
      have hterm := hr.one_view (j + 1) (by omega) (by omega)
      rw [termAt_eq_viewOf, viewOf_succ, getD_eq_getElem?_getD, getElem?_map] at hterm
      obtain ⟨e, he⟩ : ∃ e, (s.tl r.term)[j]? = some e := ⟨_, getElem?_eq_getElem (by omega)⟩
      rw [he] at hterm ⊢
      simpa using hterm
    · rw [if_neg (by omega), if_neg (by omega)]
      rfl

omit hinv in
theorem GoodBatch.views_succ (hprev : r.prevIdx ≤ n) (hn : n < r.idx) : ((s.tl r.term).take (n + 1)).map view =
      ((s.tl r.term).take n).map view ++ List.replicate 1 r.termOfIdx := by
  rw [hr.views_take hprev hn.le, hr.views_take (hprev.trans (Nat.le_succ n)) hn, append_assoc,
    replicate_append_replicate, Nat.succ_sub hprev]

end

/-! ### Commits cover the genesis log -/

theorem commitIfPossible_covers {p : ℕ} (h : Aft.Tracks a) {idx : ℕ} (hsig : SignedAt a.ledger p) (hp : p ≤ idx)
    (hterm : a.getTermInternal idx ≤ a.state.currentView) (hb : a.commitIfPossible idx = .ok b) :
    p ≤ b.state.commitIdx := by
  unfold Aft.commitIfPossible at hb
  rcases lt_or_ge a.state.commitIdx p with hlt | hge
  · have hmem : p ∈ a.state.committableIndices := h.mem_committable.2 ⟨hsig, hlt⟩
    obtain ⟨c, hc, hpc⟩ := Aft.le_findHighestPossibleCommittableIndex
      (h.committable_eq ▸ (signatures_sorted a.ledger).sublist filter_sublist) hmem hp
    rw [if_pos ⟨by omega, hterm⟩, hc] at hb
    dsimp only at hb
    obtain ⟨b', hb', -, -, hcommit⟩ := Aft.commit_spec h (Aft.findHighestPossibleCommittableIndex_eq_some hc).1
    rw [hb'] at hb
    cases hb
    omega
  · split_ifs at hb with hcond
    · split at hb
      · cases hb
        exact hge
      · rename_i c hc
        have hmem := (Aft.findHighestPossibleCommittableIndex_eq_some hc).1
        have hlt := (h.mem_committable.1 hmem).2
        obtain ⟨b', hb', -, -, hcommit⟩ := Aft.commit_spec h hmem
        rw [hb'] at hb
        cases hb
        omega
    · cases hb
      exact hge

/-! ### One entry -/

/-- A node in the middle of a batch: the first `n` entries of the leader's log are in its log. When the
batch is `fresh`, nothing of it was in the log before. -/
structure Applying (g : Genesis) (m : Mode NodeId) (s : Sys NodeId Entry) (i : NodeId) (r : AppendEntries)
    (fresh : Prop) (n : ℕ) (a : Aft) : Prop extends Shadows g m s i a where
  covered : g.log.length ≤ a.ledger.length → g.log.length ≤ a.state.commitIdx
  ticking : a.ticking = true → g.log.length ≤ a.state.commitIdx
  term_eq : a.state.currentView = r.term
  role : a.state.leadershipState = .follower ∨ a.state.leadershipState = .none
  prev_le : r.prevIdx ≤ n
  le_idx : n ≤ r.idx
  ledger_eq : a.ledger = (s.tl r.term).take n
  start : n = r.prevIdx → fresh
  history : a.Recorded ∨ fresh ∧ Faithful a.state.viewHistory (((s.tl r.term).take r.prevIdx).map view) ∧
    ∀ j, r.prevIdx < j → j ≤ n → ¬g.proto.SigAt (s.tl r.term) j

variable {fresh : Prop}
  (h : Applying g m s i r fresh n a) (hr : GoodBatch g m s src r data) (hinv : Inv g.proto m s) (hne : i ≠ src)

include h

theorem Applying.not_leader : ¬a.isLeader := by
  intro hlead
  rcases h.role with hrole | hrole
  · cases hlead.symm.trans hrole
  · cases hlead.symm.trans hrole

theorem Applying.not_candidate : a.state.leadershipState ≠ .candidate := by
  intro hcand
  rcases h.role with hrole | hrole
  · cases hcand.symm.trans hrole
  · cases hcand.symm.trans hrole

/-- Until the view of the batch is known, the history is that of the log before the batch. -/
theorem Applying.faithful_prev (hn : n = r.prevIdx ∨ ¬a.Recorded) :
    Faithful a.state.viewHistory (((s.tl r.term).take r.prevIdx).map view) := by
  rcases h.history with hrec | ⟨-, hfaithful, -⟩
  · rcases hn with rfl | hn
    · have := hrec
      unfold Aft.Recorded at this
      rwa [h.ledger_eq] at this
    · exact absurd hrec hn
  · exact hfaithful

variable {e : Entry} {c : Aft}

theorem Applying.concat_eq (he : (s.tl r.term)[n]? = some e) : a.ledger ++ [e] = (s.tl r.term).take (n + 1) := by
  rw [h.ledger_eq, take_add_one, he]
  rfl

include hr

theorem Applying.length_eq : a.ledger.length = n := by
  have := hr.idx_le
  have := h.le_idx
  rw [h.ledger_eq, length_take]
  omega

theorem Applying.last_eq : a.state.lastIdx = n := h.tracks.last_eq.trans (h.length_eq hr)

include hinv

theorem Applying.update (hn : n < r.idx) : ∃ h', a.state.viewHistory.update (r.prevIdx + 1) r.termOfIdx = some h' ∧
      Faithful h' (((s.tl r.term).take (n + 1)).map view) := by
  have hlen : (((s.tl r.term).take r.prevIdx).map view).length = r.prevIdx := by
    have := hr.idx_le
    have := hr.prev_le
    rw [length_map, length_take]
    omega
  have hprev := h.prev_le
  by_cases hcase : n = r.prevIdx ∨ ¬a.Recorded
  · have hfaithful := h.faithful_prev hcase
    have hlast : viewOf (((s.tl r.term).take r.prevIdx).map view)
        (((s.tl r.term).take r.prevIdx).map view).length ≤ r.termOfIdx := by
      rw [hlen, ← termAt_eq_viewOf (g := g), Proto.termAt_take le_rfl]
      exact hr.prevTerm_le hinv
    obtain ⟨h', hu, hf⟩ := hfaithful.update hlast (by omega : 0 < n + 1 - r.prevIdx)
    rw [hlen] at hu
    refine ⟨h', hu, ?_⟩
    rw [hr.views_take (by omega) (by omega)]
    exact hf
  · rw [not_or, not_not] at hcase
    obtain ⟨hgt, hrec⟩ := hcase
    have hrec' : Faithful a.state.viewHistory (((s.tl r.term).take n).map view) := by
      have := hrec
      unfold Aft.Recorded at this
      rwa [h.ledger_eq] at this
    have hlenn : (((s.tl r.term).take n).map view).length = n := by
      rw [length_map, ← h.ledger_eq, h.length_eq hr]
    have hview : ∀ j, r.prevIdx < j → j ≤ n → viewOf (((s.tl r.term).take n).map view) j = r.termOfIdx := by
      intro j hj hjn
      rw [← termAt_eq_viewOf (g := g), Proto.termAt_take hjn]
      exact hr.one_view j hj (by omega)
    have hlast := hview n (by omega) le_rfl
    refine ⟨a.state.viewHistory, hrec'.update_known (by omega) ?_ ?_, ?_⟩
    · rw [hlenn, hview _ (by omega) (by omega), hlast]
    · rw [hlenn, hlast]
    · rw [hr.views_succ hprev hn]
      exact hrec'.extend (by rw [hlenn]; exact hlast) 1

/-- Entries of the genesis log that are not signed come before its last entry. -/
theorem Applying.covered_of_unsigned (he : (s.tl r.term)[n]? = some e)
    (hsig : e.tx.committable = false) (hlen : g.log.length ≤ n + 1) : g.log.length ≤ a.state.commitIdx := by
  rcases lt_or_ge n g.log.length with hlt | hge
  · have hlast : g.log[n]? = some e := by
      rw [← he]
      exact (Proto.getElem?_of_isPrefix (hr.genesis hinv) hlt).symm
    obtain rfl : n = 1 := by
      rw [g.length_log] at hlt hlen
      omega
    simp only [Genesis.log, getElem?_cons_succ, getElem?_cons_zero, Option.some.injEq] at hlast
    rw [← hlast] at hsig
    exact absurd (g.signature_signed.symm.trans hsig) (by decide)
  · exact h.covered (by rw [h.length_eq hr]; exact hge)

include hne

/-- The node with the next entry of the leader's log. -/
theorem Applying.append (hn : n < r.idx) (he : (s.tl r.term)[n]? = some e)
    {R : Retirement} {confs : List Configuration} (happ : Aft.Appended a e b)
    (henrols : Aft.Enrols (Aft.reconfigured { a with state.lastIdx := a.ledger.length + 1 } R confs) c)
    (hbeside : Aft.Beside c b) :
    ∃ s₁, Step g.proto m i s s₁ ∧ s₁.tl = s.tl ∧ Shadows g m s₁ i b := by
  have hlead := h.not_leader
  have hidx := hr.idx_le
  have hconcat := h.concat_eq he
  have htlview : s.tl (s.view i) = s.tl r.term := by rw [h.view_eq, h.term_eq]
  have hstep : Step g.proto m i s { s with log := Function.update s.log i ((s.tl (s.view i)).take (n + 1)) } := by
    refine .replace src n (n + 1) ?_ hne.symm ?_ (Nat.le_succ n) ?_ ?_ (.inl ?_) ?_
    · rw [h.view_eq, h.term_eq]
      exact hr.leader_eq
    · rw [h.log_eq, h.length_eq hr]
    · rw [htlview]
      omega
    · rw [h.log_eq, htlview, h.ledger_eq, take_take, Nat.min_self]
    · rw [h.log_eq, h.length_eq hr]
    · rw [h.commit_eq, ← h.length_eq hr]
      exact h.tracks.commit_le
  have hl := Steps.later hinv (.single hstep)
  have htalks := henrols.talks
  have hwf : WellFormed (a.ledger ++ [e]) := by
    rw [hconcat]
    have := hr.wf.take (n + 1)
    rwa [take_take, min_eq_left (by omega)] at this
  have hleadb : ¬b.isLeader := fun hb => hlead (happ.leadership_eq.symm.trans hb)
  have hvotedc := congrArg Aft.votedFor htalks
  have hvoted : b.votedFor = a.votedFor := hbeside.votedFor_eq.trans hvotedc
  have htells : Tells g m s i c := by
    have hlast : Tells g m s i { a with state.lastIdx := a.ledger.length + 1 } :=
      .of_not_leader h.tells.toSends (Later.refl s) hlead rfl rfl rfl rfl
    exact (hlast.reconfigured fun hl => absurd hl hlead).enrols hinv.toLogInv henrols
  refine ⟨_, hstep, rfl, .of_not_leader htells.toSends hl hleadb ?_ ?_ hbeside.batchSize_eq hbeside.outbox_eq,
    h.view_eq.trans happ.view_eq.symm, ?_, h.commit_eq.trans happ.commit_eq.symm, happ.tracks h.tracks hwf,
    fun hp => ?_,
    fun hc => ?_, fun hu => ⟨?_, ?_⟩⟩
  · rw [happ.nodeId_eq, htalks.state_eq]
    rfl
  · rw [hbeside.nodes_eq]
  · rw [happ.ledger_eq, hconcat, ← htlview]
    exact Function.update_self _ _ _
  · rcases h.role with hrole | hrole <;> cases (happ.leadership_eq.trans hrole).symm.trans hp
  · exact absurd (happ.leadership_eq.symm.trans hc) h.not_candidate
  · rw [happ.view_eq, hvoted]
    exact (h.voted hu).vote
  · rw [happ.view_eq, hvoted]
    exact (h.voted hu).own

theorem Applying.executeEntry (hn : n < r.idx) (he : (s.tl r.term)[n]? = some e) :
    ∃ b s', a.executeEntry r (a.state.lastIdx + 1) e = .ok b ∧ Steps g.proto m i s s' ∧
      Applying g m s' i r fresh (n + 1) b := by
  have hconcat := h.concat_eq he
  have hidx := hr.idx_le
  have hprev := h.prev_le
  have hwf : WellFormed (a.ledger ++ [e]) := by
    rw [hconcat]
    have := hr.wf.take (n + 1)
    rwa [take_take, min_eq_left (by omega)] at this
  have hview : e.view = r.termOfIdx := by
    have hterm := hr.one_view (n + 1) (by omega) (by omega)
    rw [Proto.termAt, he] at hterm
    exact hterm
  have hpos := hr.view_pos hinv
  obtain ⟨b, c, happ, henrols, hbeside, hticking, heq⟩ := Aft.executeEntry_appended h.tracks hwf r
  obtain ⟨s₁, hstep, htl, hsh⟩ := h.append hr hinv hne hn he happ henrols hbeside
  have hinv₁ := hstep.inv hinv
  have hl := Steps.later hinv (.single hstep)
  have hhistory : b.state.viewHistory = a.state.viewHistory := by
    rw [hbeside.history_eq, henrols.talks.state_eq]
    rfl
  have hledger : b.ledger = (s.tl r.term).take (n + 1) := happ.ledger_eq.trans hconcat
  have hlen : b.ledger.length = n + 1 := by
    rw [hledger, length_take]
    omega
  have hsigned : g.proto.SigAt (s.tl r.term) (n + 1) ↔ e.tx.committable = true := by
    unfold Proto.SigAt
    rw [Nat.add_sub_cancel, he]
    simp [Genesis.proto]
  cases hsig : e.tx.committable with
  | false =>
    rw [heq, if_neg (by simp [hsig])]
    have hcov : g.log.length ≤ n + 1 → g.log.length ≤ b.state.commitIdx := fun hle => by
      rw [happ.commit_eq]
      exact h.covered_of_unsigned hr hinv he hsig hle
    refine ⟨b, s₁, rfl, .single hstep, hsh, fun hle => hcov (hlen ▸ hle), fun ht => ?_, happ.view_eq.trans h.term_eq,
      ?_, by omega, hn, by rw [htl]; exact hledger, fun heq => absurd heq (by omega), ?_⟩
    · rw [happ.commit_eq]
      exact h.ticking ((hticking hsig).symm.trans ht)
    · rw [happ.leadership_eq]
      exact h.role
    · -- the history stays as it is: either it lags already, or the entry is of the last view
      unfold Aft.Recorded
      rw [hhistory, htl, hledger]
      by_cases hcase : n = r.prevIdx ∨ ¬a.Recorded
      · refine .inr ⟨?_, h.faithful_prev hcase, fun j hj hjn => ?_⟩
        · rcases hcase with hcase | hcase
          · exact h.start hcase
          · exact (h.history.resolve_left hcase).1
        · rcases lt_or_ge n j with hlt | hge
          · obtain rfl : j = n + 1 := by omega
            rw [hsigned, hsig]
            simp
          · rcases hcase with rfl | hcase
            · omega
            · exact (h.history.resolve_left hcase).2.2 j hj hge
      · rw [not_or, not_not] at hcase
        have hrec := hcase.2
        unfold Aft.Recorded at hrec
        rw [h.ledger_eq] at hrec
        refine .inl ?_
        rw [hr.views_succ hprev hn]
        refine hrec.extend ?_ 1
        rw [length_map, ← h.ledger_eq, h.length_eq hr, h.ledger_eq, ← termAt_eq_viewOf (g := g),
          Proto.termAt_take le_rfl]
        exact hr.one_view n (by omega) (by omega)
  | true =>
    obtain ⟨h', hu, hf⟩ := h.update hr hinv hn
    have hrecord : b.recordSignatureView r e.view = .ok { b with state.viewHistory := h' } := by
      unfold Aft.recordSignatureView Aft.updateViewHistory
      rw [if_neg (by unfold invalidView; omega), hhistory, hview, hu]
    have hd : Shadows g m s₁ i { b with state.viewHistory := h' } :=
      ⟨.of_not_leader hsh.tells.toSends (Later.refl s₁) (fun hb => h.not_leader (happ.leadership_eq.symm.trans hb)) rfl
        rfl rfl rfl, hsh.view_eq, hsh.log_eq, hsh.commit_eq,
        { hsh.tracks with knows := { hsh.tracks.knows with } }, hsh.preVote,
        fun hc => absurd (happ.leadership_eq.symm.trans hc) h.not_candidate,
        fun hu => ⟨(hsh.voted hu).vote, (hsh.voted hu).own⟩⟩
    have hrec : Aft.Recorded { b with state.viewHistory := h' } := by
      show Faithful h' (b.ledger.map view)
      rw [hledger]
      exact hf
    have hcommitted : m.strict → ∀ c ∈ b.state.committableIndices, c ≤ r.leaderCommitIdx →
        s₁.Committed (b.ledger.take c) b.state.currentView := by
      intro hs c _ hc
      rw [happ.view_eq, h.term_eq]
      refine Committed.mono ((hr.later hl).proven hs) ?_
      rw [hledger, htl, take_take]
      exact take_prefix_take_left ((Nat.min_le_left _ _).trans hc)
    obtain ⟨d, s₂, hd', hsteps, hshd, hst, hle⟩ := hd.commitIfPossible
      (fun hc => h.not_candidate (happ.leadership_eq.symm.trans hc))
      (fun hb => h.not_leader (happ.leadership_eq.symm.trans hb)) hcommitted
    have hl₂ := Steps.later hinv₁ hsteps
    -- the signature at the end of the genesis log is committed once it is there
    have hcov : g.log.length ≤ n + 1 → g.log.length ≤ d.state.commitIdx := by
      intro hgen
      refine commitIfPossible_covers hd.tracks ?_ hr.commit_ge ?_ hd'
      · rw [← sigAt_iff_signedAt (g := g)]
        show g.proto.SigAt b.ledger g.log.length
        rw [hledger, Proto.sigAt_take hgen, Proto.sigAt_of_isPrefix (hr.genesis hinv) le_rfl]
        exact ⟨⟨startingViewChange, g.signature⟩, Nat.succ_pos 1, rfl, g.signature_signed⟩
      · rw [hrec.getTermInternal_eq (g := g) hd.tracks.last_eq]
        refine Proto.termAt_le (fun x hx => ?_) _
        have := hinv₁.log_le i x (hd.log_eq ▸ hx)
        rwa [hd.view_eq] at this
    have hone : 1 ≤ n := by
      by_contra hzero
      obtain rfl : n = 0 := by omega
      have hfirst : g.log[0]? = some e := by
        rw [← he]
        exact (Proto.getElem?_of_isPrefix (hr.genesis hinv) (by rw [g.length_log]; omega)).symm
      simp only [Genesis.log, getElem?_cons_zero, Option.some.injEq] at hfirst
      rw [← hfirst] at hsig
      exact absurd (g.create_unsigned.symm.trans hsig) (by decide)
    have hledgerd : d.ledger = (s₂.tl r.term).take (n + 1) := by
      rw [hst.ledger_eq, take_eq_of_isPrefix (hl₂.tl_prefix _) (by rw [htl]; omega), htl]
      exact hledger
    refine ⟨d, s₂, ?_, hsteps.head hstep, hshd, fun hlen' => hcov ?_, fun _ => hcov ?_, ?_, ?_, by omega, hn, hledgerd,
      fun heq => absurd heq (by omega), .inl ?_⟩
    · rw [heq, if_pos ⟨hsig, by omega⟩, hrecord, Outcome.andThen_ok]
      exact hd'
    · rw [hst.ledger_eq] at hlen'
      exact hlen ▸ hlen'
    · rw [g.length_log]
      omega
    · rw [hst.view_eq]
      exact happ.view_eq.trans h.term_eq
    · rcases hst.leadership with hsame | hnone
      · rw [hsame]
        rcases h.role with hrole | hrole
        · exact .inl (happ.leadership_eq.trans hrole)
        · exact .inr (happ.leadership_eq.trans hrole)
      · exact .inr hnone
    · unfold Aft.Recorded
      rw [hst.history_eq, hst.ledger_eq]
      exact hrec

end Ccf
