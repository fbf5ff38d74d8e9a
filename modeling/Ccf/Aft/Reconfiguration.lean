import Ccf.Aft.CommitTracking

/-! # Configurations and retirement along every run

Every operation of a node is sound as long as the entries it brings keep the log well formed (`Fits`). So along every
run the list of configurations and the retirement state of a node are the functions of its log and commit index that
`LogSpec` defines, and that none of the assertions that guard them fails. -/

namespace Ccf.Aft

open Sound List Assoc

open Tracks (Kept Same)

/-! ### What is not tracked -/

theorem keys_resetLastAckTimeouts (a : Aft) :
    keys a.resetLastAckTimeouts.allOtherNodes = keys a.allOtherNodes := by
  simp [resetLastAckTimeouts, Assoc.keys, Function.comp_def]

theorem keys_announceLeadership (a : Aft) :
    keys a.announceLeadership.allOtherNodes = keys a.allOtherNodes := by
  unfold announceLeadership
  rw [keys_foldl fun b (n : NodeId × NodeState) => keys_sendAppendEntries b n.1 _]
  simp [Assoc.keys, resetNodeIndices, Function.comp_def]

section
variable {a : Aft} (h : Tracks a) {e : AftError} {c : ℕ}
include h

variable {b : Aft}

theorem Tracks.of_talks (ht : Talks a b)
    (hkeys : keys b.allOtherNodes = keys a.allOtherNodes) : Tracks b := by
  refine h.of_same ⟨Kept.of_talks ht, by rw [ht.state_eq], hkeys⟩ ?_
  unfold Idle isRetiredCommitted
  rw [ht.state_eq]
  exact h.idle

theorem Tracks.of_send (dst : NodeId) (m : Msg) : Tracks (a.send dst m) :=
  h.of_talks (talks_send a dst m) rfl

theorem Tracks.setNode (n : NodeId) (f : NodeState → NodeState) : Tracks (a.setNode n f) :=
  h.of_same ⟨⟨rfl, rfl, rfl, rfl, rfl, rfl⟩, rfl, keys_modify _ _ _⟩ h.idle

theorem Tracks.becomeFollower (draw : ℕ) : Tracks (a.becomeFollower draw) :=
  h.of_same ⟨⟨rfl, rfl, rfl, rfl, rfl, rfl⟩, rfl, keys_resetLastAckTimeouts a⟩ fun _ => .inr rfl

theorem Tracks.becomeAwareOfNewTerm (draw term : ℕ) : Tracks (a.becomeAwareOfNewTerm draw term) :=
  h.of_same ⟨⟨rfl, rfl, rfl, rfl, rfl, rfl⟩, rfl, keys_resetLastAckTimeouts a⟩ fun _ => .inr rfl

/-! ### Commit -/

theorem sound_commit (hc : c ∈ a.state.committableIndices) : Sound (a.commit c) := by
  obtain ⟨b, hb, ht, _⟩ := commit_spec h hc
  rw [hb]
  exact ok ht

theorem sound_commitIfPossible (idx : ℕ) : Sound (a.commitIfPossible idx) := by
  unfold commitIfPossible
  split_ifs
  · split
    · exact ok h
    · rename_i c hc
      exact sound_commit h (findHighestPossibleCommittableIndex_eq_some hc).1
  · exact ok h

omit h

theorem matchIndices_isSome {nodes : List NodeId}
    (h : ∀ n ∈ nodes, n ≠ a.state.nodeId → n ∈ keys a.allOtherNodes) : ∃ m, a.matchIndices nodes = some m := by
  induction nodes with
  | nil => exact ⟨[], rfl⟩
  | cons n rest ih =>
    obtain ⟨m, hm⟩ := ih fun n' hn' => h n' (mem_cons_of_mem _ hn')
    unfold matchIndices
    split_ifs with hself
    · exact ⟨_, by rw [hm]; rfl⟩
    · obtain ⟨ns, hns⟩ := Option.isSome_iff_exists.1
        (lookup_isSome_iff.2 (h n mem_cons_self hself))
      exact ⟨_, by rw [hns, hm]⟩

theorem watermark_error {c : Configuration}
    (hc : ∀ n ∈ c.nodes, n ≠ a.state.nodeId → n ∈ keys a.allOtherNodes) (h : a.watermark c = .error e) :
    e = .emptyConfiguration := by
  obtain ⟨m, hm⟩ := matchIndices_isSome hc
  unfold watermark at h
  rw [hm] at h
  dsimp only at h
  split at h
  · cases h
    rfl
  · cases h

theorem newAgreementIndex_error {confs : List Configuration} {acc : Option ℕ}
    (h : a.newAgreementIndex confs acc = .error e) : ∃ c ∈ confs, a.watermark c = .error e := by
  induction confs generalizing acc with
  | nil => cases h
  | cons c rest ih =>
    unfold newAgreementIndex at h
    split at h
    · rename_i e' hmark
      cases h
      exact ⟨c, mem_cons_self, hmark⟩
    · split at h <;>
      · obtain ⟨d, hd, hmark⟩ := ih h
        exact ⟨d, mem_cons_of_mem _ hd, hmark⟩

include h

theorem sound_updateCommit : Sound a.updateCommit := by
  unfold updateCommit
  split_ifs
  · split
    · rename_i e he
      obtain ⟨c, hc, hmark⟩ := newAgreementIndex_error he
      exact raised h (by rw [watermark_error (h.knows.known c hc) hmark]; rfl)
    · exact ok h
    · split_ifs
      · exact raised h rfl
      · split
        · exact ok h
        · rename_i c hc
          split_ifs
          · exact sound_commit h (findHighestPossibleCommittableIndex_eq_some hc).1
          · exact ok h
  · exact raised h rfl

/-! ### Elections -/

theorem Tracks.lastCommittableIndex_le : a.lastCommittableIndex ≤ a.state.lastIdx := by
  unfold lastCommittableIndex
  rw [h.last_eq]
  cases hlast : a.state.committableIndices.getLast? with
  | none => exact h.commit_le
  | some c => exact SignedAt.le_length (h.signedAt (mem_of_getLast? hlast))

variable {k : ℕ}

theorem rollback_isRetiredCommitted (hret : (a.rollback k).isRetiredCommitted) : a.isRetiredCommitted := by
  rcases lt_or_ge k a.state.commitIdx with hlt | hge
  · unfold rollback at hret
    rw [if_pos hlt] at hret
    exact hret
  · rw [rollback_eq h hge] at hret
    have hsame := cut_retiredCommitted (R := a.state.retirement) hret.2
    exact ⟨(congrArg Retirement.membershipState hsame).symm.trans hret.1,
      (congrArg Retirement.retirementPhase hsame).symm.trans hret.2⟩

theorem Tracks.discardUncommittable : Tracks a.discardUncommittable := by
  unfold Aft.discardUncommittable
  split_ifs
  · exact rollback_tracks h h.lastCommittableIndex_le
  · exact h

theorem discardUncommittable_isRetiredCommitted
    (hret : a.discardUncommittable.isRetiredCommitted) : a.isRetiredCommitted := by
  unfold Aft.discardUncommittable at hret
  split_ifs at hret
  · exact rollback_isRetiredCommitted h hret
  · exact hret

theorem Tracks.takeLeadership (hret : ¬a.isRetiredCommitted) : Tracks a.takeLeadership :=
  h.of_same ⟨⟨rfl, rfl, rfl, rfl, rfl, rfl⟩, rfl, keys_resetLastAckTimeouts a⟩ fun hr => absurd hr hret

theorem sound_becomeLeader : Sound a.becomeLeader := by
  unfold becomeLeader
  split_ifs with hret
  · exact ok h
  have hlead := h.discardUncommittable.takeLeadership fun hr => hret (discardUncommittable_isRetiredCommitted h hr)
  unfold startLeadership
  refine andThen ?_ fun b _ hb => ok (hb.of_talks (talks_announceLeadership b) (keys_announceLeadership b))
  split_ifs
  · exact sound_updateCommit hlead
  · exact ok hlead

theorem Tracks.recordVote (source : NodeId) : Tracks (a.recordVote source) :=
  { h with knows := { h.knows with } }

theorem sound_sendRequestVotes (electionType : ElectionType) : Sound (a.sendRequestVotes electionType) := by
  unfold sendRequestVotes
  split_ifs
  · exact raised h rfl
  · refine ok (h.of_talks (Talks.foldl (fun b (n : NodeId) => talks_send b n _) _ _) ?_)
    exact keys_foldl (f := fun b (n : NodeId) => b.send n _) (fun b n => rfl) _ _

end

/-- A vote may make a pre-vote candidate a candidate, which is then not retired. -/
theorem sound_addVoteForMeWith {f : Aft → Result} {a : Aft} (hf : ∀ b, Tracks b → ¬b.isRetiredCommitted → Sound (f b))
    (h : Tracks a) (source : NodeId) : Sound (addVoteForMeWith f a source) := by
  unfold addVoteForMeWith
  have hb := h.recordVote source
  dsimp only
  split_ifs
  · exact ok h
  · split
    · rename_i hlead
      refine hf _ hb fun hret => ?_
      rcases hb.idle hret with hnone | hfollower
      · rw [hlead] at hnone
        cases hnone
      · rw [hlead] at hfollower
        cases hfollower
    · exact sound_becomeLeader hb
    · exact raised hb rfl
    · exact raised hb rfl
    · exact raised hb rfl
  · exact ok hb

section
variable {a : Aft} (h : Tracks a)
include h

theorem sound_becomeCandidate (hret : ¬a.isRetiredCommitted) (draw : ℕ) : Sound (becomeCandidate draw a) := by
  unfold becomeCandidate
  split_ifs
  · exact ok h
  have hstart : Tracks (a.startCandidacy draw) :=
    h.of_same ⟨⟨rfl, rfl, rfl, rfl, rfl, rfl⟩, rfl, keys_resetLastAckTimeouts a⟩ fun hr => absurd hr hret
  exact andThen (sound_addVoteForMeWith (fun b hb _ => ok hb) hstart _)
    fun b _ hb => sound_sendRequestVotes hb _

theorem sound_addVoteForMe (draw : ℕ) (source : NodeId) : Sound (a.addVoteForMe draw source) :=
  sound_addVoteForMeWith (fun _ hb hret => sound_becomeCandidate hb hret draw) h source

theorem sound_becomePreVoteCandidate (hret : ¬a.isRetiredCommitted) (draw : ℕ) :
    Sound (becomePreVoteCandidate draw a) := by
  unfold becomePreVoteCandidate
  split_ifs
  · exact ok h
  have hstart : Tracks (a.startPreVote draw) :=
    { h with knows := { h.knows with }, idle := fun hr => absurd hr hret }
  exact andThen (sound_addVoteForMe hstart draw _) fun b _ hb => sound_sendRequestVotes hb _

theorem tracks_recvRequestVoteUnsafe (draw : ℕ) (source : NodeId) (r : RequestVote)
    (electionType : ElectionType) : Tracks (a.recvRequestVoteUnsafe draw source r electionType) := by
  have hanswer : ∀ b : Aft, Tracks b → Tracks (b.answerRequestVote draw source r electionType) := by
    intro b hb
    unfold answerRequestVote
    split_ifs
    · have hvote : Tracks (b.voteFor draw source) :=
        { hb with knows := { hb.knows with } }
      exact hvote.of_send _ _
    · exact hb.of_send _ _
    · exact hb.of_send _ _
  unfold recvRequestVoteUnsafe
  split_ifs
  · exact h.of_send _ _
  · exact hanswer _ (h.becomeAwareOfNewTerm draw r.term)
  · exact hanswer a h

theorem sound_recvRequestVoteResponse (draw : ℕ) (source : NodeId) (r : RequestVoteResponse)
    (electionType : ElectionType) : Sound (a.recvRequestVoteResponse draw source r electionType) := by
  unfold recvRequestVoteResponse
  split_ifs
  · exact ok h
  · exact ok (h.becomeAwareOfNewTerm draw r.term)
  · exact ok h
  · exact ok h
  · exact ok h
  · exact ok h
  · exact ok h
  · exact sound_addVoteForMe h draw source

/-! ### Replication on the leader -/

theorem Tracks.updateViewHistory (idx view : ℕ) : Sound (a.updateViewHistory idx view) := by
  unfold Aft.updateViewHistory
  split
  · exact raised h rfl
  · exact ok { h with knows := { h.knows with } }

end

theorem Tracks.sendAppendEntriesToAll {a : Aft} (h : Tracks a) (hs : Same a b) (hidle : Idle b) :
    Tracks b.sendAppendEntriesToAll :=
  (h.of_same hs hidle).of_talks (talks_sendAppendEntriesToAll b) (keys_sendAppendEntriesToAll b)

theorem tracks_flushIfFull {a : Aft} (h : Tracks a) : Tracks a.flushIfFull := by
  unfold flushIfFull
  split_ifs
  · exact h.sendAppendEntriesToAll ⟨⟨rfl, rfl, rfl, rfl, rfl, rfl⟩, rfl, rfl⟩ h.idle
  · exact h

/-- The entries of a batch as the leader puts them into its ledger. -/
def newEntries (view : ℕ) (entries : List (ℕ × Tx)) : List Entry := entries.map fun e => ⟨view, e.2⟩

section
variable {a : Aft} {entries : List (ℕ × Tx)} (h : Tracks a)
  (hwf : WellFormed (a.ledger ++ newEntries a.state.currentView entries))
include h hwf

theorem sound_replicateLoop : Sound (a.replicateLoop entries).1 := by
  induction entries generalizing a with
  | nil => exact ok h
  | cons entry rest ih =>
    obtain ⟨index, t⟩ := entry
    unfold replicateLoop
    by_cases hindex : index = a.state.lastIdx + 1
    · have hcons : a.ledger ++ newEntries a.state.currentView ((index, t) :: rest) =
          (a.ledger ++ [⟨a.state.currentView, t⟩]) ++ newEntries a.state.currentView rest := by
        simp [newEntries]
      rw [hcons] at hwf
      have hwf' := hwf.of_isPrefix (prefix_append _ _)
      obtain ⟨b, -, hb, happ, -⟩ := replicateEntry_appended h hwf'
      have hupdate := (happ.tracks h hwf').updateViewHistory index b.state.currentView
      have hsame := quiet_updateViewHistory b index b.state.currentView
      rw [← hindex] at hb
      rw [if_neg (not_not.2 hindex), hb, Outcome.andThen_ok]
      cases hc : b.updateViewHistory index b.state.currentView with
      | ok c =>
        rw [hc] at hupdate hsame
        rw [Outcome.state_ok] at hsame
        have hflush := quiet_flushIfFull c
        refine ih (tracks_flushIfFull hupdate.tracks) ?_
        rw [hflush.ledger_eq, hflush.view_eq, hsame.ledger_eq, hsame.view_eq, happ.ledger_eq, happ.view_eq]
        exact hwf
      | raised e c =>
        rw [hc] at hupdate
        exact hupdate
    · rw [if_pos hindex]
      exact ok h

theorem sound_replicate (term : ℕ) : Sound (a.replicate entries term).1 := by
  have hback : Tracks (a.rollback a.state.lastIdx) := rollback_tracks h le_rfl
  have hbatch : Sound (a.replicateBatch entries).1 := by
    have hloop := sound_replicateLoop h hwf
    unfold replicateBatch
    split
    · rename_i b hb
      rw [hb] at hloop
      split_ifs
      · exact sound_updateCommit hloop.tracks
      · exact hloop
    · exact hloop
  unfold replicate
  split_ifs
  · exact ok h
  · exact ok hback
  · exact hbatch
  · exact ok hback

end

/-! ### Replication on followers -/

theorem sound_recordSignatureView {a : Aft} (h : Tracks a) (r : AppendEntries) (view : ℕ) :
    Sound (a.recordSignatureView r view) := by
  unfold recordSignatureView
  split_ifs
  · exact h.updateViewHistory _ _
  · exact h.updateViewHistory _ _

theorem sound_recordBatchView {a : Aft} (h : Tracks a) (r : AppendEntries) : Sound (a.recordBatchView r) := by
  unfold recordBatchView
  split_ifs
  · exact h.updateViewHistory _ _
  · exact h.updateViewHistory _ _
  · exact ok h

theorem sound_executeEntry {a : Aft} {e : Entry} (h : Tracks a) (hwf : WellFormed (a.ledger ++ [e]))
    (r : AppendEntries) :
    Sound (a.executeEntry r (a.state.lastIdx + 1) e) ∧
      (a.executeEntry r (a.state.lastIdx + 1) e).state.ledger = a.ledger ++ [e] := by
  obtain ⟨b, -, happ, -, -, -, hb⟩ := executeEntry_appended h hwf r
  have htracks := happ.tracks h hwf
  have hview := quiet_recordSignatureView b r e.view
  rw [hb]
  split_ifs
  · refine ⟨andThen (sound_recordSignatureView htracks r e.view)
      fun c _ hc => sound_commitIfPossible hc _, ?_⟩
    rw [← happ.ledger_eq]
    cases hc : b.recordSignatureView r e.view with
    | ok c =>
      rw [hc] at hview
      exact (commitIfPossible_log c _).2.trans hview.ledger_eq
    | raised err c =>
      rw [hc] at hview
      exact hview.ledger_eq
  · exact ⟨ok htracks, happ.ledger_eq⟩

variable {r : AppendEntries}

theorem sound_executeAppendEntriesSync {faults : ℕ → Fault} {source : NodeId}
    {entries : List Entry} {a : Aft} (h : Tracks a) (hwf : WellFormed (a.ledger ++ entries)) :
    Sound (executeAppendEntriesSync faults source r (entries.zipIdx (a.state.lastIdx + 1)) a) := by
  induction entries generalizing a with
  | nil =>
    refine andThen (sound_commitIfPossible h _) fun b _ hb => ?_
    exact andThen (sound_recordBatchView hb r) fun c _ hc => ok (hc.of_send _ _)
  | cons e rest ih =>
    rw [zipIdx_cons, executeAppendEntriesSync]
    rw [append_cons] at hwf
    split
    · have hsame : { a with ledger := a.ledger.take (a.state.lastIdx + 1 - 1) } = a := by
        rw [Nat.add_sub_cancel, take_of_length_le h.last_eq.ge]
      rw [hsame]
      exact ok (h.of_send _ _)
    · obtain ⟨hsound, hledger⟩ := sound_executeEntry h (hwf.of_isPrefix (prefix_append _ _)) r
      refine andThen hsound fun b hb htracks => ?_
      rw [hb, Outcome.state_ok] at hledger
      have hlast : b.state.lastIdx = a.state.lastIdx + 1 := by
        rw [htracks.last_eq, hledger, h.last_eq, length_append, length_singleton]
      rw [← hlast]
      exact ih htracks (by rw [hledger]; exact hwf)

/-- The entries of a batch continue the log: `k` being the last index up to which the node already has the
batch, the log up to `k` followed by the rest of the batch is well formed. -/
def BatchFits (a : Aft) (r : AppendEntries) (data : List Entry) : Prop :=
  ∀ k, r.prevIdx ≤ k → k ≤ a.state.lastIdx →
    (∀ j, r.prevIdx < j → j ≤ k → a.state.viewHistory.viewAt j = r.termOfIdx) →
    (k = a.state.lastIdx ∨ r.idx ≤ k ∨ a.state.viewHistory.viewAt (k + 1) ≠ r.termOfIdx) →
    WellFormed (a.ledger.take k ++ (data.drop (k - r.prevIdx)).take (r.idx - k))

theorem tracks_scanBase {a : Aft} {t idx : ℕ} (h : Tracks a) (hbase : ScanBase a t idx k b) : Tracks b := by
  cases hbase with
  | keep => exact h
  | cut hlast =>
    have hcut := rollback_tracks h hlast.le
    exact { hcut with knows := { hcut.knows with } }

section
variable {a : Aft} (h : Tracks a) {data : List Entry}
include h

theorem sound_processEntries (hfits : BatchFits a r data) (faults : ℕ → Fault) (source : NodeId) :
    Sound (a.processEntries faults source r data) := by
  unfold processEntries
  split_ifs with hcommit hlast
  · exact ok h
  · exact ok h
  · rw [Nat.not_lt] at hcommit hlast
    have hscan := @scanned faults source r.termOfIdx r.idx a r.prevIdx hcommit hlast data
    generalize scanEntries faults source r.termOfIdx (r.idx - r.prevIdx) (r.prevIdx + 1) data [] a = s at hscan
    cases hscan with
    | short => exact raised h rfl
    | ignored => exact ok h
    | unreadable _ _ _ _ hbase => exact ok ((tracks_scanBase h hbase).of_send _ _)
    | @collected k b hprev hk _ hskip hbase hlen =>
      have hb := tracks_scanBase h hbase
      cases hbase with
      | keep hkeep =>
        rcases hkeep with rfl | hidx
        · have hwf := hfits _ hprev le_rfl hskip (.inl rfl)
          rw [take_of_length_le h.last_eq.ge] at hwf
          exact sound_executeAppendEntriesSync h hwf
        · -- nothing is left to apply
          have hnil : (data.drop (k - r.prevIdx)).take (r.idx - k) = [] := by
            rw [Nat.sub_eq_zero_of_le hidx, take_zero]
          rw [hnil]
          have hwf : WellFormed (a.ledger ++ []) := by simpa using h.wf
          exact sound_executeAppendEntriesSync h hwf
      | cut hlast' hidx hview hnew =>
        have hwf := hfits k hprev hk hskip (.inr (.inr hview))
        have hlast := cutAt_lastIdx (hcommit.trans hprev)
        have hledger : (a.cutAt k).ledger = a.ledger.take k := by
          unfold cutAt
          rw [rollback_eq h (hcommit.trans hprev)]
        rw [← hledger] at hwf
        have hexec := @sound_executeAppendEntriesSync r faults source _ _ hb hwf
        rw [hlast] at hexec
        exact hexec

theorem sound_recvAppendEntries (hfits : BatchFits a r data) (draw : ℕ) (faults : ℕ → Fault) (source : NodeId) :
    Sound (a.recvAppendEntries draw faults source r data) := by
  have hcheck : ∀ b : Aft, Tracks b → BatchFits b r data → Sound (b.checkAppendEntries draw faults source r data) := by
    intro b hb hfits
    unfold checkAppendEntries
    split_ifs
    · exact ok (hb.of_send _ _)
    · exact ok (hb.of_send _ _)
    · have haccept : Tracks { b.restartElectionTimeout draw with leaderId := some source } :=
        { hb with knows := { hb.knows with } }
      exact sound_processEntries haccept hfits faults source
  unfold recvAppendEntries
  split_ifs
  · exact ok (h.of_send _ _)
  · exact hcheck _ (h.becomeAwareOfNewTerm draw r.term) hfits
  · exact hcheck a h hfits

theorem sound_recvAppendEntriesResponse (draw : ℕ) (source : NodeId)
    (r : AppendEntriesResponse) : Sound (a.recvAppendEntriesResponse draw source r) := by
  unfold recvAppendEntriesResponse
  split
  · exact ok h
  · split_ifs
    · have hack := h.setNode source fun n => { n with lastAckTimeout := 0 }
      unfold processResponse
      split_ifs
      · exact ok (hack.becomeAwareOfNewTerm draw r.term)
      · exact ok hack
      · exact ok hack
      · exact ok (hack.setNode source _)
      · exact sound_updateCommit (hack.setNode source _)
    · exact ok h

/-! ### Every operation -/

theorem tracks_periodicSend : Tracks a.periodicSend := by
  unfold periodicSend
  split_ifs
  · exact h.sendAppendEntriesToAll ⟨⟨rfl, rfl, rfl, rfl, rfl, rfl⟩, rfl, rfl⟩ h.idle
  · exact h

theorem sound_tick (draw elapsed : ℕ) : Sound (a.tick draw elapsed) := by
  have hwait : Tracks (a.periodicSend.waitForAcks elapsed) := by
    have hsend := tracks_periodicSend h
    exact hsend.of_same ⟨⟨rfl, rfl, rfl, rfl, rfl, rfl⟩, rfl, by simp [waitForAcks, Assoc.keys, Function.comp_def]⟩
      hsend.idle
  unfold tick
  split_ifs with _ hcand
  · unfold checkQuorum
    split_ifs
    · exact ok hwait
    · exact ok (hwait.becomeFollower draw)
  · exact sound_becomePreVoteCandidate h hcand.1 draw
  · exact sound_becomeCandidate h hcand.1 draw
  · exact ok h

theorem sound_periodic (draw elapsed : ℕ) : Sound (a.periodic draw elapsed) := by
  refine sound_tick ?_ draw elapsed
  exact { h with knows := { h.knows with } }

end

/-- The entries an operation brings keep the log well formed, and a rollback is to an index of the log. -/
def Fits (a : Aft) : Op → Prop
  | .replicate entries _ => WellFormed (a.ledger ++ newEntries a.state.currentView entries)
  | .recvMessage _ _ _ (.appendEntries r data) => BatchFits a r data
  | .rollback idx => idx ≤ a.state.lastIdx
  | _ => True

theorem sound_perform {a : Aft} (h : Tracks a) {op : Op} (hfits : a.Fits op) : Sound (a.perform op) := by
  cases op with
  | replicate entries term => exact sound_replicate h hfits term
  | recvMessage draw faults source m =>
    cases m with
    | appendEntries r data => exact sound_recvAppendEntries h hfits draw faults source
    | appendEntriesResponse r => exact sound_recvAppendEntriesResponse h draw source r
    | requestVote r electionType => exact ok (tracks_recvRequestVoteUnsafe h draw source r electionType)
    | requestVoteResponse r electionType => exact sound_recvRequestVoteResponse h draw source r electionType
    | proposeRequestVote r =>
      show Sound (a.recvProposeRequestVote draw r)
      unfold recvProposeRequestVote
      split_ifs with hprop
      · exact sound_becomeCandidate h hprop.1 draw
      · exact ok h
  | periodic draw elapsed => exact sound_periodic h draw elapsed
  | nominateSuccessor =>
    show Sound (.ok a.nominateSuccessor)
    unfold nominateSuccessor
    split_ifs
    · exact ok (h.of_talks (talks_sendProposeRequestVote a) (keys_sendProposeRequestVote a))
    · exact ok h
  | rollback idx => exact ok (rollback_tracks h hfits)
  | forceBecomePrimary =>
    show Sound a.forceBecomePrimary
    unfold forceBecomePrimary
    split_ifs
    · exact raised h rfl
    · exact sound_becomeLeader { h with knows := { h.knows with } }

theorem wellFormed_nil : WellFormed [] where
  final n i j k _ _ hin _ := by simp at hin
  signed q e n he _ := by
    have := entryAt_eq_some he
    simp at this
    omega
  once q q' e e' n he _ _ _ := by
    have := entryAt_eq_some he
    simp at this
    omega

theorem tracks_init (nodeId : NodeId) (preVoteEnabled : Bool) (requestTimeout electionTimeout : ℕ) :
    Tracks (init nodeId preVoteEnabled requestTimeout electionTimeout) where
  wf := wellFormed_nil
  last_eq := rfl
  commit_signed := .inl rfl
  committable_eq := rfl
  configurations_eq := rfl
  knows := ⟨by simp [init], by simp [init]⟩
  retirement_eq := rfl
  idle _ := .inl rfl

theorem tracks_run {nodeId : NodeId} {preVoteEnabled : Bool} {requestTimeout electionTimeout : ℕ} {ops : List Op}
    (hfits : Runs.Along step Fits (init nodeId preVoteEnabled requestTimeout electionTimeout) ops) :
    Tracks (Runs.exec step (init nodeId preVoteEnabled requestTimeout electionTimeout) ops) :=
  Runs.exec_induction (P := Fits) (I := Tracks) (fun _ _ h hop => (sound_perform h hop).tracks)
    (tracks_init nodeId preVoteEnabled requestTimeout electionTimeout) hfits

/-! ### A run in which a leader retires -/

/-- A transaction that writes one row of the nodes table. -/
def nodeTx (n : NodeId) (status : NodeStatus) (retiredCommitted : Bool) : Tx where
  size := 100
  committable := false
  nodes := [(n, some ⟨status, retiredCommitted⟩)]
  payload := 0
  nodup := nodup_singleton _

def signatureTx : Tx := { size := 100, committable := true, nodes := [], payload := 0 }

def ackFrom (n : NodeId) (term idx : ℕ) : Op :=
  .recvMessage 0 (fun _ => .none) n (.appendEntriesResponse { term := term, lastLogIdx := idx, success := true })

/-- Node 0 starts a service, adds node 1, removes itself, and is marked as retired-committed. -/
def retiringRun : List Op :=
  [.forceBecomePrimary,
    .replicate [(1, nodeTx 0 .trusted false), (2, signatureTx)] 2,
    .replicate [(3, nodeTx 1 .trusted false), (4, signatureTx)] 2, ackFrom 1 2 4,
    .replicate [(5, nodeTx 0 .retired false), (6, signatureTx)] 2, ackFrom 1 2 6,
    .replicate [(7, nodeTx 0 .retired true), (8, signatureTx)] 2, ackFrom 1 2 8]

theorem retiringRun_fits : Runs.Along step Fits (init 0 false 10 100) retiringRun := by
  refine ⟨trivial, ?_, ?_, trivial, ?_, trivial, ?_, trivial, trivial⟩ <;>
    show WellFormed (_ ++ newEntries _ _) <;> decide +kernel

/-- **Configuration tracking.**  Along every run that keeps the log well formed the configurations are the
reconfiguration entries of the log from the last one at or below the commit index on, in order, and all of their nodes
are known. -/
theorem configurations_along_run (nodeId : NodeId) (preVoteEnabled : Bool) (requestTimeout electionTimeout : ℕ)
    (ops : List Op) (hfits : Runs.Along step Fits (init nodeId preVoteEnabled requestTimeout electionTimeout) ops) :
    let a := Runs.exec step (init nodeId preVoteEnabled requestTimeout electionTimeout) ops
    a.configurations.Pairwise (·.idx < ·.idx) ∧
      a.configurations = activeConfigurations a.state.commitIdx (configurationsOf a.ledger) ∧
      (∀ c ∈ a.configurations.tail, a.state.commitIdx < c.idx) ∧
      (∀ c ∈ a.configurations, ∀ n ∈ c.nodes, n ≠ a.state.nodeId → n ∈ keys a.allOtherNodes) ∧
      a.updateCommit.error? ≠ some .unknownNode ∧
      ∀ op, a.Fits op → (a.perform op).error? ≠ some .unknownNode := by
  intro a
  have h : Tracks a := tracks_run hfits
  have hsorted := configurationsOf_sorted a.ledger
  have hactive : a.configurations = activeConfigurations a.state.commitIdx (configurationsOf a.ledger) :=
    h.configurations_eq.trans (popConfigurations_eq_active hsorted)
  refine ⟨?_, hactive, ?_, h.knows.known, ?_, ?_⟩
  · rw [h.configurations_eq]
    exact hsorted.sublist (popConfigurations_suffix _ _).sublist
  · rw [h.configurations_eq]
    exact lt_of_mem_tail_pop hsorted
  · intro he
    have := (sound_updateCommit h).no_failure _ he
    cases this
  · intro op hop he
    have := (sound_perform h hop).no_failure _ he
    cases this

theorem configurations_along_retiringRun :
    let a := Runs.exec step (init 0 false 10 100) retiringRun
    a.configurations = [⟨5, [1]⟩] ∧
      a.configurations = activeConfigurations a.state.commitIdx (configurationsOf a.ledger) :=
  ⟨by decide +kernel, (configurations_along_run 0 false 10 100 retiringRun retiringRun_fits).2.1⟩

/-- The row of node 0 is written twice once its removal has been committed, and node 2 is added. -/
def twiceRun : List Op := retiringRun.take 6 ++
  [.replicate [(7, nodeTx 0 .retired true), (8, nodeTx 0 .retired true), (9, nodeTx 2 .trusted false),
    (10, signatureTx)] 2, ackFrom 1 2 10, ackFrom 2 2 10]

/-- The second mark fails an assertion inside of the commit, and a configuration that has been replaced stays. -/
theorem not_configurations_along_twiceRun :
    let a := Runs.exec step (init 0 false 10 100) twiceRun
    (Runs.exec step (init 0 false 10 100) (twiceRun.take 6)).state.commitIdx = 6 ∧
      (∀ q ≤ a.ledger.length, ∀ n ∈ marks a.ledger q, RemovalSigned a.ledger n q) ∧
      a.configurations ≠ activeConfigurations a.state.commitIdx (configurationsOf a.ledger) := by
  decide +kernel

/-- **Retirement.**  Along every run that keeps the log well formed the membership state and the retirement phase of a
node are what its log and commit index say, and no assertion of `become_retired` fails. -/
theorem retirement_along_run (nodeId : NodeId) (preVoteEnabled : Bool) (requestTimeout electionTimeout : ℕ)
    (ops : List Op) (hfits : Runs.Along step Fits (init nodeId preVoteEnabled requestTimeout electionTimeout) ops) :
    let a := Runs.exec step (init nodeId preVoteEnabled requestTimeout electionTimeout) ops
    RetirementSpec a.ledger a.state.commitIdx a.state.nodeId a.state.retirement ∧
      (a.isRetiredCommitted → a.state.leadershipState ≠ .leader ∧ a.state.leadershipState ≠ .candidate ∧
        a.state.leadershipState ≠ .preVoteCandidate) ∧
      ∀ op, a.Fits op → ∀ e, (a.perform op).error? = some e →
        e ≠ .retirementIdxAlreadySet ∧ e ≠ .retirementIdxMissing ∧ e ≠ .indexBelowRetirementIdx ∧ e ≠ .notRetired := by
  intro a
  have h : Tracks a := tracks_run hfits
  refine ⟨?_, ?_, ?_⟩
  · rw [h.retirement_eq]
    exact h.wf.retirementSpec _ _
  · intro hret
    rcases h.idle hret with hlead | hlead <;> rw [hlead] <;> decide
  · intro op hop e he
    have hfine := (sound_perform h hop).no_failure e he
    refine ⟨?_, ?_, ?_, ?_⟩ <;> rintro rfl <;> cases hfine

theorem retirement_along_retiringRun :
    let a := Runs.exec step (init 0 false 10 100) retiringRun
    a.isRetiredCommitted ∧ a.state.leadershipState ≠ .leader ∧ RemovedAt a.ledger 0 5 := by
  intro a
  obtain ⟨hspec, hlead, _⟩ := retirement_along_run 0 false 10 100 retiringRun retiringRun_fits
  have hret : a.isRetiredCommitted := by decide +kernel
  exact ⟨hret, (hlead hret).1, (hspec.retirementIdx_eq 5).1 (by decide +kernel)⟩

/-- Node 0 is removed and added again. -/
def rejoinRun : List Op := retiringRun.take 6 ++ [.replicate [(7, nodeTx 0 .trusted false), (8, signatureTx)] 2]

/-- A second removal fails an assertion of `become_retired`. -/
theorem not_retirement_along_rejoinRun :
    ((Runs.exec step (init 0 false 10 100) rejoinRun).perform (.replicate [(9, nodeTx 0 .retired false)] 2)).error? =
      some .retirementIdxAlreadySet := by
  decide +kernel

end Ccf.Aft
