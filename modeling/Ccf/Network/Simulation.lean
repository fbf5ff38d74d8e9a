import Ccf.Aft.Voting
import Ccf.Network.Protocol

/-! # How the nodes follow the protocol

`Sim s i a` relates the node `a` to the state `s` of the protocol: its log, view and commit index are those of `i`, and
what it believes about its role, its votes and the other nodes is on record. A message is `Justified` by the records,
which are never taken back.

`Sends` is the part of `Sim` that sending needs. It also holds in the middle of operations, when the configurations
are ahead of the log. -/

namespace Ccf

open SignedRaft ViewHistory

variable (g : Genesis) (m : Mode NodeId)

/-! ### Messages -/

/-- A batch of one view from the log of the leader of its term, whose commit index is at least that of the
genesis log. -/
structure GoodBatch (s : Sys NodeId Entry) (src : NodeId) (r : AppendEntries) (data : List Entry) : Prop where
  leader_eq : s.leader r.term = some src
  pos : 0 < r.idx
  prev_le : r.prevIdx ≤ r.idx
  idx_le : r.idx ≤ (s.tl r.term).length
  data_eq : data = ((s.tl r.term).take r.idx).drop r.prevIdx
  prevTerm_eq : r.prevTerm = g.proto.termAt (s.tl r.term) r.prevIdx
  one_view : ∀ j, r.prevIdx < j → j ≤ r.idx → g.proto.termAt (s.tl r.term) j = r.termOfIdx
  termOfIdx_eq : r.termOfIdx = g.proto.termAt (s.tl r.term) r.idx
  commit_ge : g.log.length ≤ r.leaderCommitIdx
  commit_le : r.leaderCommitIdx ≤ (s.tl r.term).length
  proven : m.strict → s.Committed ((s.tl r.term).take r.leaderCommitIdx) r.term
  wf : WellFormed ((s.tl r.term).take r.idx)

/-- What the messages of the protocol say is on record. -/
def Justified (s : Sys NodeId Entry) (src dst : NodeId) : Msg → Prop
  | .appendEntries r data => GoodBatch g m s src r data
  | .appendEntriesResponse r => r.success = true → (⟨src, r.term, r.lastLogIdx⟩ : Ack NodeId) ∈ s.acks
  | .requestVote r .regularVote => ∃ c ∈ s.cands, c.term = r.term ∧ c.node = src ∧
      r.lastCommittableIdx = g.proto.lastSig c.log ∧
      r.termOfLastCommittableIdx = g.proto.termAt c.log (g.proto.lastSig c.log)
  | .requestVoteResponse r .regularVote => r.voteGranted = true →
      s.leader r.term = some dst ∨ ∃ vt ∈ s.votes, vt.term = r.term ∧ vt.voter = src ∧ vt.node = dst
  | _ => True

/-! ### Nodes -/

/-- What a leader relies on when it sends its log. -/
structure Speaks (s : Sys NodeId Entry) (i : NodeId) (a : Aft) : Prop where
  leader_eq : s.leader a.state.currentView = some i
  tl_eq : s.tl a.state.currentView = a.ledger
  last_eq : a.state.lastIdx = a.ledger.length
  recorded : a.Recorded
  commit_ge : g.log.length ≤ a.state.commitIdx
  commit_le : a.state.commitIdx ≤ a.ledger.length
  proven : m.strict → s.Committed (a.ledger.take a.state.commitIdx) a.state.currentView
  active : ¬a.isRetiredCommitted
  wf : WellFormed a.ledger
  acks : ∀ p ∈ a.allOtherNodes, 0 < p.2.matchIdx → (⟨p.1, a.state.currentView, p.2.matchIdx⟩ : Ack NodeId) ∈ s.acks

structure Sends (s : Sys NodeId Entry) (i : NodeId) (a : Aft) : Prop where
  nodeId_eq : a.state.nodeId = i
  self_not_mem : i ∉ Assoc.keys a.allOtherNodes
  batch_pos : 1 ≤ a.entriesBatchSize
  outbox : ∀ p ∈ a.outbox, i ≠ p.1 ∧ Justified g m s i p.1 p.2
  speaks : a.isLeader → Speaks g m s i a

/-- No node other than `dst` was sent more than there is. -/
def SentBut (dst : Option NodeId) (a : Aft) : Prop :=
  ∀ p ∈ a.allOtherNodes, some p.1 ≠ dst → p.2.sentIdx ≤ a.state.lastIdx

structure Tells (s : Sys NodeId Entry) (i : NodeId) (a : Aft) : Prop extends Sends g m s i a where
  sent : a.isLeader → SentBut none a

/-- `q` supports `i` in view `T`. -/
def Backs (s : Sys NodeId Entry) (i : NodeId) (T : ℕ) (q : NodeId) : Prop :=
  q = i ∨ ∃ vt ∈ s.votes, vt.term = T ∧ vt.voter = q ∧ vt.node = i

/-- The candidacy of `a` is on record, and so are the votes it has counted. -/
structure Campaigns (s : Sys NodeId Entry) (i : NodeId) (a : Aft) : Prop where
  record : ⟨a.state.currentView, i, a.ledger, a.state.commitIdx⟩ ∈ s.cands
  not_leader : s.leader a.state.currentView ≠ some i
  counts : ∀ c ∈ a.configurations, Aft.Counted (Backs s i a.state.currentView) c a.votesForMe

/-- The vote of `a` in its view is the one on record. -/
structure Voted (s : Sys NodeId Entry) (i : NodeId) (a : Aft) : Prop where
  vote : ∀ vt ∈ s.votes, vt.voter = i → vt.term = a.state.currentView → a.votedFor = some vt.node
  own : ∀ c ∈ s.cands, c.node = i → c.term = a.state.currentView →
    a.votedFor = some i ∨ ∃ L, s.leader a.state.currentView = some L ∧ L ≠ i

/-- The part of the relation that also holds while a batch is being applied. -/
structure Shadows (s : Sys NodeId Entry) (i : NodeId) (a : Aft) : Prop where
  tells : Tells g m s i a
  view_eq : s.view i = a.state.currentView
  log_eq : s.log i = a.ledger
  commit_eq : s.commit i = a.state.commitIdx
  tracks : Aft.Tracks a
  preVote : a.state.leadershipState = .preVoteCandidate → g.log.length ≤ a.state.commitIdx
  campaigns : a.state.leadershipState = .candidate → Campaigns s i a
  voted : m.unique → Voted s i a

/-- The view history of a node is that of its log, and a node that has the genesis log has committed it. -/
structure Sim (s : Sys NodeId Entry) (i : NodeId) (a : Aft) : Prop extends Shadows g m s i a where
  recorded : a.Recorded
  covered : g.log.length ≤ a.ledger.length → g.log.length ≤ a.state.commitIdx
  ticking : a.ticking = true → g.log.length ≤ a.state.commitIdx

variable {g m} {a : Aft} {i : NodeId}

/-! ### Records are not taken back -/

section

variable {s s' : Sys NodeId Entry} (hl : Later s s') {r : AppendEntries} {src : NodeId}

include hl

theorem GoodBatch.later {data : List Entry} (h : GoodBatch g m s src r data) :
    GoodBatch g m s' src r data := by
  have hp := hl.tl_prefix r.term
  have hle := hp.length_le
  have hterm : ∀ n ≤ r.idx, g.proto.termAt (s'.tl r.term) n = g.proto.termAt (s.tl r.term) n := fun n hn =>
    Proto.termAt_of_isPrefix hp (hn.trans h.idx_le)
  refine ⟨hl.leader_eq _ _ h.leader_eq, h.pos, h.prev_le, h.idx_le.trans hle, ?_, ?_, ?_, ?_, h.commit_ge,
    h.commit_le.trans hle, fun hs => ?_, ?_⟩
  · rw [take_eq_of_isPrefix hp h.idx_le]
    exact h.data_eq
  · rw [hterm _ h.prev_le]
    exact h.prevTerm_eq
  · intro j hj hj'
    rw [hterm j hj']
    exact h.one_view j hj hj'
  · rw [hterm _ le_rfl]
    exact h.termOfIdx_eq
  · rw [take_eq_of_isPrefix hp h.commit_le]
    exact hl.committed (h.proven hs)
  · rw [take_eq_of_isPrefix hp h.idx_le]
    exact h.wf

theorem Justified.later {dst : NodeId} {msg : Msg} (h : Justified g m s src dst msg) :
    Justified g m s' src dst msg := by
  cases msg with
  | appendEntries r data => exact GoodBatch.later hl h
  | appendEntriesResponse r => exact fun hsuccess => hl.acks_sub (h hsuccess)
  | requestVote r electionType =>
    cases electionType with
    | preVote => trivial
    | regularVote =>
      obtain ⟨c, hc, hrest⟩ := h
      exact ⟨c, hl.cands_sub hc, hrest⟩
  | requestVoteResponse r electionType =>
    cases electionType with
    | preVote => trivial
    | regularVote =>
      intro hgranted
      refine (h hgranted).imp (hl.leader_eq _ _) ?_
      rintro ⟨vt, hvt, hrest⟩
      exact ⟨vt, hl.votes_sub hvt, hrest⟩
  | proposeRequestVote r => trivial

theorem Tells.later (h : Tells g m s i a) (htl : a.isLeader → s'.tl a.state.currentView = a.ledger) :
    Tells g m s' i a := by
  refine ⟨⟨h.nodeId_eq, h.self_not_mem, h.batch_pos, fun p hp => ?_, fun hlead => ?_⟩, h.sent⟩
  · obtain ⟨hself, hj⟩ := h.outbox p hp
    exact ⟨hself, hj.later hl⟩
  · have hs := h.speaks hlead
    exact ⟨hl.leader_eq _ _ hs.leader_eq, htl hlead, hs.last_eq, hs.recorded, hs.commit_ge, hs.commit_le,
      fun hm => hl.committed (hs.proven hm), hs.active, hs.wf, fun p hp hpos => hl.acks_sub (hs.acks p hp hpos)⟩

theorem Campaigns.later (h : Campaigns s i a)
    (hleader : s'.leader a.state.currentView = some i → s.leader a.state.currentView = some i) : Campaigns s' i a := by
  refine ⟨hl.cands_sub h.record, mt hleader h.not_leader, fun c hc => (h.counts c hc).mono fun q => Or.imp_right ?_⟩
  rintro ⟨vt, hvt, hrest⟩
  exact ⟨vt, hl.votes_sub hvt, hrest⟩

/-- New records that are not of the node leave the relation alone. -/
theorem Sim.later (h : Sim g m s i a) (hview : s'.view i = s.view i) (hlog : s'.log i = s.log i)
    (hcommit : s'.commit i = s.commit i) (htl : a.isLeader → s'.tl a.state.currentView = a.ledger)
    (hleader : ∀ T, s'.leader T = some i → s.leader T = some i) (hvotes : ∀ vt ∈ s'.votes, vt.voter = i → vt ∈ s.votes)
    (hcands : ∀ c ∈ s'.cands, c.node = i → c ∈ s.cands) : Sim g m s' i a := by
  refine ⟨⟨h.tells.later hl htl, hview.trans h.view_eq, hlog.trans h.log_eq, hcommit.trans h.commit_eq, h.tracks,
    h.preVote, fun hcand => (h.campaigns hcand).later hl (hleader _),
    fun hu => ⟨fun vt hvt hvoter => (h.voted hu).vote vt (hvotes vt hvt hvoter) hvoter, fun c hc hnode hterm => ?_⟩⟩,
    h.recorded, h.covered, h.ticking⟩
  refine ((h.voted hu).own c (hcands c hc hnode) hnode hterm).imp_right ?_
  rintro ⟨L, hL, hLne⟩
  exact ⟨L, hl.leader_eq _ _ hL, hLne⟩

end

/-- What another node does leaves the relation alone. -/
theorem Sim.frame {s s' : Sys NodeId Entry} {j : NodeId} (h : Sim g m s j a) (hinv : Inv g.proto m s')
    (hl : Later s s') (hf : Frame i s s') (hne : j ≠ i) : Sim g m s' j a := by
  refine h.later hl (hf.view_eq j hne) (hf.log_eq j hne) (hf.commit_eq j hne) (fun hlead => ?_)
    (fun T hT => (hf.leader_new T j hT).resolve_right hne)
    (fun vt hvt hvoter => (hf.votes_new vt hvt).resolve_right fun heq => hne (hvoter.symm.trans heq))
    fun c hc hnode => (hf.cands_new c hc).resolve_right fun heq => hne (hnode.symm.trans heq)
  have hleader := hl.leader_eq _ _ (h.tells.speaks hlead).leader_eq
  have hview : s'.view j = a.state.currentView := (hf.view_eq j hne).trans h.view_eq
  rw [← hview] at hleader ⊢
  rw [← hinv.leader_log j hleader, hf.log_eq j hne, h.log_eq]

end Ccf
