import Ccf.Aft.Ranges
import Ccf.Network.Simulation

/-! # What a leader sends

Every batch a leader cuts from its log is good, so sending keeps `Sends`; and no node is ever taken to
have been sent more than the log of the leader. -/

namespace Ccf

open List SignedRaft ViewHistory

variable {g : Genesis} {m : Mode NodeId} {s : Sys NodeId Entry} {i : NodeId} {a : Aft} {n : ℕ}

theorem Genesis.length_log (g : Genesis) : g.log.length = 2 := rfl

/-- The entries of coherent logs are of leaders. -/
theorem first_le_termAt (hinv : LogInv g.proto s) {log : List Entry} (hlog : g.proto.Coherent s.tl log)
    (hpos : 0 < n) (hn : n ≤ log.length) : startingViewChange ≤ g.proto.termAt log n := by
  have hp := hlog n hpos hn
  have hne : s.leader (g.proto.termAt log n) ≠ none := by
    intro hnone
    rw [hinv.tl_none _ hnone, prefix_nil, take_eq_nil_iff] at hp
    rcases hp with rfl | rfl
    · omega
    · simp at hn
      omega
  obtain ⟨L, hL⟩ := Option.ne_none_iff_exists'.1 hne
  exact hinv.first_le _ _ hL

/-! ### One batch -/

theorem Speaks.logRecorded (h : Speaks g m s i a) (hinv : LogInv g.proto s) : a.LogRecorded := by
  refine ⟨h.last_eq, h.recorded, fun e he => ?_⟩
  obtain ⟨n, hn, rfl⟩ := getElem_of_mem he
  have hle := first_le_termAt hinv (h.tl_eq ▸ hinv.tl_coherent _) n.succ_pos hn
  rw [termAt_eq_viewOf, viewOf_succ, getD_eq_getElem _ _ (by rwa [length_map]), getElem_map] at hle
  exact Nat.lt_of_lt_of_le (by decide) hle

section
variable (h : Speaks g m s i a) (hinv : LogInv g.proto s) (hbatch : 1 ≤ a.entriesBatchSize) {start : ℕ}
  (hpos : 1 ≤ start) (hstart : start ≤ a.state.lastIdx + 1)
include h hinv hbatch hpos hstart

theorem Speaks.calculateEndIndex :
    start ≤ a.calculateEndIndex start + 1 ∧ a.calculateEndIndex start ≤ a.state.lastIdx ∧
      0 < a.calculateEndIndex start ∧ ∀ j, start ≤ j → j ≤ a.calculateEndIndex start →
        a.state.viewHistory.viewAt j = a.state.viewHistory.viewAt (a.calculateEndIndex start) := by
  obtain ⟨hfrom, hto, hnext, -, hone⟩ := Aft.calculateEndIndex_spec (h.logRecorded hinv) hbatch hpos hstart
  have hlast := h.last_eq
  have hgen := h.commit_ge
  rw [g.length_log] at hgen
  have hle := h.commit_le
  exact ⟨hfrom, hto, by omega, hone⟩

theorem Speaks.justified (dst : NodeId) :
    Justified g m s i dst (a.appendEntriesFor start (a.calculateEndIndex start)) := by
  obtain ⟨hfrom, hto, hend, hone⟩ := h.calculateEndIndex hinv hbatch hpos hstart
  generalize a.calculateEndIndex start = idx at hfrom hto hend hone
  have hlast := h.last_eq
  have hterm := h.recorded.getTermInternal_eq (g := g) hlast
  refine ⟨h.leader_eq, hend, by show start - 1 ≤ idx; omega, ?_, ?_, ?_, fun j hj hj' => ?_, ?_, h.commit_ge, ?_,
    fun hs => ?_, ?_⟩
  · show idx ≤ (s.tl a.state.currentView).length
    rw [h.tl_eq]
    omega
  · show _ = ((s.tl a.state.currentView).take idx).drop (start - 1)
    rw [h.tl_eq]
  · show a.getTermInternal (start - 1) = g.proto.termAt (s.tl a.state.currentView) (start - 1)
    rw [h.tl_eq, hterm]
  · show g.proto.termAt (s.tl a.state.currentView) j = a.getTermInternal idx
    have hj : start - 1 < j := hj
    have hj' : j ≤ idx := hj'
    rw [h.tl_eq, hterm, ← h.recorded.viewAt_eq (by omega), ← h.recorded.viewAt_eq (by omega)]
    exact hone j (by omega) hj'
  · show a.getTermInternal idx = g.proto.termAt (s.tl a.state.currentView) idx
    rw [h.tl_eq, hterm]
  · show a.state.commitIdx ≤ (s.tl a.state.currentView).length
    rw [h.tl_eq]
    exact h.commit_le
  · show s.Committed ((s.tl a.state.currentView).take a.state.commitIdx) a.state.currentView
    rw [h.tl_eq]
    exact h.proven hs
  · show WellFormed ((s.tl a.state.currentView).take idx)
    rw [h.tl_eq]
    exact h.wf.take idx

end

/-! ### Sending -/

variable {b : Aft} {dst : NodeId}

/-- Beyond its state and its log a leader relies on the acknowledgements only. -/
theorem Speaks.of_state (h : Speaks g m s i a) (hstate : b.state = a.state) (hledger : b.ledger = a.ledger)
    (hacks : ∀ p ∈ b.allOtherNodes, 0 < p.2.matchIdx →
      (⟨p.1, a.state.currentView, p.2.matchIdx⟩ : Ack NodeId) ∈ s.acks) : Speaks g m s i b := by
  refine ⟨?_, ?_, ?_, ?_, ?_, ?_, ?_, ?_, hledger ▸ h.wf, hstate ▸ hacks⟩
  · rw [hstate]; exact h.leader_eq
  · rw [hstate, hledger]; exact h.tl_eq
  · rw [hstate, hledger]; exact h.last_eq
  · unfold Aft.Recorded
    rw [hstate, hledger]
    exact h.recorded
  · rw [hstate]; exact h.commit_ge
  · rw [hstate, hledger]; exact h.commit_le
  · rw [hstate, hledger]; exact h.proven
  · unfold Aft.isRetiredCommitted
    rw [hstate]
    exact h.active

/-- What a leader may note about another node. -/
def NodeOk (s : Sys NodeId Entry) (a : Aft) (p : NodeId × NodeState) : Prop :=
  p.2.sentIdx ≤ a.state.lastIdx ∧ (0 < p.2.matchIdx → (⟨p.1, a.state.currentView, p.2.matchIdx⟩ : Ack NodeId) ∈ s.acks)

variable (h : Tells g m s i a) {p : NodeId × NodeState} {msg : Msg}
include h

theorem Tells.nodeOk (hlead : a.isLeader) (hp : p ∈ a.allOtherNodes) :
    NodeOk s a p :=
  ⟨h.sent hlead p hp (by simp), (h.speaks hlead).acks p hp⟩

/-- Timers, batch sizes, votes and what is noted about other nodes may change, and messages may go. -/
theorem Tells.adjust (hstate : b.state = a.state) (hledger : b.ledger = a.ledger)
    (hout : b.outbox ⊆ a.outbox) (hkeys : Assoc.keys b.allOtherNodes = Assoc.keys a.allOtherNodes)
    (hbatch : 1 ≤ b.entriesBatchSize) (hnodes : a.isLeader → ∀ p ∈ b.allOtherNodes, NodeOk s a p) :
    Tells g m s i b := by
  have hlead : b.isLeader → a.isLeader := fun hb => by
    unfold Aft.isLeader at hb ⊢
    rwa [hstate] at hb
  refine ⟨⟨by rw [hstate]; exact h.nodeId_eq, by rw [hkeys]; exact h.self_not_mem, hbatch,
    fun p hp => h.outbox p (hout hp), fun hb => ?_⟩, fun hb p hp _ => by rw [hstate]; exact (hnodes (hlead hb) p hp).1⟩
  exact (h.speaks (hlead hb)).of_state hstate hledger fun p hp => (hnodes (hlead hb) p hp).2

omit h

theorem Sends.isLeader_of_talks (ht : Aft.Talks a b) (hlead : b.isLeader) : a.isLeader := by
  unfold Aft.isLeader at hlead ⊢
  rwa [ht.state_eq] at hlead

/-- Sending changes neither the log nor the role of a node. -/
theorem Sends.of_talks (h : Sends g m s i a) (ht : Aft.Talks a b) (hacks : ∀ p ∈ b.allOtherNodes, p.2.matchIdx = 0 ∨
      ∃ p₀ ∈ a.allOtherNodes, p.1 = p₀.1 ∧ p.2.matchIdx = p₀.2.matchIdx)
    (hself : i ∉ Assoc.keys b.allOtherNodes) (hout : ∀ p ∈ b.outbox, i ≠ p.1 ∧ Justified g m s i p.1 p.2) :
    Sends g m s i b := by
  refine ⟨by rw [ht.state_eq]; exact h.nodeId_eq, hself, ?_, hout, fun hlead => ?_⟩
  · exact ht.entriesBatchSize_eq.symm ▸ h.batch_pos
  · have hs := h.speaks (Sends.isLeader_of_talks ht hlead)
    refine hs.of_state ht.state_eq ht.ledger_eq fun p hp hpos => ?_
    rcases hacks p hp with hzero | ⟨p₀, hp₀, hn, hmatch⟩
    · omega
    · rw [hn, hmatch]
      exact hs.acks p₀ hp₀ (hmatch ▸ hpos)

/-- A message that is justified. -/
theorem Sends.send (h : Sends g m s i a) (hne : i ≠ dst)
    (hmsg : Justified g m s i dst msg) : Sends g m s i (a.send dst msg) := by
  refine h.of_talks (Aft.talks_send a dst msg) (fun p hp => .inr ⟨p, hp, rfl, rfl⟩) h.self_not_mem fun p hp => ?_
  rcases mem_append.1 hp with hp | hp
  · exact h.outbox p hp
  · rw [mem_singleton] at hp
    subst hp
    exact ⟨hne, hmsg⟩

include h

theorem Tells.send (hne : i ≠ dst)
    (hmsg : Justified g m s i dst msg) : Tells g m s i (a.send dst msg) :=
  ⟨h.toSends.send hne hmsg, h.sent⟩

omit h

section

variable (hinv : LogInv g.proto s) {start : ℕ} {α : Type*}

include hinv

theorem Sends.sendAppendEntriesRange (h : Sends g m s i a) (hlead : a.isLeader) (dst : NodeId)
    (hpos : 1 ≤ start) (hstart : start ≤ a.state.lastIdx + 1) :
    Sends g m s i (a.sendAppendEntriesRange dst start (a.calculateEndIndex start)) := by
  have hs := h.speaks hlead
  have hmsg := hs.justified hinv h.batch_pos hpos hstart dst
  have ht := Aft.talks_sendAppendEntriesRange a dst start (a.calculateEndIndex start)
  unfold Aft.sendAppendEntriesRange at ht ⊢
  split_ifs at ht ⊢ with hret hknown
  · exact h
  · have hne : i ≠ dst := by
      rintro rfl
      exact h.self_not_mem (Assoc.lookup_isSome_iff.1 hknown)
    refine h.of_talks ht (fun p hp => .inr ?_) (by simpa using h.self_not_mem) (h.send hne hmsg).outbox
    have hp : p ∈ Assoc.modify dst (fun n => { n with sentIdx := a.calculateEndIndex start }) a.allOtherNodes := hp
    obtain ⟨p₀, hp₀, hkey, hcase⟩ := Assoc.mem_modify hp
    refine ⟨p₀, hp₀, hkey, ?_⟩
    rcases hcase with ⟨-, rfl⟩ | ⟨-, heq⟩
    · rfl
    · rw [heq]
  · exact h

omit hinv in
/-- A node that is sent a batch has then been sent what there is. -/
theorem sentBut_sendAppendEntriesRange {idx : ℕ} (hret : ¬a.isRetiredCommitted)
    (hidx : idx ≤ a.state.lastIdx) (h : SentBut (some dst) a) :
    SentBut none (a.sendAppendEntriesRange dst start idx) := by
  intro p hp _
  rw [(Aft.talks_sendAppendEntriesRange a dst start idx).state_eq]
  unfold Aft.sendAppendEntriesRange at hp
  rw [if_neg (fun hc => hret hc.1)] at hp
  split_ifs at hp with hknown
  · have hp : p ∈ Assoc.modify dst (fun n => { n with sentIdx := idx }) a.allOtherNodes := hp
    obtain ⟨p₀, hp₀, hkey, ⟨hne, rfl⟩ | ⟨-, heq⟩⟩ := Assoc.mem_modify hp
    · exact h p hp₀ (by simpa using hne)
    · rw [heq]
      exact hidx
  · refine h p hp ?_
    rintro heq
    rw [Option.some.injEq] at heq
    exact hknown (Assoc.lookup_isSome_iff.2 (heq ▸ mem_map_of_mem hp))

theorem Sends.sendAppendEntriesLoop (h : Sends g m s i a) (hlead : a.isLeader) (dst : NodeId) (fuel : ℕ)
    (hpos : 1 ≤ start) (hstart : start ≤ a.state.lastIdx + 1) :
    Sends g m s i (Aft.sendAppendEntriesLoop fuel a dst start) ∧
      (0 < fuel → SentBut (some dst) a → SentBut none (Aft.sendAppendEntriesLoop fuel a dst start)) := by
  induction fuel generalizing a start with
  | zero => exact ⟨h, fun hzero => absurd hzero (lt_irrefl 0)⟩
  | succ fuel ih =>
    have hs := h.speaks hlead
    obtain ⟨_, hto, _, _⟩ := hs.calculateEndIndex hinv h.batch_pos hpos hstart
    have hrange := h.sendAppendEntriesRange hinv hlead dst hpos hstart
    have hsent : SentBut (some dst) a → SentBut none (a.sendAppendEntriesRange dst start (a.calculateEndIndex start)) :=
      sentBut_sendAppendEntriesRange hs.active hto
    have ht := Aft.talks_sendAppendEntriesRange a dst start (a.calculateEndIndex start)
    unfold Aft.sendAppendEntriesLoop
    dsimp only
    split_ifs with hmore
    · have hlead' : (a.sendAppendEntriesRange dst start (a.calculateEndIndex start)).isLeader := by
        unfold Aft.isLeader
        rw [ht.state_eq]
        exact hlead
      have hnext : 1 ≤ min (a.calculateEndIndex start + 1) a.state.lastIdx := by omega
      obtain ⟨hrest, hsent'⟩ := ih hrange hlead' hnext (by rw [ht.state_eq]; omega)
      refine ⟨hrest, fun _ hbut => ?_⟩
      rcases Nat.eq_zero_or_pos fuel with rfl | hfuel
      · exact hsent hbut
      · exact hsent' hfuel fun p hp _ => hsent hbut p hp (by simp)
    · exact ⟨hrange, fun _ hbut => hsent hbut⟩

theorem Tells.sendAppendEntries (h : Sends g m s i a) (hlead : a.isLeader)
    (hpos : 1 ≤ start) (hstart : start ≤ a.state.lastIdx + 1) (hsent : SentBut (some dst) a) :
    Tells g m s i (a.sendAppendEntries dst start) := by
  obtain ⟨hloop, hall⟩ := h.sendAppendEntriesLoop hinv hlead dst (a.state.lastIdx + 2) hpos hstart
  exact ⟨hloop, fun _ => hall (Nat.succ_pos _) hsent⟩

/-- Sending to several nodes, each from a start index within the log. -/
theorem Tells.foldl_sendAppendEntries (dst start : α → ℕ) (l : List α) (h : Tells g m s i a)
    (hlead : a.isLeader) (hl : ∀ x ∈ l, 1 ≤ start x ∧ start x ≤ a.state.lastIdx + 1) :
    Tells g m s i (l.foldl (fun b x => b.sendAppendEntries (dst x) (start x)) a) := by
  induction l generalizing a with
  | nil => exact h
  | cons x l ih =>
    have ht := Aft.talks_sendAppendEntries a (dst x) (start x)
    obtain ⟨hpos, hstart⟩ := hl x mem_cons_self
    refine ih (Tells.sendAppendEntries hinv h.toSends hlead hpos hstart fun p hp _ => h.sent hlead p hp (by simp)) ?_ ?_
    · unfold Aft.isLeader
      rw [ht.state_eq]
      exact hlead
    · rw [ht.state_eq]
      exact fun y hy => hl y (mem_cons_of_mem _ hy)

include h

theorem Tells.sendAppendEntriesToAll (hlead : a.isLeader) :
    Tells g m s i a.sendAppendEntriesToAll := by
  unfold Aft.sendAppendEntriesToAll
  refine Tells.foldl_sendAppendEntries hinv (fun n : NodeId × NodeState => n.1) (fun n => n.2.sentIdx + 1) _ h hlead ?_
  exact fun n hn => ⟨Nat.succ_pos _, Nat.succ_le_succ (h.sent hlead n hn (by simp))⟩

/-! ### New nodes -/

theorem Tells.addNodeState (n : NodeId) : Tells g m s i (a.addNodeState n) := by
  unfold Aft.addNodeState
  split_ifs with hself hknown
  · exact h
  · exact h
  · dsimp only
    have hb : Sends g m s i { a with
        allOtherNodes := a.allOtherNodes ++
        [(n, { sentIdx := a.state.lastIdx + 1, matchIdx := 0, lastAckTimeout := 0 })] } := by
      refine h.toSends.of_talks (Eq.refl a.core) (fun p hp => ?_) ?_ h.outbox
      · rcases mem_append.1 hp with hp | hp
        · exact .inr ⟨p, hp, rfl, rfl⟩
        · rw [mem_singleton] at hp
          exact .inl (by rw [hp])
      · rw [Assoc.keys_append, mem_append, not_or]
        refine ⟨h.self_not_mem, ?_⟩
        simp only [Assoc.keys, map_cons, map_nil, mem_singleton]
        exact fun heq => hself (heq.symm.trans h.nodeId_eq.symm)
    split_ifs with hlead
    · refine Tells.sendAppendEntries hinv hb hlead (Nat.succ_pos _) le_rfl fun p hp hne => ?_
      rcases mem_append.1 hp with hp | hp
      · exact h.sent hlead p hp (by simp)
      · rw [mem_singleton] at hp
        exact absurd (by rw [hp]) hne
    · exact ⟨hb, fun hlead' => absurd hlead' hlead⟩

theorem Tells.createAndRemoveNodeState : Tells g m s i a.createAndRemoveNodeState := by
  unfold Aft.createAndRemoveNodeState
  generalize a.configurations.flatMap (·.nodes) = l
  induction l generalizing a with
  | nil => exact h
  | cons n l ih => exact ih (h.addNodeState hinv n)

omit h

end

end Ccf
