import Ccf.Network.Receiving

/-! # The start of a service

The primary forces itself to become leader and writes the genesis log. It is the only trusted node, so it
commits the log at once and there is no one to send it to; what the sizes of the two entries decide is only
the batch size. `Genesis.sim_start` relates the nodes of a new service to the first state of the protocol. -/

namespace Ccf

open Aft SignedRaft ViewHistory

namespace Genesis

variable (g : Genesis) (c : Setup)

/-! ### What the primary does -/

/-- The primary before it has written anything. -/
def forced : Aft :=
  { state := { nodeId := g.primary, preVoteEnabled := c.preVoteEnabled g.primary, currentView := startingViewChange,
               leadershipState := .leader }
    leaderId := some g.primary
    shouldSign := true
    requestTimeout := c.requestTimeout g.primary
    electionTimeout := c.electionTimeout g.primary }

/-- With the transaction that creates the service. -/
def created (size count batchSize : ℕ) (window : ℤ) : Aft :=
  { g.forced c with
    state := { (g.forced c).state with lastIdx := 1, viewHistory := ⟨[1, 1], by decide⟩ }
    ledger := [⟨startingViewChange, g.create⟩]
    configurations := [⟨1, [g.primary]⟩]
    entrySizeNotLimited := size
    entryCount := count
    entriesBatchSize := batchSize
    batchWindowSum := window }

/-- With the signature, before it is committed. -/
def signed (size count batchSize : ℕ) (window : ℤ) : Aft :=
  { g.created c size count batchSize window with
    state := { (g.created c size count batchSize window).state with
      lastIdx := 2
      committableIndices := [2]
      committableHistory := [2] }
    ledger := g.log
    shouldSign := false
    ticking := true }

/-- With everything committed. -/
def founded (size count batchSize : ℕ) (window : ℤ) : Aft :=
  { g.signed c size count batchSize window with
    state := { (g.signed c size count batchSize window).state with commitIdx := 2, committableIndices := [] } }

theorem replicate_create :
    ((g.forced c).replicateEntry 1 g.create).andThen (fun b => b.updateViewHistory 1 b.state.currentView) =
      .ok (g.created c g.create.size 1 20 0) := by
  simp [replicateEntry, configurationChangeHook, g.create_delta, g.create_unsigned, addConfiguration,
    Outcome.andThen, pushConfiguration, createAndRemoveNodeState, addNodeState, applyDelta,
    getLatestConfiguration, latestConfiguration, insertNode, putEntry, forced, created, updateViewHistory]
  rfl

variable {size count batchSize : ℕ} {window : ℤ} {a : Aft}

theorem replicate_signature : ((g.created c size count batchSize window).replicateEntry 2 g.signature).andThen
        (fun b => b.updateViewHistory 2 b.state.currentView) =
      .ok (g.signed c (size + g.signature.size) (count + 1) batchSize window) := by
  simp [replicateEntry, configurationChangeHook, g.signature_delta, g.signature_signed, Outcome.andThen,
    replicateSignature, signRetirement, pushCommittable, startTickingIfNecessary, putEntry, forced,
    created, updateViewHistory, isSelfInLatestConfig, getLatestConfiguration, latestConfiguration,
    startTicking]
  rfl

/-- With no one to send to, only the batch size may change. -/
theorem flushIfFull_alone (hnodes : a.allOtherNodes = []) (hbatch : 1 ≤ a.entriesBatchSize) :
    ∃ size count batchSize window, 1 ≤ batchSize ∧
      a.flushIfFull =
        { a with
          entrySizeNotLimited := size
          entryCount := count
          entriesBatchSize := batchSize
          batchWindowSum := window } := by
  unfold flushIfFull
  split_ifs
  · refine ⟨0, 0, _, a.updateBatchSize.batchWindowSum, one_le_updateBatchSize a, ?_⟩
    unfold sendAppendEntriesToAll
    rw [show a.updateBatchSize.allOtherNodes = [] from hnodes]
    rfl
  · exact ⟨_, _, _, _, hbatch, rfl⟩

theorem compactStore_log (hledger : a.ledger = g.log) : a.compactStore 0 2 = .ok a := by
  unfold compactStore
  rw [hledger]
  simp [log, Outcome.forEach, setRetiredCommitted, g.create_marks, g.signature_marks]

theorem updateCommit_signed :
    (g.signed c size count batchSize window).updateCommit = .ok (g.founded c size count batchSize window) := by
  have hlead : (g.signed c size count batchSize window).isLeader := rfl
  have hmark : (g.signed c size count batchSize window).watermark ⟨1, [g.primary]⟩ = .ok 2 :=
    watermark_alone (by simp) fun n hn => List.mem_singleton.1 hn
  have hagree : (g.signed c size count batchSize window).newAgreementIndex
      (g.signed c size count batchSize window).configurations none = .ok (some 2) := by
    show (g.signed c size count batchSize window).newAgreementIndex [⟨1, [g.primary]⟩] none = .ok (some 2)
    simp only [newAgreementIndex, hmark]
  unfold updateCommit
  rw [if_neg (not_not.2 hlead), hagree]
  show ((g.signed c size count batchSize window).setCommit 2).finishCommit 0 2 = _
  unfold finishCommit
  show (((g.signed c size count batchSize window).setCommit 2).compactStore 0 2).andThen _ = _
  rw [g.compactStore_log rfl]
  rfl

theorem nodes_start : ∃ size count batchSize window, 1 ≤ batchSize ∧
    (g.start c).nodes g.primary = g.founded c size count batchSize window := by
  obtain ⟨n₁, k₁, b₁, w₁, hb₁, hflush₁⟩ :=
    flushIfFull_alone (a := g.created c g.create.size 1 20 0) rfl (Nat.le_of_ble_eq_true rfl)
  obtain ⟨n₂, k₂, b₂, w₂, hb₂, hflush₂⟩ :=
    flushIfFull_alone (a := g.signed c (n₁ + g.signature.size) (k₁ + 1) b₁ w₁) rfl hb₁
  refine ⟨n₂, k₂, b₂, w₂, hb₂, (Function.update_self _ _ _).trans ?_⟩
  have hloop : (g.forced c).replicateLoop [(1, g.create), (2, g.signature)] = (.ok (g.signed c n₂ k₂ b₂ w₂), true) := by
    have hfirst : 1 = (g.forced c).state.lastIdx + 1 := rfl
    have hsecond : 2 = (g.created c n₁ k₁ b₁ w₁).state.lastIdx + 1 := rfl
    unfold replicateLoop
    rw [if_neg (not_not.2 hfirst), replicate_create]
    dsimp only
    rw [hflush₁]
    show (g.created c n₁ k₁ b₁ w₁).replicateLoop [(2, g.signature)] = _
    unfold replicateLoop
    rw [if_neg (not_not.2 hsecond), replicate_signature]
    dsimp only
    rw [hflush₂]
    rfl
  have hforced : (c.init g.primary).step .forceBecomePrimary = g.forced c := rfl
  have hlead : (g.forced c).isLeader := rfl
  have hview : startingViewChange = (g.forced c).state.currentView := rfl
  have hactive : ¬(g.forced c).isRetiredCommitted := fun h => by cases h.1
  show ((g.forced c).replicate [(1, g.create), (2, g.signature)] startingViewChange).1.state = _
  unfold replicate
  rw [if_pos hlead, if_neg (not_not.2 hview), if_neg hactive]
  unfold replicateBatch
  rw [hloop]
  have halone : (g.signed c n₂ k₂ b₂ w₂).otherNodesInActiveConfigs = [] := by
    simp [otherNodesInActiveConfigs, signed, created, forced]
  dsimp only
  rw [if_pos halone, updateCommit_signed, Outcome.state_ok]

/-! ### The first state of the protocol -/

variable {g c} {m : Mode NodeId} {i : NodeId}

theorem inv_start (hmay : m.elects startingViewChange g.primary) : Inv g.proto m (g.proto.initial g.primary) := by
  refine inv_initial (P := g.proto) (fun e he => ?_) ?_ ?_ hmay
  · have he : e ∈ g.log := he
    simp only [log, List.mem_cons, List.not_mem_nil, or_false] at he
    rcases he with rfl | rfl <;> rfl
  · exact (sigAt_iff_signedAt _ _).2 ⟨⟨startingViewChange, g.signature⟩, rfl, g.signature_signed⟩
  · show Majority {g.primary} (membersOf g.log).toFinset
    rw [membersOf_log]
    simp [Majority]

/-- A new node knows nothing and has nothing on record. -/
theorem sim_init (hi : i ≠ g.primary) : Sim g m (g.proto.initial g.primary) i (c.init i) := by
  have hlead : ¬(c.init i).isLeader := nofun
  refine ⟨⟨⟨⟨rfl, List.not_mem_nil, Nat.le_of_ble_eq_true rfl, nofun, fun h => absurd h hlead⟩,
    fun h => absurd h hlead⟩, ?_, ?_, ?_, tracks_init _ _ _ _, nofun, nofun,
    fun _ => ⟨nofun, nofun⟩⟩, ?_, nofun, nofun⟩
  · simp [Proto.initial, hi, Setup.init, init]
  · simp [Proto.initial, hi, Setup.init, init]
  · simp [Proto.initial, hi, Setup.init, init]
  · exact Faithful.nil

variable (hnode : (g.start c).nodes g.primary = g.founded c size count batchSize window)
include hnode

theorem tracks_founded : Aft.Tracks (g.founded c size count batchSize window) := by
  rw [← hnode]
  simp only [start, Function.update_self]
  refine tracks_run ⟨trivial, ?_, trivial⟩
  exact g.wellFormed_log

theorem sim_founded (hbatch : 1 ≤ batchSize) :
    Sim g m (g.proto.initial g.primary) g.primary (g.founded c size count batchSize window) := by
  have htracks := tracks_founded hnode
  have hrecorded : (g.founded c size count batchSize window).Recorded := by
    obtain ⟨h, hupdate, hfaithful⟩ := Faithful.nil.update (t := startingViewChange) (m := 2) (Nat.zero_le _) (by decide)
    have heq : h = (g.founded c size count batchSize window).state.viewHistory := (Option.some.inj hupdate).symm
    rw [heq] at hfaithful
    exact hfaithful
  have htl : (g.proto.initial g.primary).tl startingViewChange = g.log := by simp [Proto.initial, proto]
  have hleader : (g.proto.initial g.primary).leader startingViewChange = some g.primary := by
    simp [Proto.initial, proto]
  refine ⟨⟨⟨⟨rfl, List.not_mem_nil, hbatch, by rintro _ ⟨⟩, fun h => ?_⟩, by rintro _ _ ⟨⟩⟩, ?_, ?_, ?_, htracks,
    by rintro ⟨⟩, by rintro ⟨⟩, fun _ => ⟨by rintro _ ⟨⟩, by rintro _ ⟨⟩⟩⟩, hrecorded, fun _ => le_rfl, fun _ => le_rfl⟩
  · refine ⟨hleader, htl, rfl, hrecorded, le_rfl, le_rfl, fun _ => ?_, fun h => (by cases h.1), g.wellFormed_log,
      by rintro _ ⟨⟩⟩
    refine .inr ⟨_, rfl, le_rfl, ?_⟩
    show _ <+: ((g.proto.initial g.primary).tl startingViewChange).take 2
    exact List.prefix_rfl
  · rw [show (g.proto.initial g.primary).view g.primary = startingViewChange by simp [Proto.initial, proto]]
    rfl
  · rw [show (g.proto.initial g.primary).log g.primary = g.log by simp [Proto.initial, proto]]
    rfl
  · rw [show (g.proto.initial g.primary).commit g.primary = g.log.length by simp [Proto.initial, proto]]
    rfl

omit hnode

/-- **The start of a service** is the first state of the protocol. -/
theorem sim_start (i : NodeId) : Sim g m (g.proto.initial g.primary) i ((g.start c).nodes i) := by
  by_cases hi : i = g.primary
  · subst hi
    obtain ⟨size, count, batchSize, window, hbatch, hnode⟩ := g.nodes_start c
    rw [hnode]
    exact sim_founded hnode hbatch
  · have hnode : (g.start c).nodes i = c.init i := Function.update_of_ne hi _ _
    rw [hnode]
    exact sim_init hi

end Genesis

end Ccf
