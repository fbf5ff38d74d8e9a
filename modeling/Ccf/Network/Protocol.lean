import Ccf.Lib.SignedRaft.Invariant
import Ccf.Network.World

/-! # The protocol the nodes follow

`Genesis.proto` is the instance of the replication protocol whose entries are the ledger entries of the
nodes. The functions of the protocol are those a node computes from its indices: the terms are its view
history, the last signature its last committable index, and a quorum from the commit index on is a
majority in each of its active configurations. -/

namespace Ccf

open List SignedRaft ViewHistory

/-- Entries with their views; the members of the service are the group. -/
def Genesis.proto (g : Genesis) : Proto NodeId Entry where
  term := Entry.view
  sig e := e.tx.committable = true
  conf log := (membersOf log).toFinset
  genesis := g.log
  first := startingViewChange
  genesis_ne_nil := by simp [Genesis.log]

variable {g : Genesis} {a : Aft} {c : Configuration}

theorem termAt_eq_viewOf (log : List Entry) (n : ℕ) : g.proto.termAt log n = viewOf (log.map Entry.view) n := by
  cases n with
  | zero => rfl
  | succ n =>
    rw [Proto.termAt, viewOf_succ, getD_eq_getElem?_getD, getElem?_map]
    cases log[n]? <;> rfl

theorem sigAt_iff_signedAt (log : List Entry) (n : ℕ) : g.proto.SigAt log n ↔ SignedAt log n := by
  unfold Proto.SigAt SignedAt
  cases n with
  | zero => simp [entryAt]
  | succ n => simp [entryAt, Genesis.proto]

/-! ### Reading the log -/

namespace Aft

variable {n : ℕ}

/-- The view history of a node is that of its log. -/
def Recorded (a : Aft) : Prop := Faithful a.state.viewHistory (a.ledger.map Entry.view)

theorem Recorded.viewAt_eq (h : a.Recorded) (hn : n ≤ a.ledger.length) :
    a.state.viewHistory.viewAt n = g.proto.termAt a.ledger n := by
  rw [termAt_eq_viewOf]
  exact Faithful.viewAt_eq h n (by rwa [length_map])

theorem Recorded.getTermInternal_eq (h : a.Recorded) (hlast : a.state.lastIdx = a.ledger.length) (n : ℕ) :
    a.getTermInternal n = g.proto.termAt a.ledger n := by
  unfold getTermInternal
  split_ifs with hn
  · rw [termAt_eq_viewOf]
    cases n with
    | zero => rfl
    | succ n =>
      rw [viewOf_succ, getD_eq_default _ _ (by rw [length_map]; omega)]
      rfl
  · exact h.viewAt_eq (by omega)

/-- The last committable index is the position of the last signature. -/
theorem Tracks.lastSig_eq (h : Tracks a) : g.proto.lastSig a.ledger = a.lastCommittableIndex := by
  unfold lastCommittableIndex
  cases hc : a.state.committableIndices.getLast? with
  | none =>
    rw [getLast?_eq_none_iff] at hc
    refine Proto.lastSig_eq ?_ fun n hn => ?_
    · refine h.commit_signed.imp_right fun hs => ?_
      exact (sigAt_iff_signedAt _ _).2 hs
    · have := mt (fun hlt => h.mem_committable.2 ⟨(sigAt_iff_signedAt _ _).1 hn, hlt⟩) (by simp [hc])
      exact not_lt.1 this
  | some c =>
    have hcmem := mem_of_getLast? hc
    refine Proto.lastSig_eq (.inr ((sigAt_iff_signedAt _ _).2 (h.signedAt hcmem))) fun n hn => ?_
    rcases lt_or_ge a.state.commitIdx n with hlt | hge
    · have hsorted : a.state.committableIndices.Pairwise (· < ·) := by
        rw [h.committable_eq]
        exact (signatures_sorted a.ledger).sublist filter_sublist
      obtain ⟨l, hl⟩ := getLast?_eq_some_iff.1 hc
      have hn' := h.mem_committable.2 ⟨(sigAt_iff_signedAt _ _).1 hn, hlt⟩
      rw [hl] at hn' hsorted
      rcases mem_append.1 hn' with hn' | hn'
      · exact ((pairwise_append.1 hsorted).2.2 n hn' c (by simp)).le
      · rw [mem_singleton] at hn'
        exact hn'.le
    · exact hge.trans (h.mem_committable.1 hcmem).2.le

end Aft

/-! ### Configurations -/

namespace Genesis

variable (g : Genesis) {k : ℕ}

theorem configurationsOf_log : configurationsOf g.log = [⟨1, [g.primary]⟩] := by
  simp [configurationsOf, log, nextConfigurations, g.create_delta, g.signature_delta, applyDelta, insertNode,
    latestConfiguration]

theorem membersOf_log : membersOf g.log = [g.primary] := by
  rw [← latestConfiguration_configurationsOf, configurationsOf_log]
  rfl

/-- A log that starts with the genesis log always has a configuration. -/
theorem configurationsOf_take_ne_nil {log : List Entry} (h : g.log <+: log)
    (hk : g.log.length ≤ k) : configurationsOf (log.take k) ≠ [] := by
  have hone : (⟨1, [g.primary]⟩ : Configuration) ∈ configurationsOf log := by
    have := configurationsOf_take log g.log.length
    rw [← prefix_iff_eq_take.1 h, configurationsOf_log] at this
    exact mem_of_mem_filter (this ▸ mem_singleton_self _)
  rw [configurationsOf_take]
  refine ne_nil_of_mem (mem_filter.2 ⟨hone, ?_⟩)
  have : g.log.length = 2 := rfl
  simp only [decide_eq_true_eq]
  omega

theorem wellFormed_log : WellFormed g.log := by
  have hmarks : ∀ q e, entryAt g.log q = some e → e.tx.retiredCommittedNodes = [] := by
    intro q e he
    have hmem : e ∈ g.log := by
      cases q with
      | zero => cases he
      | succ q => exact mem_of_getElem? he
    simp only [log, mem_cons, not_mem_nil, or_false] at hmem
    rcases hmem with rfl | rfl
    · exact g.create_marks
    · exact g.signature_marks
  refine ⟨fun n i j k hij hjk hin hout => ?_, fun q e n he hn => ?_, fun q q' e e' n he _ hn _ => ?_⟩
  · have hmembers : ∀ k, 0 < k → membersOf (g.log.take k) = [g.primary] := by
      intro k hk
      obtain ⟨k, rfl⟩ := Nat.exists_eq_succ_of_ne_zero hk.ne'
      rcases k with _ | k
      · simp [membersOf, log, g.create_delta, applyDelta, insertNode]
      · simpa [log] using g.membersOf_log
    rcases Nat.eq_zero_or_pos i with rfl | hi
    · simp at hin
    · rw [hmembers i hi] at hin
      rw [hmembers j (by omega)] at hout
      exact absurd hin hout
  · rw [hmarks q e he] at hn
    cases hn
  · rw [hmarks q e he] at hn
    cases hn

end Genesis

/-- A majority of every active configuration is a quorum from the commit index on. -/
theorem Aft.Tracks.quorate (h : Aft.Tracks a) (hcommit : g.log.length ≤ a.state.commitIdx)
    (hlog : g.log <+: a.ledger) {S : Finset NodeId} (hS : ∀ c ∈ a.configurations, Majority S c.nodes.toFinset) :
    g.proto.Quorate a.ledger a.state.commitIdx S := by
  intro j hj _
  obtain ⟨c, hc, hnodes⟩ := Aft.exists_mem_pop hj (g.configurationsOf_take_ne_nil hlog hcommit)
  have hmaj := hS c (h.configurations_eq ▸ hc)
  rwa [hnodes] at hmaj

/-- The nodes of an active configuration are distinct. -/
theorem Aft.Tracks.nodup_nodes (h : Aft.Tracks a) (hc : c ∈ a.configurations) :
    c.nodes.Nodup := by
  rw [h.configurations_eq] at hc
  obtain ⟨j, -, hnodes⟩ := Aft.nodes_of_mem_pop hc
  rw [hnodes]
  exact nodup_membersOf _

end Ccf
