import Ccf.Aft.Reconfiguration

/-! # The quorum watermark

`update_commit` sorts the indices that the nodes of a configuration have matched, takes the one in the middle, and of
these the least over the active configurations. An index is at or below that one exactly if a majority of every
active configuration has reached it (`Agreed`). Without an active configuration there is no watermark and nothing is
committed. -/

namespace Ccf.Aft

open List

variable {a : Aft} {c : Configuration} {l : List ℕ} {w : ℕ}

/-- The index up to which node `n` is known to agree with the leader. -/
def matchOf (a : Aft) (n : NodeId) : ℕ :=
  if n = a.state.nodeId then a.state.lastIdx else ((a.allOtherNodes.lookup n).map (·.matchIdx)).getD 0

/-- A majority of the nodes of the configuration has reached index `i`. -/
def Reached (a : Aft) (c : Configuration) (i : ℕ) : Prop := getQuorum c.nodes.length ≤ c.nodes.countP (i ≤ a.matchOf ·)

/-- A majority of every active configuration has reached index `i`. -/
def Agreed (a : Aft) (i : ℕ) : Prop := ∀ c ∈ a.configurations, a.Reached c i

/-- The highest committable index that is agreed. -/
structure HighestAgreed (a : Aft) (i : ℕ) : Prop where
  committable : i ∈ a.state.committableIndices
  agreed : a.Agreed i
  highest : ∀ j ∈ a.state.committableIndices, a.Agreed j → j ≤ i

/-- The index and configuration invariants of a leader. -/
structure LeaderInv (a : Aft) : Prop where
  leader : a.isLeader
  index : IndexInv a.state
  nonempty : ∀ c ∈ a.configurations, c.nodes ≠ []
  known : ∀ c ∈ a.configurations, ∀ n ∈ c.nodes, n ≠ a.state.nodeId → n ∈ Assoc.keys a.allOtherNodes
  matched : ∀ p ∈ a.allOtherNodes, p.2.matchIdx ≤ a.state.lastIdx

theorem matchIndices_eq {nodes : List NodeId} (h : a.matchIndices nodes = some l) : l = nodes.map a.matchOf := by
  induction nodes generalizing l with
  | nil =>
    cases h
    rfl
  | cons n nodes ih =>
    unfold matchIndices at h
    split_ifs at h with hself
    · obtain ⟨l', hl', rfl⟩ := Option.map_eq_some_iff.1 h
      rw [map_cons, ih hl', matchOf, if_pos hself]
    · split at h
      · rename_i ns l' hlookup hl'
        cases h
        rw [map_cons, ih hl', matchOf, if_neg hself, hlookup]
        rfl
      · cases h

/-- The indices at or below the watermark are those that a majority has reached. -/
theorem le_watermark_iff (h : a.watermark c = .ok w) (i : ℕ) : i ≤ w ↔ a.Reached c i := by
  unfold watermark at h
  split at h
  · cases h
  · rename_i l hl
    split at h
    · cases h
    · rename_i confirmed hconfirmed
      cases h
      obtain rfl := matchIndices_eq hl
      have hlt := (List.getElem?_eq_some_iff.1 hconfirmed).1
      rw [length_insertionSort, length_map] at hlt
      have hcount := length_eq_countP_add_countP (fun n => decide (i ≤ a.matchOf n)) (l := c.nodes)
      simp only [decide_eq_true_eq, not_le] at hcount
      rw [le_insertionSort_iff hconfirmed, countP_map, length_map]
      -- from the middle of the sorted list on there is a majority
      show c.nodes.countP (fun n => decide (a.matchOf n < i)) ≤ (c.nodes.length - 1) / 2 ↔
        c.nodes.length / 2 + 1 ≤ c.nodes.countP (i ≤ a.matchOf ·)
      omega

theorem exists_watermark (hne : c.nodes ≠ [])
    (hknown : ∀ n ∈ c.nodes, n ≠ a.state.nodeId → n ∈ Assoc.keys a.allOtherNodes) : ∃ w, a.watermark c = .ok w := by
  obtain ⟨l, hl⟩ := matchIndices_isSome hknown
  have hpos := length_pos_iff.2 hne
  have hlt : (l.length - 1) / 2 < (l.insertionSort (· ≤ ·)).length := by
    rw [length_insertionSort, matchIndices_eq hl, length_map]
    omega
  refine ⟨(l.insertionSort (· ≤ ·))[(l.length - 1) / 2], ?_⟩
  unfold watermark
  rw [hl]
  simp only [getElem?_eq_getElem hlt]

/-- The loop of `update_commit` ends with the least of the watermarks. -/
theorem newAgreementIndex_spec {confs : List Configuration} {acc r : Option ℕ}
    (h : a.newAgreementIndex confs acc = .ok r) :
    (r = none ↔ confs = [] ∧ acc = none) ∧ ∀ m ∈ r, ∀ i, i ≤ m ↔ (∀ x ∈ acc, i ≤ x) ∧ ∀ c ∈ confs, a.Reached c i := by
  induction confs generalizing acc with
  | nil =>
    cases h
    exact ⟨by simp, fun m hm i => by simp [Option.mem_def.1 hm]⟩
  | cons c confs ih =>
    unfold newAgreementIndex at h
    split at h
    · cases h
    · rename_i w hw
      have hreached := le_watermark_iff hw
      split at h
      · obtain ⟨hnone, hle⟩ := ih h
        exact ⟨by simp [hnone], fun m hm i => by simp [hle m hm i, hreached]⟩
      · rename_i x
        obtain ⟨hnone, hle⟩ := ih h
        refine ⟨by simp [hnone], fun m hm i => ?_⟩
        have hmin : i ≤ (if w < x then w else x) ↔ i ≤ x ∧ i ≤ w := by split_ifs <;> omega
        simp [hle m hm i, hmin, hreached, and_assoc]

theorem le_findHighestPossibleCommittableIndex (hsorted : a.state.committableIndices.Pairwise (· < ·)) {p idx : ℕ}
    (hp : p ∈ a.state.committableIndices) (hle : p ≤ idx) :
    ∃ c, a.findHighestPossibleCommittableIndex idx = some c ∧ p ≤ c := by
  unfold findHighestPossibleCommittableIndex
  rw [find?_reverse]
  have hmem : p ∈ a.state.committableIndices.filter (· ≤ idx) := mem_filter.2 ⟨hp, by simpa using hle⟩
  cases hlast : (a.state.committableIndices.filter (· ≤ idx)).getLast? with
  | none =>
    rw [getLast?_eq_none_iff] at hlast
    rw [hlast] at hmem
    cases hmem
  | some c =>
    refine ⟨c, rfl, ?_⟩
    obtain ⟨l, hl⟩ := getLast?_eq_some_iff.1 hlast
    have hfiltered := hsorted.sublist (filter_sublist (p := (· ≤ idx)))
    rw [hl] at hmem hfiltered
    rcases mem_append.1 hmem with hmem | hmem
    · exact ((pairwise_append.1 hfiltered).2.2 p hmem c (by simp)).le
    · rw [mem_singleton] at hmem
      exact hmem.le

namespace LeaderInv

variable (h : LeaderInv a)
include h

theorem matchOf_le (n : NodeId) : a.matchOf n ≤ a.state.lastIdx := by
  unfold matchOf
  split_ifs
  · exact le_rfl
  · cases hlookup : a.allOtherNodes.lookup n with
    | none => exact Nat.zero_le _
    | some ns => exact h.matched _ (Assoc.mem_of_lookup hlookup)

theorem not_reached (c : Configuration) {i : ℕ} (hi : a.state.lastIdx < i) : ¬a.Reached c i := by
  have hzero : c.nodes.countP (i ≤ a.matchOf ·) = 0 := by
    rw [countP_eq_zero]
    intro n _ hn
    have := h.matchOf_le n
    simp only [decide_eq_true_eq] at hn
    omega
  rw [Reached, hzero, getQuorum]
  omega

theorem exists_newAgreementIndex : ∃ r, a.newAgreementIndex a.configurations none = .ok r := by
  cases hr : a.newAgreementIndex a.configurations none with
  | ok r => exact ⟨r, rfl⟩
  | error e =>
    obtain ⟨c, hc, he⟩ := newAgreementIndex_error hr
    obtain ⟨w, hw⟩ := exists_watermark (h.nonempty c hc) (h.known c hc)
    cases hw.symm.trans he

/-- The state that `update_commit` leaves, when a configuration is active. -/
theorem updateCommit_eq (hne : a.configurations ≠ []) : (∃ c, HighestAgreed a c ∧
        a.updateCommit = if a.state.viewHistory.viewAt c = a.state.currentView then a.commit c else .ok a) ∨
      (¬∃ c, HighestAgreed a c) ∧ a.updateCommit = .ok a := by
  obtain ⟨r, hr⟩ := h.exists_newAgreementIndex
  obtain ⟨hnone, hle⟩ := newAgreementIndex_spec hr
  obtain ⟨m, rfl⟩ := Option.ne_none_iff_exists'.1 (mt hnone.1 fun hnil => hne hnil.1)
  have hagreed : ∀ i, i ≤ m ↔ a.Agreed i := fun i => by simpa [Agreed] using hle m rfl i
  have hlast : m ≤ a.state.lastIdx := by
    by_contra hlt
    obtain ⟨c, hc⟩ := exists_mem_of_ne_nil _ hne
    exact h.not_reached c (not_le.1 hlt) ((hagreed m).1 le_rfl c hc)
  unfold updateCommit
  rw [if_neg (not_not.2 h.leader), hr]
  simp only [if_neg (not_lt.2 hlast)]
  have hfind := fun p hp hpm => @le_findHighestPossibleCommittableIndex a h.index.sorted p m hp hpm
  cases hc : a.findHighestPossibleCommittableIndex m with
  | none =>
    refine .inr ⟨?_, rfl⟩
    rintro ⟨c, hmem, hquorum, -⟩
    obtain ⟨c', hc', -⟩ := hfind c hmem ((hagreed c).2 hquorum)
    rw [hc] at hc'
    cases hc'
  | some c =>
    obtain ⟨hmem, hcm⟩ := findHighestPossibleCommittableIndex_eq_some hc
    refine .inl ⟨c, ⟨hmem, (hagreed c).1 hcm, fun j hj hquorum => ?_⟩, ?_⟩
    · obtain ⟨c', hc', hle⟩ := hfind j hj ((hagreed j).2 hquorum)
      rw [hc] at hc'
      cases hc'
      exact hle
    · simp only [getTermInternal, if_neg (not_lt.2 (h.index.mem_range c hmem).2)]

theorem commitIdx_commit {c : ℕ} (hc : c ∈ a.state.committableIndices) : (a.commit c).state.state.commitIdx = c := by
  obtain ⟨hlt, hle⟩ := h.index.mem_range c hc
  unfold commit
  rw [if_neg (not_lt.2 hle), if_neg (not_le.2 hlt)]
  exact (quiet_finishCommit (a.setCommit c) a.state.commitIdx c).commit_eq

omit h

end LeaderInv

/-- **The quorum watermark is exact**: the commit index is raised to `c` exactly if `c` is the highest committable
index that a majority of every active configuration has reached, and it is of the current view. -/
theorem updateCommit_watermark (a : Aft) (h : LeaderInv a) :
    (a.configurations ≠ [] →
      (∀ c, a.state.commitIdx < c → (a.updateCommit.state.state.commitIdx = c ↔
        HighestAgreed a c ∧ a.state.viewHistory.viewAt c = a.state.currentView)) ∧
      ((¬∃ c, HighestAgreed a c ∧ a.state.viewHistory.viewAt c = a.state.currentView) →
        a.updateCommit.state.state.commitIdx = a.state.commitIdx)) ∧
    (a.configurations = [] → a.updateCommit.state.state.commitIdx = a.state.commitIdx) := by
  refine ⟨fun hne => ?_, fun hnil => ?_⟩
  · rcases h.updateCommit_eq hne with ⟨c, hhighest, heq⟩ | ⟨hnone, heq⟩
    · have hunique : ∀ d, HighestAgreed a d → d = c := fun d hd =>
        le_antisymm (hhighest.highest d hd.committable hd.agreed) (hd.highest c hhighest.committable hhighest.agreed)
      rw [heq]
      split_ifs with hview
      · rw [h.commitIdx_commit hhighest.committable]
        refine ⟨fun d _ => ⟨?_, fun hd => (hunique d hd.1).symm⟩, fun hnone => absurd ⟨c, hhighest, hview⟩ hnone⟩
        rintro rfl
        exact ⟨hhighest, hview⟩
      · refine ⟨fun d hd => ⟨fun hsame => absurd hsame hd.ne, fun hd' => ?_⟩, fun _ => rfl⟩
        exact absurd (hunique d hd'.1 ▸ hd'.2) hview
    · rw [heq]
      exact ⟨fun d hd => ⟨fun hsame => absurd hsame hd.ne, fun hd' => absurd ⟨d, hd'.1⟩ hnone⟩, fun _ => rfl⟩
  · unfold updateCommit
    rw [hnil, if_neg (not_not.2 h.leader)]
    rfl

/-- Node 0 leads a service to which it has added node 1, which has acknowledged all entries. -/
def acknowledged : Aft :=
  (Runs.exec step (init 0 false 10 100) (retiringRun.take 3)).setNode 1 fun n => { n with matchIdx := 4 }

theorem leaderInv_acknowledged : LeaderInv acknowledged where
  leader := by decide +kernel
  index := ⟨by decide +kernel, by decide +kernel, by decide +kernel, by decide +kernel, by decide +kernel⟩
  nonempty := by decide +kernel
  known := by decide +kernel
  matched := by decide +kernel

theorem updateCommit_watermark_acknowledged :
    acknowledged.configurations = [⟨1, [0]⟩, ⟨3, [0, 1]⟩] ∧ acknowledged.state.commitIdx = 2 ∧
      (acknowledged.updateCommit.state.state.commitIdx = 4 ↔
        HighestAgreed acknowledged 4 ∧ acknowledged.state.viewHistory.viewAt 4 = acknowledged.state.currentView) :=
  ⟨by decide +kernel, by decide +kernel,
    ((updateCommit_watermark acknowledged leaderInv_acknowledged).1 (by decide +kernel)).1 4 (by decide +kernel)⟩

/-- A leader whose log has no reconfiguration. -/
def unconfigured : Aft := Runs.exec step (init 0 false 10 100) [.forceBecomePrimary, .replicate [(1, signatureTx)] 2]

/-- Every active configuration has reached index 1, as there is none, but it is not committed. -/
theorem not_updateCommit_unconfigured :
    LeaderInv unconfigured ∧ HighestAgreed unconfigured 1 ∧
      unconfigured.state.viewHistory.viewAt 1 = unconfigured.state.currentView ∧
      unconfigured.state.commitIdx < 1 ∧ unconfigured.updateCommit.state.state.commitIdx ≠ 1 := by
  have hnil : ∀ {P : Configuration → Prop}, ∀ c ∈ unconfigured.configurations, P c := by
    rw [show unconfigured.configurations = [] by decide +kernel]
    simp
  have honly : unconfigured.state.committableIndices = [1] := by decide +kernel
  refine ⟨⟨by decide +kernel, ⟨?_, ?_, ?_, ?_, ?_⟩, hnil, hnil, by decide +kernel⟩, ⟨by decide +kernel, hnil,
    ?_⟩, ?_, ?_, ?_⟩
  case refine_6 =>
    intro j hj _
    rw [honly, mem_singleton] at hj
    exact hj.le
  all_goals decide +kernel

end Ccf.Aft
