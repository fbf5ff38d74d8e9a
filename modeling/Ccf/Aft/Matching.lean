import Ccf.Aft.Ranges

/-! # Finding where two logs may match

`find_highest_possible_match` walks back from an index, from the start of one view to the end of the one before, until
the view is not later than the given one. The views of a log only grow, so nothing it skips can match. -/

namespace Ccf

open List

namespace ViewHistory

variable {h : ViewHistory} {p : ℕ}

theorem startOfView_viewAt (h0 : h.viewAt 0 = 0) (hp : 0 < h.viewAt p) :
    1 ≤ h.startOfView (h.viewAt p) ∧ ∀ k, h.startOfView (h.viewAt p) ≤ k ↔ h.viewAt p ≤ h.viewAt k := by
  generalize hv : h.viewAt p = v at hp
  have hlen : v ≤ h.views.length := hv ▸ h.viewAt_le_length p
  have hprev : v - 1 < h.views.length := by omega
  have hle := h.getElem_le_iff hprev
  have hstart : h.startOfView v = h.views[v - 1] := by
    simp only [startOfView, invalidView, getD_eq_getElem _ _ hprev]
    rw [if_neg (by omega), if_neg]
    rintro ⟨hnext, hsame⟩
    -- the next view starts after `p`
    have hbefore := (hle p).2 (by omega)
    rw [getD_eq_getElem _ _ hnext] at hsame
    have := (h.getElem_le_iff hnext p).1 (by omega)
    omega
  have hzero := hle 0
  rw [hstart]
  refine ⟨by omega, fun k => ?_⟩
  rw [hle k]
  omega

end ViewHistory

namespace Aft

open ViewHistory

/-- The loop ends at the highest index up to `probe` whose view is not later. -/
theorem probeMatch_isGreatest {h : ViewHistory} (h0 : h.viewAt 0 = 0) (view : ℕ) {fuel probe : ℕ}
    (hfuel : h.viewAt probe ≤ fuel) :
    IsGreatest {k | k ≤ probe ∧ h.viewAt k ≤ view} (probeMatch h view fuel probe) := by
  induction fuel generalizing probe with
  | zero => exact ⟨⟨le_rfl, by simp only [probeMatch]; omega⟩, fun k hk => hk.1⟩
  | succ fuel ih =>
    unfold probeMatch
    split_ifs with hlater
    · obtain ⟨hpos, hstart⟩ := startOfView_viewAt h0 (p := probe) (by omega)
      have hprobe := (hstart probe).2 le_rfl
      have hbefore := hstart (h.startOfView (h.viewAt probe) - 1)
      obtain ⟨⟨hle, hview⟩, hgreatest⟩ := @ih (h.startOfView (h.viewAt probe) - 1) (by omega)
      refine ⟨⟨by omega, hview⟩, fun k hk => hgreatest ⟨?_, hk.2⟩⟩
      -- an index from the start of the view on is of a view that is too late
      have hk' := hstart k
      have := hk.2
      omega
    · exact ⟨⟨le_rfl, by omega⟩, fun k hk => hk.1⟩

theorem findHighestPossibleMatch_isGreatest {a : Aft} (h0 : a.state.viewHistory.viewAt 0 = 0) (view seqno : ℕ) :
    IsGreatest {k | k ≤ min seqno a.state.lastIdx ∧ a.state.viewHistory.viewAt k ≤ view}
      (a.findHighestPossibleMatch view seqno) :=
  probeMatch_isGreatest h0 view le_rfl

/-- The logs of two nodes are the same up to index `m`. -/
structure AgreeUpTo (a b : Aft) (m : ℕ) : Prop where
  le_left : m ≤ a.ledger.length
  le_right : m ≤ b.ledger.length
  same : a.ledger.take m = b.ledger.take m

section agree

variable {f l : Aft} {m k : ℕ} (hf : LogRecorded f) (hl : LogRecorded l) (h : AgreeUpTo f l m)
  {r : AppendEntries}

include hf hl h

theorem AgreeUpTo.viewAt_eq (hk : k ≤ m) : f.state.viewHistory.viewAt k = l.state.viewHistory.viewAt k := by
  have hleft := h.le_left
  have hright := h.le_right
  rw [hf.recorded.viewAt_eq k (by rw [length_map]; omega), hl.recorded.viewAt_eq k (by rw [length_map]; omega),
    ← viewOf_take hk, ← map_take, h.same, map_take, viewOf_take hk]

/-- An index at or behind `m` offers a match at or behind `m`, with any view that `m` is not later than. -/
theorem AgreeUpTo.le_match {view seqno : ℕ} (hseqno : m ≤ seqno) (hview : f.state.viewHistory.viewAt m ≤ view) :
    m ≤ f.findHighestPossibleMatch view seqno ∧ m ≤ l.findHighestPossibleMatch view seqno := by
  have hleft := h.le_left
  have hright := h.le_right
  have hsame := h.viewAt_eq hf hl le_rfl
  have hlast := hf.last_eq
  have hlast' := hl.last_eq
  exact ⟨(findHighestPossibleMatch_isGreatest (hf.recorded.viewAt_eq 0 (Nat.zero_le _)) view seqno).2
      ⟨by omega, hview⟩,
    (findHighestPossibleMatch_isGreatest (hl.recorded.viewAt_eq 0 (Nat.zero_le _)) view seqno).2 ⟨by omega, by omega⟩⟩

/-- The answer of a follower `f` that rejects a batch of the leader `l`. -/
theorem AgreeUpTo.nack (hprev : r.prevIdx ≤ l.state.lastIdx)
    (hterm : r.prevTerm = l.getTermInternal r.prevIdx) (hreject : f.getTermInternal r.prevIdx ≠ r.prevTerm)
    (hcurrent : f.state.viewHistory.viewAt f.state.lastIdx ≤ f.state.currentView) (draw : ℕ) (faults : ℕ → Fault)
    (src : NodeId) (data : List Entry) :
    ∃ answer : AppendEntriesResponse, f.checkAppendEntries draw faults src r data =
        .ok (f.send src (.appendEntriesResponse answer)) ∧ answer.success = false ∧ m ≤ answer.lastLogIdx ∧
      m ≤ l.findHighestPossibleMatch answer.term answer.lastLogIdx := by
  have hlast := hf.last_eq
  have hlen := h.le_left
  unfold checkAppendEntries
  split_ifs with hunknown
  · have hview := (f.state.viewHistory.viewAt_mono (hlen.trans_eq hlast.symm)).trans hcurrent
    have hm := hlen.trans_eq hlast.symm
    exact ⟨⟨f.state.currentView, f.state.lastIdx, false⟩, rfl, rfl, hm, (h.le_match hf hl hm hview).2⟩
  · -- the views differ at `prev_idx`, so it lies behind the agreement
    have hin : r.prevIdx ≤ f.state.lastIdx := by
      by_contra hbehind
      exact hunknown (if_pos (not_le.1 hbehind))
    rw [hterm, getTermInternal, getTermInternal, if_neg (not_lt.2 hin), if_neg (not_lt.2 hprev)] at hreject
    have hm : m ≤ r.prevIdx := by
      by_contra hlt
      exact hreject (h.viewAt_eq hf hl (not_le.1 hlt).le)
    have hview : f.state.viewHistory.viewAt m ≤ r.prevTerm := by
      rw [hterm, getTermInternal, if_neg (not_lt.2 hprev), h.viewAt_eq hf hl le_rfl]
      exact l.state.viewHistory.viewAt_mono hm
    have hanswer := (h.le_match hf hl hm hview).1
    have hbound :=
      (findHighestPossibleMatch_isGreatest (hf.recorded.viewAt_eq 0 (Nat.zero_le _)) r.prevTerm r.prevIdx).1.1
    refine ⟨⟨_, _, false⟩, rfl, rfl, hanswer, (h.le_match hf hl hanswer ?_).2⟩
    rw [getTermInternal, if_neg (by omega)]
    exact f.state.viewHistory.viewAt_mono hanswer

end agree

/-- **The estimate of a match is exact and safe**: it is the highest index up to `seqno` and the last one whose view
is not later than `view`, and neither the answer of a follower nor the new estimate of the leader is before the point
up to which their logs agree. -/
theorem findHighestPossibleMatch_correct :
    (∀ (a : Aft) (view seqno : ℕ), (∀ s ∈ a.state.viewHistory.views, 1 ≤ s) →
      IsGreatest {k | k ≤ min seqno a.state.lastIdx ∧ a.state.viewHistory.viewAt k ≤ view}
        (a.findHighestPossibleMatch view seqno) ∧
      ∀ fuel, a.state.viewHistory.viewAt (min seqno a.state.lastIdx) ≤ fuel →
        probeMatch a.state.viewHistory view fuel (min seqno a.state.lastIdx) = a.findHighestPossibleMatch view seqno) ∧
    ∀ (f l : Aft) (m : ℕ) (r : AppendEntries) (draw : ℕ) (faults : ℕ → Fault) (src : NodeId) (data : List Entry),
      LogRecorded f → LogRecorded l → AgreeUpTo f l m → r.prevIdx ≤ l.state.lastIdx →
      r.prevTerm = l.getTermInternal r.prevIdx → f.getTermInternal r.prevIdx ≠ r.prevTerm →
      f.state.viewHistory.viewAt f.state.lastIdx ≤ f.state.currentView →
      ∃ answer : AppendEntriesResponse, f.checkAppendEntries draw faults src r data =
          .ok (f.send src (.appendEntriesResponse answer)) ∧ answer.success = false ∧ m ≤ answer.lastLogIdx ∧
        m ≤ l.findHighestPossibleMatch answer.term answer.lastLogIdx := by
  refine ⟨fun a view seqno hpos => ?_, fun f l m r draw faults src data hf hl h hprev hterm hreject hcurrent =>
    h.nack hf hl hprev hterm hreject hcurrent draw faults src data⟩
  have h0 : a.state.viewHistory.viewAt 0 = 0 := by
    rw [viewAt_eq_countP, countP_eq_zero]
    intro s hs hle
    have := hpos s hs
    simp only [decide_eq_true_eq] at hle
    omega
  have hgreatest := findHighestPossibleMatch_isGreatest h0 view seqno
  exact ⟨hgreatest, fun fuel hfuel => (probeMatch_isGreatest h0 view hfuel).unique hgreatest⟩

/-- A node with a log of entries of the given views. -/
def withLog (views : List ℕ) (history : ViewHistory) : Aft :=
  { init 0 false 10 100 with
    ledger := views.map fun v => ⟨v, signatureTx⟩
    state := { (init 0 false 10 100).state with lastIdx := views.length, viewHistory := history, currentView := 4 } }

theorem findHighestPossibleMatch_correct_diverged :
    let follower := withLog [2, 3, 3] ⟨[1, 1, 2], by decide⟩
    let leader := withLog [2, 4] ⟨[1, 1, 2, 2], by decide⟩
    IsGreatest {k | k ≤ min 2 leader.state.lastIdx ∧ leader.state.viewHistory.viewAt k ≤ 3}
      (leader.findHighestPossibleMatch 3 2) ∧ AgreeUpTo follower leader 1 ∧ ∃ answer : AppendEntriesResponse,
      follower.checkAppendEntries 0 (fun _ => .none) 0 ⟨2, 2, 4, 4, 0, 4⟩ [] =
          .ok (follower.send 0 (.appendEntriesResponse answer)) ∧ answer.success = false ∧ 1 ≤ answer.lastLogIdx ∧
        1 ≤ leader.findHighestPossibleMatch answer.term answer.lastLogIdx := by
  intro follower leader
  have hagree : AgreeUpTo follower leader 1 := ⟨by decide, by decide, by decide⟩
  have hlog : LogRecorded follower := ⟨by decide, ⟨by decide, by decide⟩, by decide⟩
  have hlog' : LogRecorded leader := ⟨by decide, ⟨by decide, by decide⟩, by decide⟩
  exact ⟨(findHighestPossibleMatch_correct.1 leader 3 2 (by decide)).1, hagree,
    findHighestPossibleMatch_correct.2 follower leader 1 ⟨2, 2, 4, 4, 0, 4⟩ 0 (fun _ => .none) 0 [] hlog hlog'
    hagree (by decide) (by decide) (by decide) (by decide)⟩

end Aft
end Ccf
