import Ccf.Aft.Node

/-! # The first pass over a batch

`scanEntries` skips the entries `prev_idx + 1 .. k` that the log already has in the view of the batch, and then either
stops, or goes on from a state `b` that is the node itself or the node with its log cut at the conflicting entry `k +
1`. From there on every entry is new and is collected unless one cannot be read (`scanEntries_cases`). -/

namespace Ccf.Aft

variable {faults : ℕ → Fault} {source : NodeId} {t idx n i : ℕ} {a : Aft}

theorem scanEntries_succ (a : Aft) (n i : ℕ) (data : List Entry) (acc : List (Entry × ℕ)) :
    scanEntries faults source t (n + 1) i data acc a =
      if i ≤ a.state.lastIdx ∧ t = a.state.viewHistory.viewAt i then
        match data with
        | [] => .stop (.raised .insufficientData a)
        | _ :: rest => scanEntries faults source t n (i + 1) rest acc a
      else if i ≤ a.state.lastIdx ∧ a.isNewFollower = false then .stop (.ok a)
      else
        match extractEntry faults i data with
        | none =>
          .stop (.ok ((if i ≤ a.state.lastIdx then a.cutAt (i - 1) else a).sendAppendEntriesResponseNack source))
        | some (e, rest) =>
          scanEntries faults source t n (i + 1) rest (acc ++ [(e, i)])
            (if i ≤ a.state.lastIdx then a.cutAt (i - 1) else a) := rfl

/-- Past the end of the log all entries of the batch are collected, unless one of them is unreadable. -/
theorem scanEntries_of_lt (hi : a.state.lastIdx < i) (data : List Entry) (acc : List (Entry × ℕ)) :
    (scanEntries faults source t n i data acc a = .apply a (acc ++ (data.take n).zipIdx i) ∧ n ≤ data.length) ∨
      scanEntries faults source t n i data acc a = .stop (.ok (a.sendAppendEntriesResponseNack source)) := by
  induction n generalizing i data acc with
  | zero => exact .inl (by simp [scanEntries])
  | succ n ih =>
    rw [scanEntries_succ, if_neg (by omega), if_neg (by omega), if_neg (not_le.2 hi)]
    cases data with
    | nil => exact .inr rfl
    | cons e rest =>
      simp only [extractEntry]
      split_ifs
      · exact .inr rfl
      · rcases ih (i := i + 1) (by omega) rest (acc ++ [(e, i)]) with ⟨hcollect, hlen⟩ | hstop
        · exact .inl ⟨by simp [hcollect], by simpa using hlen⟩
        · exact .inr hstop

theorem rollbackConfigurations_state (a : Aft) (idx : ℕ) : (a.rollbackConfigurations idx).state = a.state := by
  unfold rollbackConfigurations
  dsimp only
  split_ifs
  · exact (talks_createAndRemoveNodeState _).state_eq
  · rfl

theorem rollbackRetirement_lastIdx (s : State) (idx : ℕ) : (rollbackRetirement s idx).lastIdx = s.lastIdx := by
  unfold rollbackRetirement
  dsimp only
  split_ifs <;> (repeat' split) <;> rfl

theorem rollback_lastIdx (h : a.state.commitIdx ≤ idx) : (a.rollback idx).state.lastIdx = idx := by
  unfold rollback
  rw [if_neg (by omega), rollbackConfigurations_state, rollbackRetirement_lastIdx]

theorem cutAt_lastIdx {k : ℕ} (h : a.state.commitIdx ≤ k) : (a.cutAt k).state.lastIdx = k :=
  rollback_lastIdx h

/-- The state from which the new entries of a batch are taken, when the entries up to `k` are skipped. -/
inductive ScanBase (a : Aft) (t idx k : ℕ) : Aft → Prop
  | keep (h : k = a.state.lastIdx ∨ idx ≤ k) : ScanBase a t idx k a
  | cut (hlast : k < a.state.lastIdx) (hidx : k < idx) (hview : a.state.viewHistory.viewAt (k + 1) ≠ t)
      (hnew : a.isNewFollower = true) : ScanBase a t idx k (a.cutAt k)

/-- The ways the first pass over a batch can end. -/
inductive Scanned (faults : ℕ → Fault) (source : NodeId) (t : ℕ) (a : Aft) (prev idx : ℕ) (data : List Entry) :
    Scan → Prop
  | short : Scanned faults source t a prev idx data (.stop (.raised .insufficientData a))
  | ignored : Scanned faults source t a prev idx data (.stop (.ok a))
  | unreadable {k : ℕ} {b : Aft} (hprev : prev ≤ k) (hlast : k ≤ a.state.lastIdx) (hmax : k ≤ max prev idx)
      (hskip : ∀ j, prev < j → j ≤ k → a.state.viewHistory.viewAt j = t) (hbase : ScanBase a t idx k b) :
      Scanned faults source t a prev idx data (.stop (.ok (b.sendAppendEntriesResponseNack source)))
  | collected {k : ℕ} {b : Aft} (hprev : prev ≤ k) (hlast : k ≤ a.state.lastIdx) (hmax : k ≤ max prev idx)
      (hskip : ∀ j, prev < j → j ≤ k → a.state.viewHistory.viewAt j = t)
      (hbase : ScanBase a t idx k b) (hlen : idx - k ≤ (data.drop (k - prev)).length) :
      Scanned faults source t a prev idx data
        (.apply b (((data.drop (k - prev)).take (idx - k)).zipIdx (k + 1)))

/-- A conflict after `k` is followed by the collection of the rest of the batch from the cut state. -/
theorem scanEntries_conflict {k : ℕ} (hcommit : a.state.commitIdx ≤ k) (hlast : k < a.state.lastIdx)
    (hview : a.state.viewHistory.viewAt (k + 1) ≠ t) (hnew : a.isNewFollower = true) (data : List Entry) :
    scanEntries faults source t (n + 1) (k + 1) data [] a =
      scanEntries faults source t (n + 1) (k + 1) data [] (a.cutAt k) := by
  have hcut := cutAt_lastIdx hcommit
  rw [scanEntries_succ, if_neg (fun h => hview h.2.symm), if_neg (by simp [hnew]), if_pos (by omega)]
  rw [scanEntries_succ, if_neg (by rw [hcut]; omega), if_neg (by rw [hcut]; omega), if_neg (by rw [hcut]; omega),
    Nat.add_sub_cancel]

/-- **The first pass over a batch.** -/
theorem scanned {prev : ℕ} (hcommit : a.state.commitIdx ≤ prev) (hprev : prev ≤ a.state.lastIdx)
    (data : List Entry) :
    Scanned faults source t a prev idx data
      (scanEntries faults source t (idx - prev) (prev + 1) data [] a) := by
  -- induction on the number of entries left, the ones before `k + 1` having been skipped
  suffices main : ∀ n k, prev ≤ k → k ≤ a.state.lastIdx → n = idx - k → k ≤ max prev idx →
      (∀ j, prev < j → j ≤ k → a.state.viewHistory.viewAt j = t) →
      Scanned faults source t a prev idx data
        (scanEntries faults source t n (k + 1) (data.drop (k - prev)) [] a) by
    have := main (idx - prev) prev le_rfl hprev rfl (le_max_left _ _) (fun j hj hj' => by omega)
    simpa using this
  intro n
  induction n with
  | zero =>
    intro k hk hlast hn hmax hskip
    have hall : scanEntries faults source t 0 (k + 1) (data.drop (k - prev)) [] a =
        .apply a (((data.drop (k - prev)).take (idx - k)).zipIdx (k + 1)) := by
      rw [← hn]
      simp [scanEntries]
    rw [hall]
    exact .collected hk hlast hmax hskip (.keep (Or.inr (by omega))) (by omega)
  | succ n ih =>
    intro k hk hlast hn hmax hskip
    have hfrom : ∀ b, ScanBase a t idx k b → b.state.lastIdx < k + 1 → Scanned faults source t a prev idx data
        (scanEntries faults source t (n + 1) (k + 1) (data.drop (k - prev)) [] b) := by
      intro b hbase hb
      rcases scanEntries_of_lt hb (data.drop (k - prev)) [] with ⟨hcollect, hlen⟩ | hstop
      · rw [hcollect, hn, List.nil_append]
        exact .collected hk hlast hmax hskip hbase (by omega)
      · rw [hstop]
        exact .unreadable hk hlast hmax hskip hbase
    rcases lt_or_ge k a.state.lastIdx with hlt | hge
    · by_cases hview : a.state.viewHistory.viewAt (k + 1) = t
      · rw [scanEntries_succ, if_pos ⟨hlt, hview.symm⟩]
        rcases hdata : data.drop (k - prev) with _ | ⟨e, rest⟩
        · exact .short
        · have hrest : rest = data.drop (k + 1 - prev) := by
            rw [show k + 1 - prev = k - prev + 1 by omega, ← List.drop_drop, hdata]
            rfl
          rw [hrest]
          refine ih (k + 1) (by omega) hlt (by omega) (by omega) ?_
          intro j hj hj'
          rcases lt_or_ge k j with hkj | hjk
          · rw [show j = k + 1 by omega]
            exact hview
          · exact hskip j hj hjk
      · cases hnew : a.isNewFollower with
        | false =>
          rw [scanEntries_succ, if_neg (fun h => hview h.2.symm), if_pos ⟨hlt, hnew⟩]
          exact .ignored
        | true =>
          rw [scanEntries_conflict (hcommit.trans hk) hlt hview hnew]
          exact hfrom _ (.cut hlt (by omega) hview hnew) (by rw [cutAt_lastIdx (hcommit.trans hk)]; omega)
    · exact hfrom a (.keep (Or.inl (by omega))) (by omega)

end Ccf.Aft
