import Ccf.Aft.Reconfiguration

/-! # The ranges of AppendEntries

`send_append_entries` cuts the log after a start index into messages. A message ends with the view of its first
entry, at the batch size or at the end of the log, whichever comes first. -/

namespace Ccf.Aft

open List ViewHistory

variable {a b : Aft} {dst : NodeId} {start i : ℕ}

/-- The log of a node whose entries are all of known views, which its view history has recorded. -/
structure LogRecorded (a : Aft) : Prop where
  last_eq : a.state.lastIdx = a.ledger.length
  recorded : Faithful a.state.viewHistory (a.ledger.map Entry.view)
  known : ∀ e ∈ a.ledger, 0 < e.view

theorem LogRecorded.viewAt_pos (h : LogRecorded a) (hlast : 0 < a.state.lastIdx) (hi : 1 ≤ i) :
    0 < a.state.viewHistory.viewAt i := by
  have hlen := h.last_eq ▸ hlast
  have hfirst : 0 < a.state.viewHistory.viewAt 1 := by
    rw [h.recorded.viewAt_eq 1 (by rwa [length_map]), viewOf_succ,
      getD_eq_getElem _ _ (by rwa [length_map]), getElem_map]
    exact h.known _ (getElem_mem hlen)
  exact hfirst.trans_le (a.state.viewHistory.viewAt_mono hi)

/-- A batch is of one view, is not larger than the batch size and ends in the log. -/
theorem calculateEndIndex_spec (h : LogRecorded a) (hbatch : 1 ≤ a.entriesBatchSize) (hpos : 1 ≤ start)
    (hstart : start ≤ a.state.lastIdx + 1) :
    start ≤ a.calculateEndIndex start + 1 ∧ a.calculateEndIndex start ≤ a.state.lastIdx ∧
      (start ≤ a.state.lastIdx → start ≤ a.calculateEndIndex start) ∧
      a.calculateEndIndex start < start + a.entriesBatchSize ∧ ∀ j, start ≤ j → j ≤ a.calculateEndIndex start →
        a.state.viewHistory.viewAt j = a.state.viewHistory.viewAt (a.calculateEndIndex start) := by
  have hlast := h.last_eq
  have hzero : a.state.viewHistory.viewAt 0 = 0 := h.recorded.viewAt_eq 0 (Nat.zero_le _)
  rcases Nat.eq_zero_or_pos a.state.lastIdx with hnil | hnonempty
  · -- an empty log has an empty view history
    have hlength := h.recorded.length_eq
    rw [length_map, ← hlast, hnil, viewOf_zero] at hlength
    have hview := a.state.viewHistory.viewAt_le_length start
    rw [hlength, Nat.le_zero] at hview
    have heq : a.calculateEndIndex start = 0 := by
      simp [calculateEndIndex, hview, endOfView, startOfView, invalidView, hnil]
    exact ⟨by omega, by omega, by omega, by omega, fun j hj hj' => by omega⟩
  rcases a.state.viewHistory.endOfView_viewAt hzero (h.viewAt_pos hnonempty hpos) with
    ⟨hzeroEnd, hlatest⟩ | ⟨hstartEnd, hnext, hsame⟩
  · -- the rest of the log is of the latest view
    have heq : a.calculateEndIndex start = min (start + a.entriesBatchSize - 1) a.state.lastIdx := by
      simp [calculateEndIndex, hzeroEnd]
    have hall : ∀ j, start ≤ j → a.state.viewHistory.viewAt j = a.state.viewHistory.views.length := fun j hj =>
      le_antisymm (a.state.viewHistory.viewAt_le_length j) (hlatest ▸ a.state.viewHistory.viewAt_mono hj)
    refine ⟨by omega, by omega, by omega, by omega, fun j hj hj' => ?_⟩
    rw [hall j hj, hall _ (by omega)]
  · have hbound := h.recorded.le_length _ hnext
    rw [length_map] at hbound
    have heq : a.calculateEndIndex start =
        min (start + a.entriesBatchSize - 1) (a.state.viewHistory.endOfView (a.state.viewHistory.viewAt start)) := by
      unfold calculateEndIndex
      dsimp only
      rw [if_pos (by omega)]
    refine ⟨by omega, by omega, by omega, by omega, fun j hj hj' => ?_⟩
    exact (hsame j hj (by omega)).trans (hsame _ (by omega) (by omega)).symm

/-! ### What is sent -/

/-- The entries of the range `(prev_idx, idx]` of a message. -/
def rangeOf (log : List Entry) (r : AppendEntries) : List Entry := (log.take r.idx).drop r.prevIdx

/-- The ranges cover the indices after `prev` up to `last`, one after the other. -/
def Covers (last : ℕ) : ℕ → List AppendEntries → Prop
  | prev, [] => prev = last
  | prev, r :: rs => r.prevIdx = prev ∧ prev < r.idx ∧ Covers last r.idx rs

/-- The messages `rs`, with their entries, are what `a` has sent to `dst` when it has become `b`. -/
structure Sent (a b : Aft) (dst : NodeId) (rs : List AppendEntries) : Prop where
  outbox : b.outbox = a.outbox ++ rs.map fun r => (dst, .appendEntries r (rangeOf a.ledger r))
  size : ∀ r ∈ rs, r.idx ≤ r.prevIdx + a.entriesBatchSize
  view : ∀ r ∈ rs, ∀ e ∈ rangeOf a.ledger r, e.view = r.termOfIdx

/-- What sending relies on. -/
structure Sending (a : Aft) (dst : NodeId) : Prop extends LogRecorded a where
  batch : 1 ≤ a.entriesBatchSize
  active : ¬a.isRetiredCommitted
  dst_known : dst ∈ Assoc.keys a.allOtherNodes

namespace Sending

theorem range (h : Sending a dst) (start idx : ℕ) : Sending (a.sendAppendEntriesRange dst start idx) dst := by
  have ht := talks_sendAppendEntriesRange a dst start idx
  exact ⟨⟨by rw [ht.state_eq, ht.ledger_eq]; exact h.last_eq, by rw [ht.state_eq, ht.ledger_eq]; exact h.recorded,
    by rw [ht.ledger_eq]; exact h.known⟩, ht.entriesBatchSize_eq ▸ h.batch,
    by unfold isRetiredCommitted; rw [ht.state_eq]; exact h.active,
    by rw [keys_sendAppendEntriesRange]; exact h.dst_known⟩

/-- One message of the loop. -/
theorem sent_range (h : Sending a dst) (hpos : 1 ≤ start) (hstart : start ≤ a.state.lastIdx + 1) :
    ∃ r : AppendEntries, r.prevIdx = start - 1 ∧ r.idx = a.calculateEndIndex start ∧
      Sent a (a.sendAppendEntriesRange dst start (a.calculateEndIndex start)) dst [r] := by
  obtain ⟨hfrom, hto, -, hsize, hone⟩ := calculateEndIndex_spec h.toLogRecorded h.batch hpos hstart
  generalize a.calculateEndIndex start = idx at hfrom hto hsize hone
  refine ⟨⟨idx, start - 1, a.state.currentView, a.getTermInternal (start - 1), a.state.commitIdx,
    a.getTermInternal idx⟩, rfl, rfl, ⟨?_, ?_, ?_⟩⟩
  · unfold sendAppendEntriesRange
    rw [if_neg fun hretired => h.active hretired.1, if_pos (Assoc.lookup_isSome_iff.2 h.dst_known)]
    rfl
  · intro r hr
    obtain rfl := mem_singleton.1 hr
    show idx ≤ start - 1 + a.entriesBatchSize
    omega
  · intro r hr e he
    obtain rfl := mem_singleton.1 hr
    obtain ⟨k, hk, rfl⟩ := getElem_of_mem he
    simp only [rangeOf, length_drop, length_take] at hk
    simp only [rangeOf, getElem_drop, getElem_take, getTermInternal, if_neg (not_lt.2 hto)]
    rw [← hone (start - 1 + k + 1) (by omega) (by omega), h.recorded.viewAt_eq _ (by rw [length_map]; omega),
      viewOf_succ, getD_eq_getElem _ _ (by rw [length_map]; omega), getElem_map]

/-- With enough fuel the loop ends by its own condition. -/
theorem loop_enough (fuel fuel' : ℕ) (h : Sending a dst) (hpos : 1 ≤ start)
    (hstart : start ≤ a.state.lastIdx + 1) (henough : a.state.lastIdx + 2 ≤ start + fuel)
    (henough' : a.state.lastIdx + 2 ≤ start + fuel') :
    sendAppendEntriesLoop fuel a dst start = sendAppendEntriesLoop fuel' a dst start := by
  induction fuel generalizing fuel' a start with
  | zero => omega
  | succ fuel ih =>
    obtain ⟨fuel', rfl⟩ : ∃ n, fuel' = n + 1 := ⟨fuel' - 1, by omega⟩
    obtain ⟨hfrom, hto, hnext, -, -⟩ := calculateEndIndex_spec h.toLogRecorded h.batch hpos hstart
    have hstate := (talks_sendAppendEntriesRange a dst start (a.calculateEndIndex start)).state_eq
    unfold sendAppendEntriesLoop
    dsimp only
    split_ifs with hmore
    · exact ih fuel' (h.range _ _) (by omega) (by rw [hstate]; omega) (by rw [hstate]; omega) (by rw [hstate]; omega)
    · rfl

theorem loop_sent (fuel : ℕ) (h : Sending a dst) (hpos : 1 ≤ start) (hstart : start ≤ a.state.lastIdx)
    (henough : a.state.lastIdx + 1 ≤ start + fuel) :
    ∃ rs, Sent a (sendAppendEntriesLoop fuel a dst start) dst rs ∧ Covers a.state.lastIdx (start - 1) rs := by
  induction fuel generalizing a start with
  | zero => omega
  | succ fuel ih =>
    obtain ⟨-, hto, hnext, -, -⟩ := calculateEndIndex_spec h.toLogRecorded h.batch hpos (Nat.le_succ_of_le hstart)
    obtain ⟨r, hprev, hidx, hone⟩ := h.sent_range hpos (Nat.le_succ_of_le hstart)
    have ht := talks_sendAppendEntriesRange a dst start (a.calculateEndIndex start)
    have hstate := ht.state_eq
    unfold sendAppendEntriesLoop
    dsimp only
    split_ifs with hmore
    · obtain ⟨rs, hsent, hcovers⟩ := @ih _ (min (a.calculateEndIndex start + 1) a.state.lastIdx)
        (h.range start (a.calculateEndIndex start)) (by omega) (by rw [hstate]; omega) (by rw [hstate]; omega)
      refine ⟨r :: rs, ⟨?_, forall_mem_cons.2 ⟨hone.size r (by simp), fun s hs => ?_⟩,
        forall_mem_cons.2 ⟨hone.view r (by simp), fun s hs => ?_⟩⟩, hprev, by omega, ?_⟩
      · rw [hsent.outbox, hone.outbox, ht.ledger_eq, append_assoc]
        rfl
      · exact (hsent.size s hs).trans_eq (congrArg _ ht.entriesBatchSize_eq)
      · rw [← ht.ledger_eq]
        exact hsent.view s hs
      · rw [hidx]
        rwa [hstate, min_eq_left (by omega), Nat.add_sub_cancel] at hcovers
    · exact ⟨[r], hone, hprev, by omega, by rw [hidx]; exact not_not.1 hmore⟩

end Sending

/-- **AppendEntries ranges partition the log**: they follow one another from the start index to the last one, each of
one view and of at most the batch size; from behind the last index a single empty range is sent. -/
theorem sendAppendEntries_ranges (a : Aft) (dst : NodeId) (start : ℕ) (hlead : a.isLeader) (hidle : Idle a)
    (hlog : LogRecorded a) (hbatch : 1 ≤ a.entriesBatchSize) (hdst : dst ∈ Assoc.keys a.allOtherNodes)
    (hpos : 1 ≤ start)
    (hstart : start ≤ a.state.lastIdx + 1) :
    (∀ fuel, a.state.lastIdx + 2 ≤ start + fuel →
      sendAppendEntriesLoop fuel a dst start = a.sendAppendEntries dst start) ∧
    ∃ rs, Sent a (a.sendAppendEntries dst start) dst rs ∧
      (start ≤ a.state.lastIdx → Covers a.state.lastIdx (start - 1) rs) ∧
      (start = a.state.lastIdx + 1 → ∃ r, rs = [r] ∧ r.prevIdx = a.state.lastIdx ∧ r.idx = a.state.lastIdx) := by
  have h : Sending a dst := ⟨hlog, hbatch, fun hretired => ?_, hdst⟩
  · refine ⟨fun fuel henough => h.loop_enough fuel _ hpos hstart henough (by omega), ?_⟩
    rcases lt_or_ge a.state.lastIdx start with hend | hin
    · obtain ⟨hfrom, hto, -, -, -⟩ := calculateEndIndex_spec hlog hbatch hpos hstart
      obtain ⟨r, hprev, hidx, hone⟩ := h.sent_range hpos hstart
      have hidx' : a.calculateEndIndex start = a.state.lastIdx := by omega
      refine ⟨[r], ?_, fun hin => by omega, fun _ => ⟨r, rfl, by omega, by omega⟩⟩
      unfold sendAppendEntries sendAppendEntriesLoop
      rwa [if_neg (not_not.2 hidx')]
    · obtain ⟨rs, hsent, hcovers⟩ := h.loop_sent (a.state.lastIdx + 2) hpos hin (by omega)
      exact ⟨rs, hsent, fun _ => hcovers, fun hend => by omega⟩
  · have hstopped := hidle hretired
    rw [show a.state.leadershipState = .leader from hlead] at hstopped
    rcases hstopped with hstopped | hstopped <;> cases hstopped

theorem sendAppendEntries_ranges_retiring :
    let a := { Runs.exec step (init 0 false 10 100) (retiringRun.take 3) with entriesBatchSize := 3 }
    ∃ rs, Sent a (a.sendAppendEntries 1 1) 1 rs ∧ (1 ≤ a.state.lastIdx → Covers a.state.lastIdx 0 rs) := by
  intro a
  obtain ⟨rs, hsent, hcovers, -⟩ := (sendAppendEntries_ranges a 1 1 (by decide +kernel) (by unfold Idle; decide +kernel)
    ⟨by decide +kernel, ⟨by decide +kernel, by decide +kernel⟩, by decide +kernel⟩ (by decide +kernel)
    (by decide +kernel)
    (by decide) (by decide)).2
  exact ⟨rs, hsent, hcovers⟩

end Ccf.Aft
