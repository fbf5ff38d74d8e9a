import Ccf.Aft.Types

/-! # The status of a transaction (`include/ccf/tx_status.h`) -/

namespace Ccf

inductive TxStatus where
  | unknown
  | pending
  | committed
  | invalid
deriving DecidableEq, Repr

/-- `ccf::evaluate_tx_status`; the error is the `std::logic_error` it throws. -/
def evaluateTxStatus (targetView targetSeqno localView committedView committedSeqno : ℕ) : Except String TxStatus :=
  let isCommitted := committedSeqno ≥ targetSeqno
  let viewsMatch := localView = targetView
  let viewKnown := localView ≠ viewUnknown
  if isCommitted ∧ ¬viewKnown then
    .error (s!"Should know local view for seqnos up to {committedSeqno}, but have no view for {targetSeqno}")
  else if isCommitted then
    if viewsMatch then .ok .committed else .ok .invalid
  else if viewsMatch then .ok .pending
  else if committedView > targetView then .ok .invalid
  else .ok .unknown

variable {targetView targetSeqno localView committedView committedSeqno : ℕ}

theorem evaluateTxStatus_committed (hle : targetSeqno ≤ committedSeqno) (hknown : localView ≠ viewUnknown) :
    evaluateTxStatus targetView targetSeqno localView committedView committedSeqno =
      .ok (if localView = targetView then .committed else .invalid) := by
  unfold evaluateTxStatus
  rw [if_neg fun h => h.2 hknown, if_pos hle]
  split_ifs <;> rfl

theorem evaluateTxStatus_ahead (hlt : committedSeqno < targetSeqno) :
    evaluateTxStatus targetView targetSeqno localView committedView committedSeqno =
      .ok (if localView = targetView then .pending else if committedView > targetView then .invalid else .unknown) := by
  unfold evaluateTxStatus
  rw [if_neg fun h => absurd h.1 (by omega), if_neg (by omega)]
  split_ifs <;> rfl

end Ccf
