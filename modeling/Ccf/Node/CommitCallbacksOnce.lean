import Ccf.Lib.Assoc
import Ccf.Node.CommitCallbacks

/-! # Commit callbacks are invoked once

Commit points do not go back and view histories agree on what has been committed (`Extends`). If a trigger leaves no
callback behind that its commit point already invalidates, knows the views of all callbacks it reaches, and these do
not throw (`Settles`), every callback is invoked exactly once.

A callback for a seqno beyond the commit point is never looked at by a trigger, although the commit of a later view has
made its transaction invalid (`not_prompt_superseded`). -/

namespace Ccf.Node.CommitCallbacks

open CommitCallbackSubsystem List

open Kv (TxID)

/-! ### The status against a commit point -/

variable {txId committed : TxID} {viewHistory : ViewHistory}

theorem settled_of_le (hle : txId.seqno ≤ committed.seqno) (hknown : viewHistory.viewAt txId.seqno ≠ 0) :
    settled txId committed viewHistory =
      some (if viewHistory.viewAt txId.seqno = txId.view then .committed else .invalid) := by
  rw [settled, evaluate, evaluateTxStatus_committed hle hknown]
  split_ifs <;> rfl

theorem settled_of_unknown (hle : txId.seqno ≤ committed.seqno) (hunknown : viewHistory.viewAt txId.seqno = 0) :
    settled txId committed viewHistory = none := by
  simp [settled, evaluate, evaluateTxStatus, hle, hunknown, viewUnknown]

/-- Beyond the commit point only the commit of a later view settles a transaction. -/
theorem settled_of_lt (hlt : committed.seqno < txId.seqno)
    (hview : committed.view = viewHistory.viewAt committed.seqno) :
    settled txId committed viewHistory = if txId.view < committed.view then some .invalid else none := by
  have hmono := viewHistory.viewAt_mono hlt.le
  rw [settled, evaluate, evaluateTxStatus_ahead hlt]
  by_cases hmatch : viewHistory.viewAt txId.seqno = txId.view
  · rw [if_pos hmatch, if_neg (by omega)]
    rfl
  · split_ifs <;> rfl

theorem evaluate_error_iff : (∃ e, evaluate txId committed viewHistory = .error e) ↔
    txId.seqno ≤ committed.seqno ∧ viewHistory.viewAt txId.seqno = 0 := by
  by_cases hle : txId.seqno ≤ committed.seqno
  · by_cases hknown : viewHistory.viewAt txId.seqno = 0
    · simp [evaluate, evaluateTxStatus, hle, hknown, viewUnknown]
    · simp [evaluate, evaluateTxStatus_committed hle hknown, hknown]
  · simp [evaluate, evaluateTxStatus_ahead (not_le.1 hle), hle]

/-! ### The map -/

/-- The keys are in order, callbacks are filed under their sequence numbers, and none has been moved out. -/
structure Filed (l : List (ℕ × Callbacks)) : Prop where
  sorted : l.Pairwise fun p q => p.1 < q.1
  filed : ∀ p ∈ l, ∀ c ∈ p.2, c.1.seqno = p.1 ∧ c.2.isSome

/-- The callbacks of the map, in order. -/
def callbacksOf (l : List (ℕ × Callbacks)) : List (TxID × CommitCallback) :=
  (l.flatMap Prod.snd).filterMap fun p => p.2.map (p.1, ·)

variable {seqno : ℕ} {x : TxID × Option CommitCallback} {l : List (ℕ × Callbacks)} {p : ℕ × Callbacks}
  {c : Kv.TxID × CommitCallback}

theorem filed_nil : Filed [] := ⟨List.Pairwise.nil, by simp⟩

theorem Filed.tail (h : Filed (p :: l)) : Filed l :=
  ⟨(pairwise_cons.1 h.sorted).2, fun q hq => h.filed q (mem_cons_of_mem _ hq)⟩

theorem Filed.filter (h : Filed l) (q : ℕ × Callbacks → Bool) : Filed (l.filter q) :=
  ⟨h.sorted.sublist filter_sublist, fun p hp => h.filed p (mem_of_mem_filter hp)⟩

theorem mem_callbacksOf : c ∈ callbacksOf l ↔ ∃ p ∈ l, (c.1, some c.2) ∈ p.2 := by
  simp only [callbacksOf, mem_filterMap, mem_flatMap, Option.map_eq_some_iff]
  constructor
  · rintro ⟨⟨txId, callback⟩, ⟨p, hp, hmem⟩, a, ha, rfl⟩
    exact ⟨p, hp, by rw [← ha]; exact hmem⟩
  · rintro ⟨p, hp, hmem⟩
    exact ⟨_, ⟨p, hp, hmem⟩, c.2, rfl, rfl⟩

theorem callbacksOf_append (l l' : List (ℕ × Callbacks)) : callbacksOf (l ++ l') = callbacksOf l ++ callbacksOf l' := by
  simp [callbacksOf, flatMap_append]

theorem callbacksOf_cons (p : ℕ × Callbacks) (l : List (ℕ × Callbacks)) :
    callbacksOf (p :: l) = callbacksOf [p] ++ callbacksOf l :=
  callbacksOf_append [p] l

/-- The callbacks under some of the keys are those with these sequence numbers. -/
theorem Filed.callbacksOf_filter (h : Filed l) (q : ℕ → Bool) :
    callbacksOf (l.filter fun p => q p.1) = (callbacksOf l).filter fun c => q c.1.seqno := by
  induction l with
  | nil => rfl
  | cons p l ih =>
    have hp : ∀ c ∈ callbacksOf [p], c.1.seqno = p.1 := by
      intro c hc
      obtain ⟨q, hq, hmem⟩ := mem_callbacksOf.1 hc
      obtain rfl := mem_singleton.1 hq
      exact (h.filed q mem_cons_self _ hmem).1
    rw [callbacksOf_cons, filter_append, ← ih h.tail, filter_cons]
    split_ifs with hq
    · have hall : (callbacksOf [p]).filter (fun c => q c.1.seqno) = callbacksOf [p] :=
        filter_eq_self.2 fun c hc => by rw [hp c hc, hq]
      rw [hall, callbacksOf_cons]
    · have hnone : (callbacksOf [p]).filter (fun c => q c.1.seqno) = [] :=
        filter_eq_nil_iff.2 fun c hc => by rw [hp c hc]; exact hq
      rw [hnone, nil_append]

theorem emplace_eq (seqno : ℕ) (x : TxID × Option CommitCallback) (l : List (ℕ × Callbacks)) :
    emplace seqno x l = Assoc.upsert seqno (· ++ [x]) [] l := by
  induction l with
  | nil => rfl
  | cons p l ih => rw [emplace, Assoc.upsert, ih]; rfl

theorem Filed.emplace (h : Filed l) (hx : x.1.seqno = seqno ∧ x.2.isSome) : Filed (emplace seqno x l) := by
  rw [emplace_eq]
  refine ⟨Assoc.sorted_upsert h.sorted, fun p hp c hc => ?_⟩
  have hnew : ∀ p : ℕ × Callbacks, p.1 = seqno → c ∈ [x] → c.1.seqno = p.1 ∧ c.2.isSome := by
    rintro p hkey hc
    rw [mem_singleton.1 hc, hkey]
    exact hx
  rcases Assoc.mem_upsert h.sorted hp with ⟨-, hp⟩ | ⟨hkey, hempty | ⟨callbacks, hold, heq⟩⟩
  · exact h.filed p hp c hc
  · rw [hempty] at hc
    exact hnew p hkey hc
  · rw [heq] at hc
    rcases mem_append.1 hc with hc | hc
    · rw [hkey]
      exact h.filed _ hold c hc
    · exact hnew p hkey hc

theorem callbacksOf_emplace (txId : TxID) (callback : CommitCallback) (l : List (ℕ × Callbacks)) :
    (callbacksOf (emplace txId.seqno (txId, some callback) l)).Perm (callbacksOf l ++ [(txId, callback)]) := by
  induction l with
  | nil => exact .refl _
  | cons q l ih =>
    unfold emplace
    split_ifs
    · exact (perm_append_singleton _ _).symm
    · rw [callbacksOf_cons, callbacksOf_cons q]
      have hq : callbacksOf [(q.1, q.2 ++ [(txId, some callback)])] = callbacksOf [q] ++ [(txId, callback)] := by
        simp [callbacksOf]
      rw [hq, append_assoc, append_assoc]
      exact .append_left _ perm_append_comm
    · rw [callbacksOf_cons, callbacksOf_cons q l, append_assoc]
      exact .append_left _ ih

/-! ### The scan of a trigger -/

/-- The status of a transaction that is within the commit point. -/
def verdict (viewHistory : ViewHistory) (txId : TxID) : FinalTxStatus :=
  if viewHistory.viewAt txId.seqno = txId.view then .committed else .invalid

variable {callbacks : Callbacks}

theorem collectCallbacks_known (h : ∀ c ∈ callbacks, c.1.seqno ≤ committed.seqno ∧ viewHistory.viewAt c.1.seqno ≠ 0) :
    collectCallbacks committed viewHistory callbacks =
      (callbacks.map fun c => (c.1, verdict viewHistory c.1, c.2), callbacks.map fun c => (c.1, none), true) := by
  induction callbacks with
  | nil => rfl
  | cons c callbacks ih =>
    obtain ⟨hle, hknown⟩ := h c mem_cons_self
    simp only [collectCallbacks, settled_of_le hle hknown, ih fun c hc => h c (mem_cons_of_mem _ hc)]
    rfl

theorem collectCallbacks_unknown
    (h : ∀ c ∈ callbacks, c.1.seqno ≤ committed.seqno ∧ viewHistory.viewAt c.1.seqno = 0) :
    collectCallbacks committed viewHistory callbacks = ([], callbacks, callbacks.isEmpty) := by
  cases callbacks with
  | nil => rfl
  | cons c callbacks =>
    obtain ⟨hle, hunknown⟩ := h c mem_cons_self
    simp only [collectCallbacks, settled_of_unknown hle hunknown]
    rfl

/-- The callbacks that a trigger at this commit point takes out of the map. -/
def reached (committed : TxID) (l : List (ℕ × Callbacks)) : List (ℕ × Callbacks) :=
  l.filter (·.1 ≤ committed.seqno)

/-- The callbacks that it leaves. -/
def beyond (committed : TxID) (l : List (ℕ × Callbacks)) : List (ℕ × Callbacks) :=
  l.filter fun p => !decide (p.1 ≤ committed.seqno)

/-- If the views of all the transactions within the commit point are known, the scan runs to its end. -/
theorem collect_known (h : Filed l)
    (hknown : ∀ c ∈ callbacksOf l, c.1.seqno ≤ committed.seqno → viewHistory.viewAt c.1.seqno ≠ 0) :
    collect committed viewHistory l =
      (((reached committed l).flatMap Prod.snd).map fun c => (c.1, verdict viewHistory c.1, c.2),
        beyond committed l, true) := by
  induction l with
  | nil => rfl
  | cons p l ih =>
    obtain ⟨seqno, callbacks⟩ := p
    by_cases hlt : seqno > committed.seqno
    · -- the keys that follow are greater still
      have hrest : ∀ q ∈ (seqno, callbacks) :: l, ¬q.1 ≤ committed.seqno := by
        intro q hq
        rcases mem_cons.1 hq with rfl | hq
        · exact not_le.2 hlt
        · have hlt' := (pairwise_cons.1 h.sorted).1 q hq
          exact not_le.2 (hlt.trans hlt')
      have hreached : reached committed ((seqno, callbacks) :: l) = [] :=
        filter_eq_nil_iff.2 fun q hq => by simpa using hrest q hq
      have hbeyond : beyond committed ((seqno, callbacks) :: l) = (seqno, callbacks) :: l :=
        filter_eq_self.2 fun q hq => by simpa using hrest q hq
      rw [hreached, hbeyond]
      simp [collect, hlt]
    · have hle : seqno ≤ committed.seqno := not_lt.1 hlt
      have hcallbacks : ∀ c ∈ callbacks, c.1.seqno ≤ committed.seqno ∧ viewHistory.viewAt c.1.seqno ≠ 0 := by
        intro c hc
        obtain ⟨hkey, hsome⟩ := h.filed _ mem_cons_self c hc
        obtain ⟨callback, hcallback⟩ := Option.isSome_iff_exists.1 hsome
        have hle' : c.1.seqno ≤ committed.seqno := hkey ▸ hle
        exact ⟨hle', hknown (c.1, callback)
          (mem_callbacksOf.2 ⟨_, mem_cons_self, by rw [← hcallback]; exact hc⟩) hle'⟩
      have hl := ih h.tail fun c hc => hknown c (by
        rw [callbacksOf_cons]
        exact mem_append_right _ hc)
      simp [collect, hlt, collectCallbacks_known hcallbacks, hl, reached, beyond, hle]

/-- A scan that throws does so at the first callback it meets, since earlier views are not known either. -/
theorem collect_throws (h : Filed l) (hfail : (collect committed viewHistory l).2.2 = false) :
    callbacksOf (collect committed viewHistory l).2.1 = callbacksOf l := by
  induction l with
  | nil => rfl
  | cons p l ih =>
    obtain ⟨seqno, callbacks⟩ := p
    have hkeys : ∀ c ∈ callbacks, c.1.seqno = seqno := fun c hc => (h.filed _ mem_cons_self c hc).1
    by_cases hlt : seqno > committed.seqno
    · simp [collect, hlt] at hfail
    · by_cases hview : viewHistory.viewAt seqno = 0
      · have hcollect : collectCallbacks committed viewHistory callbacks = ([], callbacks, callbacks.isEmpty) :=
          collectCallbacks_unknown fun c hc => ⟨hkeys c hc ▸ not_lt.1 hlt, (hkeys c hc).symm ▸ hview⟩
        cases callbacks with
        | nil =>
          simp only [collect, if_neg hlt, hcollect, isEmpty_nil] at hfail ⊢
          exact ih h.tail hfail
        | cons c callbacks => simp only [collect, if_neg hlt, hcollect, isEmpty_cons]
      · have hknown : ∀ c ∈ callbacksOf ((seqno, callbacks) :: l),
            c.1.seqno ≤ committed.seqno → viewHistory.viewAt c.1.seqno ≠ 0 := by
          intro c hc _
          obtain ⟨q, hq, hmem⟩ := mem_callbacksOf.1 hc
          have hle : seqno ≤ c.1.seqno := by
            rw [(h.filed q hq _ hmem).1]
            rcases mem_cons.1 hq with rfl | hq
            · exact le_rfl
            · exact ((pairwise_cons.1 h.sorted).1 q hq).le
          have hmono := viewHistory.viewAt_mono hle
          omega
        rw [collect_known h hknown] at hfail
        cases hfail

theorem invokeAll_known (viewHistory : ViewHistory) (hsome : ∀ c ∈ callbacks, c.2.isSome)
    (hquiet : ∀ c ∈ callbacks, ∀ callback ∈ c.2, callback.throws = false) :
    invokeAll (callbacks.map fun c => (c.1, verdict viewHistory c.1, c.2)) =
      (callbacks.filterMap fun c => c.2.map (c.1, ·)).map fun c => ⟨c.1, verdict viewHistory c.1, c.2⟩ := by
  induction callbacks with
  | nil => rfl
  | cons c callbacks ih =>
    obtain ⟨txId, callback⟩ := c
    have hrest := ih (fun c hc => hsome c (mem_cons_of_mem _ hc)) fun c hc => hquiet c (mem_cons_of_mem _ hc)
    cases callback with
    | none => cases hsome _ mem_cons_self
    | some callback =>
      have hthrows := hquiet _ mem_cons_self callback rfl
      simp [invokeAll, hthrows, hrest]

/-! ### The contract -/

variable (s : CommitCallbackSubsystem)

/-- Commit points carry the view of their entry and do not go back, and the view history of a later one agrees
with the last one on what it has committed. -/
def Extends : CallbackOp → Prop
  | .triggerCallbacks committed viewHistory =>
    committed.view = viewHistory.viewAt committed.seqno ∧
      ∀ last ∈ s.knownCommit, last.seqno ≤ committed.seqno ∧
        ∀ seqno ≤ last.seqno, viewHistory.viewAt seqno = s.knownViewHistory.viewAt seqno
  | _ => True

/-- A trigger knows the views of the pending callbacks it reaches, leaves none that its commit point has made
invalid, and invokes none that throws. -/
def Settles : CallbackOp → Prop
  | .triggerCallbacks committed viewHistory => ∀ c ∈ s.pending,
      (if c.1.seqno ≤ committed.seqno then viewHistory.viewAt c.1.seqno ≠ 0 else committed.view ≤ c.1.view) ∧
        c.2.throws = false
  | _ => True

instance (op : CallbackOp) : Decidable (Extends s op) := by
  cases op <;> unfold Extends <;> infer_instance

instance (op : CallbackOp) : Decidable (Settles s op) := by
  cases op <;> unfold Settles <;> infer_instance

/-- Every callback that was registered is pending or has been invoked once; the last commit point settles none
that is pending and confirms the status of every one that was invoked. -/
structure Delivers (s : CommitCallbackSubsystem) : Prop where
  once : (s.invoked.map (fun i => (i.txId, i.callback)) ++ s.pending).Perm s.registered
  prompt : ∀ commit ∈ s.knownCommit, ∀ c ∈ s.pending, settled c.1 commit s.knownViewHistory = none
  confirmed : ∀ i ∈ s.invoked, ∃ commit ∈ s.knownCommit, settled i.txId commit s.knownViewHistory = some i.status

/-- Whether a callback is registered before or after a trigger makes no difference. -/
def Commutes (txId : TxID) (callback : CommitCallback) (committed : TxID) (viewHistory : ViewHistory) : Prop :=
  let before := (s.addCallback txId callback).triggerCallbacks committed viewHistory
  let after := (s.triggerCallbacks committed viewHistory).addCallback txId callback
  before.invoked.Perm after.invoked ∧ before.pending.Perm after.pending

/-- A trigger whose evaluation throws keeps the callbacks that are pending. -/
def KeepsPending : Prop :=
  ∀ committed viewHistory, (s.found committed viewHistory).2.2 = false →
    (s.triggerCallbacks committed viewHistory).pending = s.pending

/-! ### One step -/

/-- What holds in every state reached. -/
structure Inv (s : CommitCallbackSubsystem) : Prop extends Delivers s where
  filed : Filed s.pendingCallbacks
  coherent : ∀ commit ∈ s.knownCommit, commit.view = s.knownViewHistory.viewAt commit.seqno

theorem inv_init : Inv .init where
  once := .nil
  prompt := by rintro _ ⟨⟩
  confirmed := by rintro _ ⟨⟩
  filed := filed_nil
  coherent := by rintro _ ⟨⟩

section
variable {s} {commit : TxID} {callback : CommitCallback}

/-- What `add_callback` makes of a transaction: it refuses it, keeps its callback or invokes it with a status. -/
def reply (s : CommitCallbackSubsystem) (txId : TxID) : Option (Option FinalTxStatus) :=
  match s.knownCommit with
  | none => some none
  | some commit =>
    match evaluate txId commit s.knownViewHistory with
    | .error _ => none
    | .ok status => some (finalStatus status)

theorem reply_eq (hcommit : s.knownCommit = some commit) :
    reply s txId = if txId.seqno ≤ commit.seqno ∧ s.knownViewHistory.viewAt txId.seqno = 0 then none
      else some (settled txId commit s.knownViewHistory) := by
  simp only [reply, settled, hcommit]
  cases he : evaluate txId commit s.knownViewHistory with
  | error e => rw [if_pos (evaluate_error_iff.1 ⟨e, he⟩)]
  | ok status =>
    refine (if_neg fun hunknown => ?_).symm
    obtain ⟨e, he'⟩ := evaluate_error_iff.2 hunknown
    cases he.symm.trans he'

theorem settled_of_reply_pends (h : reply s txId = some none) :
    ∀ commit ∈ s.knownCommit, settled txId commit s.knownViewHistory = none := by
  intro commit hcommit
  rw [reply_eq hcommit] at h
  split_ifs at h
  exact Option.some.inj h

variable {status : FinalTxStatus}

theorem settled_of_reply (h : reply s txId = some (some status)) :
    ∃ commit ∈ s.knownCommit, settled txId commit s.knownViewHistory = some status := by
  cases hcommit : s.knownCommit with
  | none => simp [reply, hcommit] at h
  | some commit =>
    rw [reply_eq hcommit] at h
    split_ifs at h
    exact ⟨commit, rfl, Option.some.inj h⟩

variable (s)

theorem addCallback_eq (txId : TxID) (callback : CommitCallback) :
    s.addCallback txId callback = match reply s txId with
      | none => s
      | some none => { s with
          pendingCallbacks := emplace txId.seqno (txId, some callback) s.pendingCallbacks
          registered := s.registered ++ [(txId, callback)] }
      | some (some status) => { s with
          registered := s.registered ++ [(txId, callback)]
          invoked := s.invoked ++ [⟨txId, status, callback⟩] } := by
  cases hcommit : s.knownCommit with
  | none => simp only [addCallback, reply, hcommit]
  | some commit =>
    cases he : evaluate txId commit s.knownViewHistory with
    | error e => simp only [addCallback, reply, hcommit, he]
    | ok status => cases hfinal : finalStatus status <;> simp only [addCallback, reply, hcommit, he, hfinal]

theorem addCallback_consensus (txId : TxID) (callback : CommitCallback) :
    (s.addCallback txId callback).consensus = s.consensus := by
  rw [addCallback_eq]
  split <;> rfl

variable {s} (h : Inv s)
include h

theorem Inv.addCallback : Inv (s.addCallback txId callback) := by
  rw [addCallback_eq]
  split
  · exact h
  · next hreply =>
    have hperm := callbacksOf_emplace txId callback s.pendingCallbacks
    refine ⟨⟨?_, fun commit hcommit c hc => ?_, h.confirmed⟩, h.filed.emplace ⟨rfl, rfl⟩, h.coherent⟩
    · refine .trans (.append_left _ hperm) ?_
      rw [← append_assoc]
      exact h.once.append_right _
    · rcases mem_append.1 (hperm.mem_iff.1 hc) with hc | hc
      · exact h.prompt commit hcommit c hc
      · obtain rfl := mem_singleton.1 hc
        exact settled_of_reply_pends hreply commit hcommit
  · next status hreply =>
    refine ⟨⟨?_, h.prompt, fun i hi => ?_⟩, h.filed, h.coherent⟩
    · show (List.map _ (s.invoked ++ [_]) ++ s.pending).Perm (s.registered ++ [(txId, callback)])
      rw [map_append, append_assoc]
      refine .trans (.append_left _ perm_append_comm) ?_
      rw [← append_assoc]
      exact h.once.append_right _
    · rcases mem_append.1 hi with hi | hi
      · exact h.confirmed i hi
      · obtain rfl := mem_singleton.1 hi
        exact settled_of_reply hreply

/-- The status against a commit point is confirmed by every later one. -/
theorem Inv.settled_stable (hcommit : s.knownCommit = some commit)
    (hsettled : settled txId commit s.knownViewHistory = some status)
    (hext : Extends s (.triggerCallbacks committed viewHistory)) :
    settled txId committed viewHistory = some status := by
  obtain ⟨hview, hext⟩ := hext
  obtain ⟨hle, hagree⟩ := hext commit hcommit
  by_cases hseqno : txId.seqno ≤ commit.seqno
  · have hknown : s.knownViewHistory.viewAt txId.seqno ≠ 0 := by
      intro hunknown
      rw [settled_of_unknown hseqno hunknown] at hsettled
      cases hsettled
    rw [settled_of_le hseqno hknown, ← hagree _ hseqno] at hsettled
    rw [settled_of_le (hseqno.trans hle) (hagree _ hseqno ▸ hknown), hsettled]
  · -- a later view has been committed, which every later commit point keeps
    have hcoherent := h.coherent commit hcommit
    have hlast := hagree commit.seqno le_rfl
    rw [settled_of_lt (not_le.1 hseqno) hcoherent] at hsettled
    split_ifs at hsettled with hlt
    by_cases hseqno' : txId.seqno ≤ committed.seqno
    · have hmono := viewHistory.viewAt_mono (not_le.1 hseqno).le
      rw [settled_of_le hseqno' (by omega), if_neg (by omega), hsettled]
    · have hmono := viewHistory.viewAt_mono hle
      rw [settled_of_lt (not_le.1 hseqno') hview, if_pos (by omega), hsettled]

section
variable (hconsensus : s.consensus = true) (hset : Settles s (.triggerCallbacks committed viewHistory))
include hconsensus hset

theorem Inv.triggerCallbacks_eq : s.triggerCallbacks committed viewHistory = { s with
    knownCommit := some committed
    knownViewHistory := viewHistory
    pendingCallbacks := beyond committed s.pendingCallbacks
    invoked := s.invoked ++ (s.pending.filter (·.1.seqno ≤ committed.seqno)).map
      fun c => ⟨c.1, verdict viewHistory c.1, c.2⟩ } := by
  have hcollect := collect_known h.filed fun c hc hle => by
    have hknown := (hset c hc).1
    rwa [if_pos hle] at hknown
  have hmem : ∀ c ∈ (reached committed s.pendingCallbacks).flatMap Prod.snd,
      c.2.isSome ∧ ∀ callback ∈ c.2, callback.throws = false := by
    intro c hc
    obtain ⟨p, hp, hcp⟩ := mem_flatMap.1 hc
    have hp' := mem_of_mem_filter hp
    refine ⟨(h.filed.filed p hp' c hcp).2, fun callback hcallback => ?_⟩
    exact (hset (c.1, callback) (mem_callbacksOf.2 ⟨p, hp', by rw [← Option.mem_def.1 hcallback]; exact hcp⟩)).2
  have hinvoke := invokeAll_known viewHistory (fun c hc => (hmem c hc).1) fun c hc => (hmem c hc).2
  have hfilter := h.filed.callbacksOf_filter (decide <| · ≤ committed.seqno)
  simp only [triggerCallbacks, found, hconsensus, hcollect, hinvoke,
    Bool.not_true, Bool.false_eq_true, if_false, if_true]
  rw [mk.injEq]
  exact ⟨rfl, rfl, rfl, rfl, rfl, congrArg (s.invoked ++ List.map _ ·) hfilter⟩

theorem Inv.triggerCallbacks_pending : (s.triggerCallbacks committed viewHistory).pending =
    s.pending.filter fun c => !decide (c.1.seqno ≤ committed.seqno) := by
  rw [h.triggerCallbacks_eq hconsensus hset]
  exact h.filed.callbacksOf_filter fun seqno => !decide (seqno ≤ committed.seqno)

end

theorem Inv.triggerCallbacks (hext : Extends s (.triggerCallbacks committed viewHistory))
    (hset : Settles s (.triggerCallbacks committed viewHistory)) : Inv (s.triggerCallbacks committed viewHistory) := by
  cases hconsensus : s.consensus with
  | false => simpa [CommitCallbackSubsystem.triggerCallbacks, hconsensus] using h
  | true =>
    have hpending := h.triggerCallbacks_pending hconsensus hset
    have hmem : ∀ c ∈ (s.triggerCallbacks committed viewHistory).pending, c ∈ s.pending ∧
        committed.seqno < c.1.seqno := by
      intro c hc
      rw [hpending] at hc
      simpa using hc
    rw [h.triggerCallbacks_eq hconsensus hset] at hpending hmem ⊢
    refine ⟨⟨?_, ?_, fun i hi => ⟨committed, rfl, ?_⟩⟩, h.filed.filter _, ?_⟩
    · show (List.map _ (s.invoked ++ List.map _ _) ++ _).Perm s.registered
      rw [map_append, map_map, append_assoc]
      refine .trans (.append_left _ ?_) h.once
      convert filter_append_perm (fun c => decide (c.1.seqno ≤ committed.seqno)) s.pending
      exact map_id _
    · rintro _ ⟨⟩ c hc
      obtain ⟨hc, hlt⟩ := hmem c hc
      have hview := (hset c hc).1
      rw [if_neg (not_le.2 hlt)] at hview
      rw [settled_of_lt hlt hext.1, if_neg (not_lt.2 hview)]
    · rcases mem_append.1 hi with hi | hi
      · obtain ⟨commit, hcommit, hsettled⟩ := h.confirmed i hi
        exact h.settled_stable hcommit hsettled hext
      · obtain ⟨c, hc, rfl⟩ := mem_map.1 hi
        obtain ⟨hc, hle⟩ := mem_filter.1 hc
        have hle := of_decide_eq_true hle
        have hknown := (hset c hc).1
        rw [if_pos hle] at hknown
        exact settled_of_le hle hknown
    · rintro _ ⟨⟩
      exact hext.1

theorem Inv.next (op : CallbackOp) (hop : Extends s op ∧ Settles s op) : Inv (callbackStep s op) := by
  cases op with
  | setConsensus => exact ⟨⟨h.once, h.prompt, h.confirmed⟩, h.filed, h.coherent⟩
  | addCallback txId callback => exact h.addCallback
  | triggerCallbacks committed viewHistory => exact h.triggerCallbacks hop.1 hop.2

theorem Inv.keepsPending : KeepsPending s := by
  intro committed viewHistory hfail
  cases hconsensus : s.consensus with
  | false => simp [CommitCallbackSubsystem.triggerCallbacks, hconsensus]
  | true =>
    simp only [CommitCallbackSubsystem.triggerCallbacks, hconsensus, Bool.not_true, Bool.false_eq_true, if_false]
    exact collect_throws h.filed hfail

/-! ### Registration before and after a trigger -/

section
variable (hconsensus : s.consensus = true) (hext : Extends s (.triggerCallbacks committed viewHistory))
  (hset : Settles (s.addCallback txId callback) (.triggerCallbacks committed viewHistory))
include hconsensus hext hset

theorem Inv.commutes_refused (hreply : reply s txId = none) : Commutes s txId callback committed viewHistory := by
  rw [addCallback_eq, hreply] at hset
  have hafter : reply (s.triggerCallbacks committed viewHistory) txId = none := by
    cases hcommit : s.knownCommit with
    | none => simp [reply, hcommit] at hreply
    | some commit =>
      -- the view is not known to the later history either
      obtain ⟨hle, hagree⟩ := hext.2 commit hcommit
      rw [reply_eq hcommit] at hreply
      split_ifs at hreply with hunknown
      rw [h.triggerCallbacks_eq hconsensus hset, reply_eq rfl,
        if_pos ⟨hunknown.1.trans hle, (hagree _ hunknown.1).trans hunknown.2⟩]
  simp only [Commutes, addCallback_eq, hreply, hafter]
  exact ⟨.refl _, .refl _⟩

theorem Inv.commutes_settled (hreply : reply s txId = some (some status)) :
    Commutes s txId callback committed viewHistory := by
  obtain ⟨commit, hcommit, hsettled⟩ := settled_of_reply hreply
  have hstable := h.settled_stable hcommit hsettled hext
  have hadd : Inv (s.addCallback txId callback) := h.addCallback
  rw [addCallback_eq, hreply] at hset hadd
  have heq := h.triggerCallbacks_eq hconsensus fun c hc => hset c hc
  have hafter : reply (s.triggerCallbacks committed viewHistory) txId = some (some status) := by
    rw [heq, reply_eq rfl, hstable, if_neg]
    rintro ⟨hle, hunknown⟩
    rw [settled_of_unknown hle hunknown] at hstable
    cases hstable
  simp only [Commutes, addCallback_eq, hreply, hafter]
  rw [hadd.triggerCallbacks_eq hconsensus hset, heq]
  refine ⟨?_, .refl _⟩
  show ((s.invoked ++ [_]) ++ List.map _ (List.filter _ s.pending)).Perm ((s.invoked ++ List.map _ _) ++ [_])
  rw [append_assoc, append_assoc]
  exact .append_left _ perm_append_comm

theorem Inv.commutes_pends (hreply : reply s txId = some none) : Commutes s txId callback committed viewHistory := by
  have hadd : Inv (s.addCallback txId callback) := h.addCallback
  have hpends := addCallback_eq s txId callback
  rw [hreply] at hpends
  have hperm : (s.addCallback txId callback).pending.Perm (s.pending ++ [(txId, callback)]) := by
    rw [hpends]
    exact callbacksOf_emplace txId callback _
  have hset' : Settles s (.triggerCallbacks committed viewHistory) := fun c hc =>
    hset c (hperm.mem_iff.2 (mem_append_left _ hc))
  have hown := (hset (txId, callback) (hperm.mem_iff.2 (by simp))).1
  have hconsensus' : (s.addCallback txId callback).consensus = true := by
    rw [hpends]
    exact hconsensus
  have hinvoked : (s.addCallback txId callback).invoked = s.invoked := by rw [hpends]
  have hafter := h.triggerCallbacks_eq hconsensus hset'
  have hpending := h.triggerCallbacks_pending hconsensus hset'
  rw [hafter] at hpending
  have hsplit : ∀ q : ℕ → Bool, ((s.addCallback txId callback).pending.filter fun c => q c.1.seqno).Perm
      (s.pending.filter (fun c => q c.1.seqno) ++ if q txId.seqno then [(txId, callback)] else []) := by
    intro q
    have hfilter := hperm.filter fun c => q c.1.seqno
    rwa [filter_append, filter_singleton, Bool.cond_eq_ite] at hfilter
  have hin := hsplit (decide <| · ≤ committed.seqno)
  have hout := hsplit fun seqno => !decide (seqno ≤ committed.seqno)
  show ((s.addCallback txId callback).triggerCallbacks committed viewHistory).invoked.Perm _ ∧
    ((s.addCallback txId callback).triggerCallbacks committed viewHistory).pending.Perm _
  rw [hadd.triggerCallbacks_pending hconsensus' hset, hadd.triggerCallbacks_eq hconsensus' hset]
  by_cases hle : txId.seqno ≤ committed.seqno
  · rw [if_pos hle] at hown
    have hreply' : reply (s.triggerCallbacks committed viewHistory) txId = some (some (verdict viewHistory txId)) := by
      rw [hafter, reply_eq rfl, if_neg fun hunknown => hown hunknown.2]
      exact congrArg some (settled_of_le hle hown)
    rw [if_pos (by simpa using hle)] at hin
    rw [if_neg (by simpa using hle), append_nil, ← hpending] at hout
    rw [addCallback_eq (s.triggerCallbacks _ _), hreply', hafter]
    refine ⟨?_, hout⟩
    have hmap := hin.map fun c => (⟨c.1, verdict viewHistory c.1, c.2⟩ : Invocation)
    rw [map_append] at hmap
    rw [hinvoked]
    exact .trans (.append_left _ hmap) (.of_eq (append_assoc ..).symm)
  · rw [if_neg hle] at hown
    have hlt := not_le.1 hle
    have hreply' : reply (s.triggerCallbacks committed viewHistory) txId = some none := by
      rw [hafter, reply_eq rfl, if_neg fun hunknown => hle hunknown.1]
      exact congrArg some ((settled_of_lt hlt hext.1).trans (if_neg (not_lt.2 hown)))
    rw [if_neg (by simpa using hle), append_nil] at hin
    rw [if_pos (by simpa using hlt), ← hpending] at hout
    rw [addCallback_eq (s.triggerCallbacks _ _), hreply', hafter, hinvoked]
    exact ⟨.append_left _ (hin.map _), hout.trans (callbacksOf_emplace txId callback _).symm⟩

end

theorem Inv.commutes (hext : Extends s (.triggerCallbacks committed viewHistory))
    (hset : Settles (s.addCallback txId callback) (.triggerCallbacks committed viewHistory)) :
    Commutes s txId callback committed viewHistory := by
  cases hconsensus : s.consensus with
  | false =>
    have hadd : (s.addCallback txId callback).consensus = false := by
      rw [addCallback_consensus, hconsensus]
    simp only [Commutes, CommitCallbackSubsystem.triggerCallbacks, hconsensus, hadd, Bool.not_false, if_true]
    exact ⟨.refl _, .refl _⟩
  | true =>
    match hreply : reply s txId with
    | none => exact h.commutes_refused hconsensus hext hset hreply
    | some none => exact h.commutes_pends hconsensus hext hset hreply
    | some (some status) => exact h.commutes_settled hconsensus hext hset hreply

end

/-- **Commit callbacks are invoked once**, with their true final status, as soon as the last commit point settles it,
and whether they are registered before or after a trigger; one that throws loses none that is pending. -/
theorem delivers_of_settles (ops : List CallbackOp) (hext : Runs.Along callbackStep Extends .init ops)
    (hset : Runs.Along callbackStep Settles .init ops) :
    Delivers (runCallbacks ops) ∧ KeepsPending (runCallbacks ops) ∧
      ∀ txId callback committed viewHistory, Extends (runCallbacks ops) (.triggerCallbacks committed viewHistory) →
        Settles (callbackStep (runCallbacks ops) (.addCallback txId callback))
        (.triggerCallbacks committed viewHistory) →
        Commutes (runCallbacks ops) txId callback committed viewHistory := by
  have hinv : Inv (runCallbacks ops) :=
    Runs.exec_induction (I := Inv) (fun s x hs hx => hs.next x hx) inv_init (Runs.along_and.2 ⟨hext, hset⟩)
  exact ⟨hinv.toDelivers, hinv.keepsPending, fun _ _ _ _ => hinv.commutes⟩

/-- Views start at the sequence numbers 1 and 4. -/
def twoViews : ViewHistory := ⟨[1, 4], by decide⟩

/-- Two callbacks for one sequence number, of which one transaction commits, and a third one that is registered
after the commit. -/
def settling : List CallbackOp :=
  [.setConsensus, .addCallback ⟨1, 5⟩ ⟨0, false⟩, .addCallback ⟨2, 5⟩ ⟨1, false⟩, .addCallback ⟨2, 7⟩ ⟨2, false⟩,
    .triggerCallbacks ⟨2, 6⟩ twoViews, .addCallback ⟨1, 3⟩ ⟨3, false⟩]

theorem delivers_of_settles_settling :
    (runCallbacks settling).invoked = [⟨⟨1, 5⟩, .invalid, ⟨0, false⟩⟩, ⟨⟨2, 5⟩, .committed, ⟨1, false⟩⟩,
      ⟨⟨1, 3⟩, .committed, ⟨3, false⟩⟩] ∧ Delivers (runCallbacks settling) ∧
      Commutes (runCallbacks settling) ⟨2, 8⟩ ⟨4, false⟩ ⟨2, 8⟩ twoViews := by
  have h := delivers_of_settles settling (by decide) (by decide)
  exact ⟨by decide, h.1, h.2.2 _ _ _ _ (by decide) (by decide)⟩

/-- A transaction of view 1 that is still pending when an earlier sequence number commits in view 2. -/
def superseded : List CallbackOp :=
  [.setConsensus, .addCallback ⟨1, 5⟩ ⟨0, false⟩, .triggerCallbacks ⟨2, 4⟩ twoViews]

/-- It stays pending although it is invalid; registered after the trigger it is invoked at once. -/
theorem not_prompt_superseded :
    Runs.Along callbackStep Extends .init superseded ∧ (runCallbacks superseded).pending = [(⟨1, 5⟩, ⟨0, false⟩)] ∧
      ¬Delivers (runCallbacks superseded) ∧
      ¬Commutes (runCallbacks (superseded.take 1)) ⟨1, 5⟩ ⟨0, false⟩ ⟨2, 4⟩ twoViews := by
  refine ⟨by decide, by decide, fun h => ?_, fun h => ?_⟩
  · have hprompt := h.prompt
    revert hprompt
    decide
  · have hinvoked := h.1.length_eq
    revert hinvoked
    decide

end Ccf.Node.CommitCallbacks
