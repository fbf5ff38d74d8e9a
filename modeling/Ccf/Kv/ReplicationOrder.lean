import Mathlib.Data.List.Nodup
import Ccf.Kv.Replication

/-! # Transactions are replicated in the order of their versions

`Ordered` and `InOrder` say what the batches passed to consensus must be: every batch goes on from `last_replicated`
with surviving versions, no transaction is passed twice, and when no call of `Store::commit` is under way, a version
whose predecessors have all been committed has been passed. The invariant behind them, `Inv`, holds along the runs
whose steps are `Orderly`. Otherwise a version can be assigned and never passed (`not_passed_along_run`). -/

namespace Ccf.Kv

open Option List Function Runs Bookkeeping
open Std (ExtTreeMap)

variable {Pending : Type} {txid : TxID} {e : BatchEntry Pending} {term : ℕ}

theorem map_version_batchFrom (v : ℕ) (txs : List (Pending × Bool)) :
    (batchFrom v txs).map BatchEntry.version = List.range' v txs.length := by
  induction txs generalizing v with
  | nil => rfl
  | cons tx txs ih => simp [batchFrom, ih, List.range'_succ]

theorem map_tx_batchFrom (v : ℕ) (txs : List (Pending × Bool)) :
    (batchFrom v txs).map BatchEntry.tx = txs.map Prod.fst := by
  induction txs generalizing v with
  | nil => rfl
  | cons tx txs ih => simp [batchFrom, ih]

theorem mem_batchFrom {v : ℕ} {txs : List (Pending × Bool)}
    (h : e ∈ batchFrom v txs) : ∃ k, e.version = v + k ∧ txs[k]? = some (e.tx, e.committable) := by
  induction txs generalizing v with
  | nil => cases h
  | cons tx txs ih =>
    rcases mem_cons.1 h with rfl | h
    · exact ⟨0, rfl, rfl⟩
    · obtain ⟨k, hv, hk⟩ := ih h
      exact ⟨k + 1, by omega, hk⟩

/-- What a rollback does to the bookkeeping. -/
theorem Bookkeeping.rollback_cases {b b' : Bookkeeping Pending} (h : b.rollback txid term = .ok b') :
    b.version ≤ txid.seqno ∧ b' = { b with termOfNextVersion := term, termOfLastVersion := txid.view } ∨
      txid.seqno < b.version ∧ b'.version = txid.seqno ∧ b'.lastReplicated = txid.seqno ∧
        b'.rollbackCount = b.rollbackCount + 1 ∧ b'.pendingTxs = ∅ := by
  unfold rollback at h
  simp only at h
  split_ifs at h with hcompacted hle
  · exact .inl ⟨hle, (Except.ok.inj h).symm⟩
  · cases h
    exact .inr ⟨not_le.1 hle, rfl, rfl, rfl, rfl⟩

theorem Bookkeeping.lastReplicated_finish {b : Bookkeeping Pending} {c : CommitCall Pending}
    (h : b.lastReplicated = c.previousLastReplicated ∧ c.previousRollbackCount = b.rollbackCount) :
    (b.finish c).lastReplicated = c.previousLastReplicated + c.contiguousPendingTxs.length := by
  rw [finish, if_pos h]

def Stage.txid? : Stage → Option TxID
  | .assigned txid => some txid
  | .called txid _ => some txid
  | _ => none

def Stage.assigned? : Stage → Option TxID
  | .assigned txid => some txid
  | _ => none

namespace Replication

/-! ### The property -/

variable (s : Replication) {s' : Replication}

/-- The transactions passed to consensus, in order. -/
def passedTxs : List ℕ := s.passed.flatten.map BatchEntry.tx

def Called (i : ℕ) : Prop := ∃ txid committable, s.txs i = .called txid committable

/-- What a step passes to consensus: contiguous surviving versions from just after `last_replicated` on, as
they were committed. -/
def InOrder (s s' : Replication) : Prop :=
  s'.passed = s.passed ∨ ∃ batch, s'.passed = s.passed ++ [batch] ∧
    batch.map BatchEntry.version = List.range' (s.store.lastReplicated + 1) batch.length ∧
    ∀ e ∈ batch, s.owners[e.version - 1]? = some (some e.tx) ∧
      ∃ view, s.txs e.tx = .called ⟨view, e.version⟩ e.committable

structure Ordered (s : Replication) : Prop where
  once : s.passedTxs.Nodup
  /-- A version whose predecessors have all been committed has been passed. -/
  complete : s.call = none → ∀ (n i : ℕ), s.owners[n]? = some (some i) →
    (∀ m ≤ n, ∀ j, s.owners[m]? = some (some j) → s.Called j) → i ∈ s.passedTxs

/-! ### The invariant -/

/-- How far the versions have been taken off `pending_txs`. -/
def front : ℕ :=
  match s.call with
  | some (c, _) => (s.store.finish c).lastReplicated
  | none => s.store.lastReplicated

/-- How far the versions have been passed to consensus. -/
def handed : ℕ :=
  match s.call with
  | some (c, true) => (s.store.finish c).lastReplicated
  | _ => s.store.lastReplicated

/-- Both depend on the call, `last_replicated` and the rollback count only. -/
theorem front_handed_congr {s : Replication} (hreplicated : s'.store.lastReplicated = s.store.lastReplicated)
    (hcount : s'.store.rollbackCount = s.store.rollbackCount) (hcall : s'.call = s.call) :
    s'.front = s.front ∧ s'.handed = s.handed := by
  have hfinish : ∀ c, (s'.store.finish c).lastReplicated = (s.store.finish c).lastReplicated := by
    intro c
    unfold finish
    rw [hreplicated, hcount]
    split_ifs <;> simp [hreplicated]
  constructor
  · simp only [front, hcall, hfinish, hreplicated]
  · simp only [handed, hcall, hfinish, hreplicated]

/-- A call between `enqueue` and the call of `consensus->replicate`. -/
structure Dequeued (s : Replication) (c : CommitCall ℕ) : Prop where
  previous : c.previousLastReplicated = s.store.lastReplicated
  count : c.previousRollbackCount = s.store.rollbackCount
  txs : ∀ (k i : ℕ) (committable : Bool), c.contiguousPendingTxs[k]? = some (i, committable) →
    s.owners[s.store.lastReplicated + k]? = some (some i) ∧
      ∃ view, s.txs i = .called ⟨view, s.store.lastReplicated + k + 1⟩ committable

structure Inv (s : Replication) : Prop where
  length : s.owners.length = s.store.version
  owner : ∀ (n i : ℕ), s.owners[n]? = some (some i) → ∃ txid, (s.txs i).txid? = some txid ∧ txid.seqno = n + 1
  foreign : ∀ (n : ℕ), s.owners[n]? = some none → n < s.handed
  queued : ∀ (v i : ℕ) (committable : Bool), s.store.pendingTxs[v]? = some (i, committable) →
    s.front < v ∧ s.owners[v - 1]? = some (some i) ∧ ∃ view, s.txs i = .called ⟨view, v⟩ committable
  missing : s.store.pendingTxs[s.front + 1]? = none
  dequeued : ∀ c, s.call = some (c, false) → s.Dequeued c
  count : ∀ c b, s.call = some (c, b) → c.previousRollbackCount ≤ s.store.rollbackCount
  front_le : s.front ≤ s.store.version
  covered : ∀ (n i : ℕ), s.owners[n]? = some (some i) → s.Called i →
    n < s.front ∨ (s.store.pendingTxs[n + 1]?).isSome = true
  called : ∀ i ∈ s.passedTxs, s.Called i
  passed : ∀ (n i : ℕ), s.owners[n]? = some (some i) → (i ∈ s.passedTxs ↔ n < s.handed)
  once : s.passedTxs.Nodup

variable {s : Replication}

theorem Inv.ordered (k : s.Inv) : s.Ordered := by
  refine ⟨k.once, fun hcall n i hi hall => (k.passed n i hi).2 (not_le.1 fun hle => ?_)⟩
  have hfront : s.front = s.store.lastReplicated := by simp [front, hcall]
  have hhanded : s.handed = s.store.lastReplicated := by simp [handed, hcall]
  -- the first version that has not been passed would be next in the queue
  have hlt : s.handed < s.owners.length := hle.trans_lt (List.getElem?_eq_some_iff.1 hi).1
  obtain ⟨o, ho⟩ : ∃ o, s.owners[s.handed]? = some o := ⟨_, getElem?_eq_getElem hlt⟩
  cases o with
  | none => exact lt_irrefl _ (k.foreign _ ho)
  | some j =>
    rcases k.covered _ _ ho (hall _ hle j ho) with h | h
    · omega
    · have := k.missing
      rw [hfront, ← hhanded] at this
      simp [this] at h

theorem inv_init (v term : ℕ) : (init v term).Inv where
  length := length_replicate
  owner n i h := by simp [init, getElem?_replicate] at h
  foreign n h := by
    have := (List.getElem?_eq_some_iff.1 h).1
    simpa [init, handed] using this
  queued v i c h := by simp [init] at h
  missing := by simp [init]
  dequeued c h := by cases h
  count c b h := by cases h
  front_le := le_rfl
  covered n i h := by simp [init, getElem?_replicate] at h
  called i h := by cases h
  passed n i h := by simp [init, getElem?_replicate] at h
  once := nodup_nil

/-! ### Steps -/

theorem Dequeued.finish {c : CommitCall ℕ} (hd : s.Dequeued c) :
    (s.store.finish c).lastReplicated = s.store.lastReplicated + c.contiguousPendingTxs.length := by
  rw [lastReplicated_finish ⟨hd.previous.symm, hd.count⟩, hd.previous]

variable (k : s.Inv) {i : ℕ} {a : Action}
include k

theorem Inv.handed_le_front : s.handed ≤ s.front := by
  unfold handed front
  match hcall : s.call with
  | none => exact le_rfl
  | some (c, true) => exact le_rfl
  | some (c, false) =>
    simp only [(k.dequeued c hcall).finish]
    omega

theorem Inv.apart (hi : (s.txs i).txid? = none) : ¬s.Called i ∧ ∀ n : ℕ, s.owners[n]? ≠ some (some i) := by
  constructor
  · rintro ⟨txid, c, h⟩
    rw [h] at hi
    cases hi
  · intro n h
    obtain ⟨txid, htxid, -⟩ := k.owner n i h
    rw [hi] at htxid
    cases htxid

/-- A step that gives at most one transaction a version, the next one, and moves no other transaction that has a
version or has called. A call may end. -/
theorem Inv.extend {l : List (Option ℕ)}
    (hnew : l = [] ∨ ∃ i view, l = [some i] ∧ (s.txs i).txid? = none ∧
      s'.txs i = .assigned ⟨view, s.store.version + 1⟩)
    (hversion : s'.store.version = s.store.version + l.length)
    (hpending : s'.store.pendingTxs = s.store.pendingTxs) (howners : s'.owners = s.owners ++ l)
    (hpassed : s'.passed = s.passed)
    (hcall : s'.call = s.call ∧ s'.store.lastReplicated = s.store.lastReplicated ∧
        s'.store.rollbackCount = s.store.rollbackCount ∨
      s'.call = none ∧ s'.front = s.front ∧ s'.handed = s.handed)
    (htxs : ∀ i, s'.txs i = s.txs i ∨ ¬s.Called i ∧ ∀ n : ℕ, s.owners[n]? ≠ some (some i)) : s'.Inv := by
  obtain ⟨hfront, hhanded⟩ : s'.front = s.front ∧ s'.handed = s.handed := by
    rcases hcall with ⟨hcall, hreplicated, hcount⟩ | ⟨-, h⟩
    · exact front_handed_congr hreplicated hcount hcall
    · exact h
  have hstage : ∀ {n i : ℕ}, s.owners[n]? = some (some i) → s'.txs i = s.txs i :=
    fun {n i} h => (htxs i).resolve_right fun hapart => hapart.2 n h
  have hcalled : ∀ {i txid c}, s.txs i = .called txid c → s'.txs i = .called txid c :=
    fun {i txid c} h => ((htxs i).resolve_right fun hapart => hapart.1 ⟨txid, c, h⟩).trans h
  have hcases : ∀ {n : ℕ} {o}, s'.owners[n]? = some o → s.owners[n]? = some o ∨
      n = s.store.version ∧ ∃ i view, o = some i ∧ (s.txs i).txid? = none ∧ s'.txs i = .assigned ⟨view, n + 1⟩ := by
    intro n o h
    rw [howners, getElem?_append, k.length] at h
    split_ifs at h with hn
    · exact .inl h
    · rcases hnew with rfl | ⟨i, view, rfl, hnone, hi⟩
      · cases h
      · rw [getElem?_singleton] at h
        split_ifs at h with hzero
        obtain rfl : n = s.store.version := by omega
        exact .inr ⟨rfl, i, view, (some.inj h).symm, hnone, hi⟩
  have hkept : ∀ {n : ℕ} {o}, s.owners[n]? = some o → s'.owners[n]? = some o := by
    intro n o h
    rw [howners, List.getElem?_append_left (List.getElem?_eq_some_iff.1 h).1, h]
  have hpassedTxs : s'.passedTxs = s.passedTxs := by rw [passedTxs, hpassed]; rfl
  constructor
  · rw [howners, length_append, k.length, hversion]
  · intro n j h
    rcases hcases h with h | ⟨-, i, view, ho, -, hi⟩
    · obtain ⟨txid, htxid, hseqno⟩ := k.owner n j h
      exact ⟨txid, by rw [hstage h, htxid], hseqno⟩
    · cases ho
      exact ⟨⟨view, n + 1⟩, by rw [hi]; rfl, rfl⟩
  · intro n h
    rcases hcases h with h | ⟨-, i, view, ho, -⟩
    · exact hhanded ▸ k.foreign n h
    · cases ho
  · intro v j c h
    obtain ⟨hv, ho, view, ht⟩ := k.queued v j c (hpending ▸ h)
    exact ⟨hfront ▸ hv, hkept ho, view, hcalled ht⟩
  · rw [hfront, hpending]
    exact k.missing
  · intro c h
    rcases hcall with ⟨hcall, hreplicated, hcount⟩ | ⟨hnone, -⟩
    · obtain ⟨hp, hc, ht⟩ := k.dequeued c (hcall ▸ h)
      refine ⟨hp.trans hreplicated.symm, hc.trans hcount.symm, fun m j committable hm => ?_⟩
      obtain ⟨ho, view, hj⟩ := ht m j committable hm
      rw [hreplicated]
      exact ⟨hkept ho, view, hcalled hj⟩
    · rw [hnone] at h
      cases h
  · intro c b h
    rcases hcall with ⟨hcall, -, hcount⟩ | ⟨hnone, -⟩
    · rw [hcount]
      exact k.count c b (hcall ▸ h)
    · rw [hnone] at h
      cases h
  · rw [hfront, hversion]
    exact k.front_le.trans (Nat.le_add_right _ _)
  · intro n j h hc
    rw [hfront, hpending]
    rcases hcases h with h | ⟨-, i, view, ho, -, hi⟩
    · obtain ⟨txid, c, ht⟩ := hc
      exact k.covered n j h ⟨txid, c, hstage h ▸ ht⟩
    · cases ho
      obtain ⟨txid, c, ht⟩ := hc
      rw [ht] at hi
      cases hi
  · intro j h
    obtain ⟨txid, c, ht⟩ := k.called j (hpassedTxs ▸ h)
    exact ⟨txid, c, hcalled ht⟩
  · intro n j h
    rw [hpassedTxs, hhanded]
    rcases hcases h with h | ⟨rfl, i, view, ho, hnone, -⟩
    · exact k.passed n j h
    · cases ho
      -- a new transaction has not been passed, and its version is the last
      refine iff_of_false (fun hmem => ?_) (not_lt.2 (k.handed_le_front.trans k.front_le))
      obtain ⟨txid, c, ht⟩ := k.called _ hmem
      rw [ht] at hnone
      cases hnone
  · rw [hpassedTxs]
    exact k.once

/-- A step that changes only what the invariant does not look at. -/
theorem Inv.congr (hversion : s'.store.version = s.store.version)
    (hreplicated : s'.store.lastReplicated = s.store.lastReplicated)
    (hcount : s'.store.rollbackCount = s.store.rollbackCount)
    (hpending : s'.store.pendingTxs = s.store.pendingTxs) (howners : s'.owners = s.owners)
    (hpassed : s'.passed = s.passed) (hcall : s'.call = s.call) (htxs : s'.txs = s.txs) : s'.Inv :=
  k.extend (.inl rfl) hversion hpending (howners.trans (append_nil _).symm) hpassed
    (.inl ⟨hcall, hreplicated, hcount⟩) fun i => .inl (congrFun htxs i)

theorem Inv.begin (i : ℕ) : (s.step (.begin i)).Inv := by
  unfold step
  simp only
  split
  case h_1 hi =>
      refine k.extend (.inl rfl) rfl rfl (append_nil _).symm rfl (.inl ⟨rfl, rfl, rfl⟩) fun j => ?_
      by_cases hj : j = i
      · subst hj
        exact .inr (k.apart (by rw [hi]; rfl))
      · exact .inl (update_of_ne hj _ _)
  case h_2 => exact k

theorem Inv.assignAt (view : ℕ) (hi : (s.txs i).txid? = none) : (s.assignAt i view).Inv := by
  have hself : (s.assignAt i view).txs i = .assigned ⟨view, s.store.version + 1⟩ := update_self _ _ _
  refine k.extend (.inr ⟨i, view, rfl, hi, hself⟩) rfl rfl rfl rfl (.inl ⟨rfl, rfl, rfl⟩) fun j => ?_
  by_cases hj : j = i
  · subst hj
    exact .inr (k.apart hi)
  · exact .inl (update_of_ne hj _ _)

/-- A transaction whose version has been rolled back is refused. -/
theorem Inv.refused (committable : Bool) (hi : s.txs i = .assigned txid)
    (howner : s.owners[txid.seqno - 1]? ≠ some (some i)) :
    ({ s with txs := update s.txs i (.called txid committable) } : Replication).Inv := by
  refine k.extend (.inl rfl) rfl rfl (append_nil _).symm rfl (.inl ⟨rfl, rfl, rfl⟩) fun j => ?_
  by_cases hj : j = i
  · subst hj
    refine .inr ⟨?_, fun n h => howner ?_⟩
    · rintro ⟨t, g, h⟩
      rw [hi] at h
      cases h
    · obtain ⟨t, ht, hn⟩ := k.owner n j h
      rw [hi] at ht
      cases ht
      rwa [hn]
  · exact .inl (update_of_ne hj _ _)

omit k

/-- The condition on the steps: `Store::commit` refuses a transaction, as one of another view on the primary, just if
its version has been rolled back; no version is rolled back that has been assigned but not passed, nor while a batch
is being passed; and consensus accepts what it is given. -/
def Orderly (s : Replication) : Action → Prop
  | .commit i _ => ∀ txid ∈ (s.txs i).assigned?,
      (txid.view ≠ s.store.termOfNextVersion ∧ s.isPrimary = true ↔ s.owners[txid.seqno - 1]? ≠ some (some i))
  | .replicate fails accepted => fails = none ∧ accepted = true
  | .rollback txid _ => s.store.version ≤ txid.seqno ∨ s.call.all Prod.snd = true ∧ txid.seqno ≤ s.handed
  | _ => True

instance (s : Replication) (a : Action) : Decidable (s.Orderly a) := by
  cases a <;> unfold Orderly <;> infer_instance

/-- What `enqueue` does for transaction `i`: it joins the queue, and what has become contiguous leaves it. -/
structure Enqueued (s : Replication) (i : ℕ) (txid : TxID) (committable : Bool) (c : CommitCall ℕ)
    (b : Bookkeeping ℕ) : Prop where
  version : b.version = s.store.version
  replicated : b.lastReplicated = s.store.lastReplicated
  count : b.rollbackCount = s.store.rollbackCount
  previous : c.previousLastReplicated = s.store.lastReplicated
  prevCount : c.previousRollbackCount = s.store.rollbackCount
  pending : ∀ v : ℕ, b.pendingTxs[v]? =
    if s.store.lastReplicated < v ∧ v ≤ s.store.lastReplicated + c.contiguousPendingTxs.length then none
    else if v = txid.seqno then some (i, committable) else s.store.pendingTxs[v]?
  taken : ∀ (n : ℕ) p, c.contiguousPendingTxs[n]? = some p →
    (if s.store.lastReplicated + n + 1 = txid.seqno then some (i, committable)
      else s.store.pendingTxs[s.store.lastReplicated + n + 1]?) = some p
  missing : b.pendingTxs[s.store.lastReplicated + c.contiguousPendingTxs.length + 1]? = none

theorem Inv.enqueued (k : s.Inv) (committable : Bool) (hi : s.txs i = .assigned txid)
    (howner : s.owners[txid.seqno - 1]? = some (some i))
    (hok : ¬(txid.view ≠ s.store.termOfNextVersion ∧ s.isPrimary = true)) :
    ∃ c b, s.store.enqueue s.isPrimary txid i committable = some (c, b) ∧ s.Enqueued i txid committable c b := by
  -- the version has not been in the queue before
  have hnew : txid.seqno ∉ s.store.pendingTxs := by
    intro hmem
    obtain ⟨⟨j, g⟩, hj⟩ := isSome_iff_exists.1 (ExtTreeMap.isSome_getElem?_iff_mem.2 hmem)
    obtain ⟨-, ho, view, ht⟩ := k.queued _ _ _ hj
    rw [howner] at ho
    cases ho
    rw [hi] at ht
    cases ht
  have hinsert : ∀ v, (s.store.pendingTxs.insertIfNew txid.seqno (i, committable))[v]? =
      if v = txid.seqno then some (i, committable) else s.store.pendingTxs[v]? := by
    intro v
    rw [ExtTreeMap.getElem?_insertIfNew]
    by_cases hv : v = txid.seqno
    · subst hv
      rw [if_pos ⟨Std.compare_eq_iff_eq.2 rfl, hnew⟩, if_pos rfl]
    · rw [if_neg (fun h => hv (Std.compare_eq_iff_eq.1 h.1).symm), if_neg hv]
  generalize ht : s.store.pendingTxs.insertIfNew txid.seqno (i, committable) = t at hinsert
  refine ⟨⟨_, _, _, (drain (s.store.lastReplicated + 1) t).1⟩,
    { s.store with lastCommittable := _, pendingTxs := (drain (s.store.lastReplicated + 1) t).2 },
    (if_neg hok).trans (by rw [ht]), rfl, rfl, rfl, rfl, rfl, fun v => ?_, fun n p hp => ?_, ?_⟩
  · simp only [getElem?_drain_snd, hinsert]
    refine if_congr ⟨fun h => ⟨?_, ?_⟩, fun h => ⟨?_, ?_⟩⟩ rfl rfl <;> omega
  · have := getElem?_drain_fst hp
    rwa [hinsert, Nat.add_right_comm] at this
  · simp only [getElem?_drain_snd]
    rw [if_neg (by omega), ← drain_missing (s.store.lastReplicated + 1), Nat.add_right_comm]

/-- The state after `enqueue`. -/
def joined (s : Replication) (i : ℕ) (txid : TxID) (committable : Bool) (c : CommitCall ℕ) (b : Bookkeeping ℕ) :
    Replication :=
  { s with
    txs := update s.txs i (.called txid committable)
    store := b
    call := if c.contiguousPendingTxs = [] then none else some (c, false) }

section
variable {committable : Bool} {c : CommitCall ℕ} {b : Bookkeeping ℕ}

theorem Enqueued.front_handed (e : s.Enqueued i txid committable c b) :
    (s.joined i txid committable c b).front = s.store.lastReplicated + c.contiguousPendingTxs.length ∧
      (s.joined i txid committable c b).handed = s.store.lastReplicated := by
  unfold front handed joined
  by_cases hempty : c.contiguousPendingTxs = []
  · simp [hempty, e.replicated]
  · have hsame : b.lastReplicated = c.previousLastReplicated ∧ c.previousRollbackCount = b.rollbackCount :=
      ⟨e.replicated.trans e.previous.symm, e.prevCount.trans e.count.symm⟩
    simp only [if_neg hempty, lastReplicated_finish hsame, e.previous, e.replicated, and_self]

theorem Inv.joined (k : s.Inv) (hi : s.txs i = .assigned txid) (hcall : s.call = none)
    (howner : s.owners[txid.seqno - 1]? = some (some i)) (e : s.Enqueued i txid committable c b) :
    (s.joined i txid committable c b).Inv := by
  obtain ⟨hfront, hhanded⟩ := e.front_handed
  have hfront₀ : s.front = s.store.lastReplicated := by simp [front, hcall]
  have hhanded₀ : s.handed = s.store.lastReplicated := by simp [handed, hcall]
  obtain ⟨txid', htxid, hseqno⟩ := k.owner _ _ howner
  obtain rfl : txid = txid' := by
    rw [hi] at htxid
    exact some.inj htxid
  -- the transaction has not been passed
  have hnot : ¬s.Called i := by
    rintro ⟨t, g, h⟩
    rw [hi] at h
    cases h
  have hafter : s.store.lastReplicated < txid.seqno := by
    have := mt (k.passed _ _ howner).2 fun hmem => hnot (k.called i hmem)
    omega
  have hself : (s.joined i txid committable c b).txs i = .called txid committable := update_self _ _ _
  have hother : ∀ {j}, j ≠ i → (s.joined i txid committable c b).txs j = s.txs j :=
    fun h => update_of_ne h _ _
  have hcalled : ∀ {j t g}, s.txs j = .called t g → (s.joined i txid committable c b).txs j = .called t g := by
    intro j t g h
    rw [hother (fun heq => hnot ⟨t, g, heq ▸ h⟩), h]
  -- what the queue holds, taken out or not
  have hqueue : ∀ {v j g}, (if v = txid.seqno then some (i, committable) else s.store.pendingTxs[v]?) = some (j, g) →
      s.store.lastReplicated < v ∧ s.owners[v - 1]? = some (some j) ∧
        ∃ view, (s.joined i txid committable c b).txs j = .called ⟨view, v⟩ g := by
    intro v j g h
    split_ifs at h with hv
    · cases h
      subst hv
      exact ⟨hafter, howner, txid.view, hself⟩
    · obtain ⟨hlt, ho, view, ht⟩ := k.queued v j g h
      exact ⟨hfront₀ ▸ hlt, ho, view, hcalled ht⟩
  have hdequeued : ∀ (n j : ℕ) (g : Bool), c.contiguousPendingTxs[n]? = some (j, g) →
      s.owners[s.store.lastReplicated + n]? = some (some j) ∧
        ∃ view, (s.joined i txid committable c b).txs j = .called ⟨view, s.store.lastReplicated + n + 1⟩ g :=
    fun n j g h => (hqueue (e.taken n _ h)).2
  constructor
  · exact k.length.trans e.version.symm
  · intro n j h
    obtain ⟨t, ht, hn⟩ := k.owner n j h
    by_cases hj : j = i
    · subst hj
      rw [hi] at ht
      exact ⟨t, by rw [hself, ← ht]; rfl, hn⟩
    · exact ⟨t, by rw [hother hj, ht], hn⟩
  · intro n h
    rw [hhanded, ← hhanded₀]
    exact k.foreign n h
  · intro v j g h
    have hpending := e.pending v
    rw [show b.pendingTxs[v]? = some (j, g) from h] at hpending
    by_cases hrange : s.store.lastReplicated < v ∧ v ≤ s.store.lastReplicated + c.contiguousPendingTxs.length
    · rw [if_pos hrange] at hpending
      cases hpending
    · rw [if_neg hrange] at hpending
      obtain ⟨hlt, hrest⟩ := hqueue hpending.symm
      exact ⟨by omega, hrest⟩
  · rw [hfront]
    exact e.missing
  · intro c' h
    have hc : c' = c := by
      unfold Replication.joined at h
      split_ifs at h
      cases h
      rfl
    subst hc
    refine ⟨e.previous.trans e.replicated.symm, e.prevCount.trans e.count.symm, fun n j g hn => ?_⟩
    have hr : (s.joined i txid committable c' b).store.lastReplicated = s.store.lastReplicated := e.replicated
    rw [hr]
    exact hdequeued n j g hn
  · intro c' f h
    unfold Replication.joined at h
    split_ifs at h
    cases h
    exact (e.prevCount.trans e.count.symm).le
  · rw [hfront, show (s.joined i txid committable c b).store.version = s.store.version from e.version]
    rcases Nat.eq_zero_or_pos c.contiguousPendingTxs.length with hzero | hpos
    · rw [hzero, ← hfront₀]
      exact k.front_le
    · obtain ⟨⟨j, g⟩, hj⟩ : ∃ p, c.contiguousPendingTxs[c.contiguousPendingTxs.length - 1]? = some p :=
        ⟨_, getElem?_eq_getElem (Nat.sub_lt hpos Nat.one_pos)⟩
      have := (List.getElem?_eq_some_iff.1 (hdequeued _ j g hj).1).1
      have := k.length
      omega
  · intro n j h hc
    rw [hfront, show (s.joined i txid committable c b).store.pendingTxs = b.pendingTxs from rfl, e.pending]
    by_cases hj : j = i
    · subst hj
      obtain ⟨t, ht, hn⟩ := k.owner n j h
      obtain rfl : txid = t := by
        rw [hi] at ht
        exact some.inj ht
      rw [if_pos hn.symm]
      split_ifs
      · omega
      · exact .inr rfl
    · obtain ⟨t, g, ht⟩ := hc
      rcases k.covered n j h ⟨t, g, (hother hj).symm.trans ht⟩ with hlt | hsome
      · omega
      · split_ifs
        · omega
        · exact .inr rfl
        · exact .inr hsome
  · intro j hj
    obtain ⟨t, g, ht⟩ := k.called j hj
    exact ⟨t, g, hcalled ht⟩
  · intro n j h
    rw [hhanded, ← hhanded₀]
    exact k.passed n j h
  · exact k.once

end

include k

theorem Inv.commit {committable : Bool} (ho : s.Orderly (.commit i committable)) : (s.commit i committable).Inv := by
  unfold Replication.commit
  split
  case h_1 txid hi hcall =>
      have hrefuses := ho txid (by rw [hi]; rfl)
      by_cases howner : s.owners[txid.seqno - 1]? = some (some i)
      · obtain ⟨c, b, hq, e⟩ := k.enqueued committable hi howner fun h => hrefuses.1 h howner
        simp only [hq]
        exact k.joined hi hcall howner e
      · simp only [enqueue, if_pos (hrefuses.2 howner)]
        exact k.refused committable hi howner
  case h_2 => exact k

theorem Inv.replicate {fails : Option ℕ} {accepted : Bool} (ho : s.Orderly (.replicate fails accepted)) :
    (s.replicate fails accepted).Inv := by
  obtain ⟨rfl, rfl⟩ := ho
  unfold Replication.replicate
  split
  case h_2 => exact k
  case h_1 c hcall =>
  have hd := k.dequeued c hcall
  simp only [any_none, Bool.false_eq_true, if_false, if_true]
  generalize hs' : ({ s with passed := s.passed ++ [c.batch], call := some (c, true) } : Replication) = s'
  have htxs : s'.passedTxs = s.passedTxs ++ c.contiguousPendingTxs.map Prod.fst := by
    rw [← hs', passedTxs, flatten_append, map_append, flatten_singleton, CommitCall.batch,
      map_tx_batchFrom, passedTxs]
  have hfront₀ : s.front = s.store.lastReplicated + c.contiguousPendingTxs.length := by
    simp only [front, hcall, hd.finish]
  have hhanded₀ : s.handed = s.store.lastReplicated := by simp only [handed, hcall]
  have hfront : s'.front = s.front := by simp only [← hs', front, hcall]
  have hhanded : s'.handed = s.front := by simp only [← hs', handed, front, hcall]
  -- a transaction of the batch has its version there
  have hplace : ∀ {n j g m}, c.contiguousPendingTxs[n]? = some (j, g) → s.owners[m]? = some (some j) →
      m = s.store.lastReplicated + n := by
    intro n j g m hn hm
    obtain ⟨t, ht, hseqno⟩ := k.owner m j hm
    obtain ⟨-, view, hcalled⟩ := hd.txs n j g hn
    rw [hcalled] at ht
    cases ht
    simp only at hseqno
    omega
  have hmem : ∀ {n j}, s.owners[n]? = some (some j) → (j ∈ c.contiguousPendingTxs.map Prod.fst ↔
      s.store.lastReplicated ≤ n ∧ n < s.store.lastReplicated + c.contiguousPendingTxs.length) := by
    intro n j hn
    constructor
    · intro h
      obtain ⟨⟨j', g⟩, hp, rfl⟩ := mem_map.1 h
      obtain ⟨m, hm⟩ := mem_iff_getElem?.1 hp
      have := hplace hm hn
      have := (List.getElem?_eq_some_iff.1 hm).1
      omega
    · rintro ⟨hle, hlt⟩
      obtain ⟨m, rfl⟩ := Nat.exists_eq_add_of_le hle
      obtain ⟨⟨j', g⟩, hm⟩ : ∃ p, c.contiguousPendingTxs[m]? = some p := ⟨_, getElem?_eq_getElem (by omega)⟩
      have ho := (hd.txs m j' g hm).1
      rw [hn] at ho
      cases ho
      exact mem_map.2 ⟨(j, g), mem_of_getElem? hm, rfl⟩
  subst hs'
  constructor
  · exact k.length
  · exact k.owner
  · intro n h
    rw [hhanded]
    exact (k.foreign n h).trans_le k.handed_le_front
  · rw [hfront]
    exact k.queued
  · rw [hfront]
    exact k.missing
  · intro c' h
    cases h
  · intro c' f h
    cases h
    exact hd.count.le
  · rw [hfront]
    exact k.front_le
  · rw [hfront]
    exact k.covered
  · intro j hj
    rw [htxs, mem_append] at hj
    rcases hj with hj | hj
    · exact k.called j hj
    · obtain ⟨⟨j', g⟩, hp, rfl⟩ := mem_map.1 hj
      obtain ⟨m, hm⟩ := mem_iff_getElem?.1 hp
      obtain ⟨-, view, ht⟩ := hd.txs m j' g hm
      exact ⟨_, g, ht⟩
  · intro n j h
    rw [htxs, hhanded, hfront₀, mem_append, k.passed n j h, hmem h, hhanded₀]
    omega
  · rw [htxs]
    refine List.Nodup.append k.once ?_ ?_
    · rw [nodup_iff_getElem?_ne_getElem?]
      intro m n hmn hn heq
      obtain ⟨⟨j, g⟩, hj⟩ : ∃ p, c.contiguousPendingTxs[m]? = some p :=
        ⟨_, getElem?_eq_getElem (by simp at hn; omega)⟩
      obtain ⟨⟨j', g'⟩, hj'⟩ : ∃ p, c.contiguousPendingTxs[n]? = some p :=
        ⟨_, getElem?_eq_getElem (by simpa using hn)⟩
      rw [getElem?_map, getElem?_map, hj, hj'] at heq
      cases heq
      have := hplace hj (hd.txs n j g' hj').1
      omega
    · intro j hj hj'
      obtain ⟨⟨j', g⟩, hp, rfl⟩ := mem_map.1 hj'
      obtain ⟨m, hm⟩ := mem_iff_getElem?.1 hp
      have := (k.passed _ _ (hd.txs m j' g hm).1).1 hj
      omega

theorem Inv.finishCall : s.finishCall.Inv := by
  unfold Replication.finishCall
  split
  case h_2 => exact k
  case h_1 c hcall =>
  have hfields : (s.store.finish c).version = s.store.version ∧
      (s.store.finish c).pendingTxs = s.store.pendingTxs := by
    unfold finish
    split_ifs <;> exact ⟨rfl, rfl⟩
  refine k.extend (.inl rfl) hfields.1 hfields.2 (append_nil _).symm rfl (.inr ⟨rfl, ?_, ?_⟩) fun _ => .inl rfl
  · simp only [front, hcall]
  · simp only [handed, hcall]

theorem Inv.rollback (ho : s.Orderly (.rollback txid term)) : (s.rollback txid term).Inv := by
  unfold Replication.rollback
  cases hok : s.store.rollback txid term with
  | error e => exact k
  | ok b =>
    simp only
    rcases rollback_cases hok with ⟨hle, rfl⟩ | ⟨hlt, hversion, hreplicated, hcount, hpending⟩
    · refine k.congr rfl rfl rfl rfl ?_ rfl rfl rfl
      rw [take_of_length_le (k.length.trans_le hle)]
    · obtain ⟨hcall, hseqno⟩ := ho.resolve_left (not_le.2 hlt)
      generalize hs' : ({ s with store := b, owners := s.owners.take txid.seqno } : Replication) = s'
      -- a call under way will find the rollback count changed
      have hboth : s'.front = txid.seqno ∧ s'.handed = txid.seqno := by
        subst hs'
        unfold front handed
        match hc : s.call with
        | none => exact ⟨hreplicated, hreplicated⟩
        | some (c, false) => rw [hc] at hcall; cases hcall
        | some (c, true) =>
          have hne : ¬(b.lastReplicated = c.previousLastReplicated ∧ c.previousRollbackCount = b.rollbackCount) := by
            have := k.count c true hc
            omega
          have hsame : (b.finish c).lastReplicated = txid.seqno := by
            rw [finish, if_neg hne, hreplicated]
          exact ⟨hsame, hsame⟩
      obtain ⟨hfront, hhanded⟩ := hboth
      have howners : ∀ {n : ℕ} {o}, s'.owners[n]? = some o → n < txid.seqno ∧ s.owners[n]? = some o := by
        intro n o h
        rw [← hs', getElem?_take] at h
        split_ifs at h with hn
        exact ⟨hn, h⟩
      have hempty : s'.store.pendingTxs = ∅ := by rw [← hs']; exact hpending
      constructor
      · rw [← hs', length_take, k.length, hversion]
        exact min_eq_left hlt.le
      · intro n i h
        obtain ⟨t, ht, hn⟩ := k.owner n i (howners h).2
        exact ⟨t, hs' ▸ ht, hn⟩
      · intro n h
        exact hhanded ▸ (howners h).1
      · intro v i g h
        simp [hempty] at h
      · simp [hempty]
      · intro c h
        rw [← hs'] at h
        rw [h] at hcall
        cases hcall
      · intro c f h
        have := k.count c f (by rw [← hs'] at h; exact h)
        rw [← hs', hcount]
        exact this.trans (Nat.le_succ _)
      · rw [hfront, ← hs', hversion]
      · intro n i h _
        exact .inl (hfront ▸ (howners h).1)
      · intro i h
        subst hs'
        exact k.called i h
      · intro n i h
        obtain ⟨hn, ho⟩ := howners h
        have hpassed := k.passed n i ho
        rw [show s'.passedTxs = s.passedTxs by rw [← hs']; rfl, hhanded, hpassed]
        exact iff_of_true (hn.trans_le hseqno) hn
      · subst hs'
        exact k.once

theorem Inv.step (ho : s.Orderly a) : (s.step a).Inv := by
  cases a with
  | begin i => exact k.begin i
  | assign i =>
    unfold Replication.step
    simp only
    split
    case h_1 view hi => exact k.assignAt view (by rw [hi]; rfl)
    case h_2 => exact k
  | reserve i =>
    unfold Replication.step
    simp only
    split
    case h_1 hi => exact k.assignAt _ (by rw [hi]; rfl)
    case h_2 => exact k
  | commit i committable => exact k.commit ho
  | replicate fails accepted => exact k.replicate ho
  | finish => exact k.finishCall
  | rollback txid term => exact k.rollback ho
  | compact v =>
    unfold Replication.step
    simp only
    split_ifs
    · exact k
    · exact k.congr rfl rfl rfl rfl rfl rfl rfl rfl
  | setPrimary isPrimary => exact k.congr rfl rfl rfl rfl rfl rfl rfl rfl

omit k

/-! ### What is passed -/

theorem passed_step (s : Replication) (a : Action) : (s.step a).passed = s.passed ∨
      ∃ c, s.call = some (c, false) ∧ (s.step a).passed = s.passed ++ [c.batch] := by
  cases a with
  | begin i | assign i | reserve i => unfold step; simp only; split <;> exact .inl rfl
  | commit i committable =>
    refine .inl ?_
    simp only [step, commit]
    split
    · split <;> rfl
    · rfl
  | replicate fails accepted =>
    simp only [step, replicate]
    match hcall : s.call with
    | some (c, false) =>
      simp only
      split_ifs
      · exact .inl rfl
      · exact .inr ⟨c, rfl, rfl⟩
      · exact .inr ⟨c, rfl, rfl⟩
    | some (c, true) => exact .inl rfl
    | none => exact .inl rfl
  | finish =>
    simp only [step, finishCall]
    split <;> exact .inl rfl
  | rollback txid term =>
    simp only [step, rollback]
    split <;> exact .inl rfl
  | compact v =>
    simp only [step]
    split_ifs <;> exact .inl rfl
  | setPrimary isPrimary => exact .inl rfl

theorem Inv.inOrder (k : s.Inv) (a : Action) : s.InOrder (s.step a) := by
  rcases passed_step s a with h | ⟨c, hcall, h⟩
  · exact .inl h
  · have hd := k.dequeued c hcall
    refine .inr ⟨c.batch, h, ?_, fun e he => ?_⟩
    · have hversions := map_version_batchFrom (c.previousLastReplicated + 1) c.contiguousPendingTxs
      have hlength := congrArg List.length hversions
      rw [length_map, length_range'] at hlength
      rw [CommitCall.batch, hlength, hversions, hd.previous]
    · obtain ⟨n, hversion, hn⟩ := mem_batchFrom he
      obtain ⟨ho, view, ht⟩ := hd.txs n e.tx e.committable hn
      rw [hd.previous, Nat.add_right_comm] at hversion
      rw [hversion]
      exact ⟨ho, view, ht⟩

/-- **Replication order** in every run whose steps are orderly: contiguous batches of surviving versions, no
transaction twice and none left behind. -/
theorem passed_along_run {v : ℕ} {actions : List Action} (h : Along step Orderly (init v term) actions) :
    (exec step (init v term) actions).Ordered ∧
      Along step (fun s a => s.InOrder (s.step a)) (init v term) actions := by
  have hinv : ∀ {actions}, Along step Orderly (init v term) actions → (exec step (init v term) actions).Inv :=
    fun h => exec_induction (I := Inv) (fun _ _ k ho => k.step ho) (inv_init v term) h
  refine ⟨(hinv h).ordered, along_iff.2 fun n a _ => ?_⟩
  exact (hinv (h.take n)).inOrder a

/-- Three transactions and a signature that arrive out of order, with a rollback between. -/
def reorderingRun : List Action :=
  [.begin 1, .begin 2, .begin 3, .assign 1, .assign 2, .assign 3, .commit 2 false, .commit 3 false,
    .commit 1 false, .replicate none true, .rollback ⟨2, 6⟩ 3, .finish, .reserve 4, .commit 4 true,
    .replicate none true, .finish]

theorem passed_along_reorderingRun :
    Along step Orderly (init 5 2) reorderingRun ∧ (exec step (init 5 2) reorderingRun).Ordered :=
  ⟨by decide +kernel, (passed_along_run (by decide +kernel)).1⟩

/-- A transaction begins in view 2 and commits in view 3, on a primary that nothing was rolled back on; another
one follows. -/
def staleViewRun : List Action :=
  [.begin 1, .rollback ⟨2, 0⟩ 3, .assign 1, .commit 1 false, .begin 2, .assign 2, .commit 2 false]

/-- The version of a transaction that commits in a later view is never passed, nor are its successors. -/
theorem not_passed_along_run :
    ¬∀ (v term : ℕ) (actions : List Action), (exec step (init v term) actions).Ordered ∧
      Along step (fun s a => s.InOrder (s.step a)) (init v term) actions := by
  intro h
  have hcomplete := (h 0 2 staleViewRun).1.complete (by decide +kernel) 1 2 (by decide +kernel)
  have hcalled : ∀ m ≤ 1, ∀ j, (exec step (init 0 2) staleViewRun).owners[m]? = some (some j) →
      (exec step (init 0 2) staleViewRun).Called j := by
    intro m hm j hj
    have howners : (exec step (init 0 2) staleViewRun).owners = [some 1, some 2] := by decide +kernel
    rw [howners] at hj
    match m, hm with
    | 0, _ =>
      obtain rfl : 1 = j := by simpa using hj
      exact ⟨⟨2, 1⟩, false, by decide +kernel⟩
    | 1, _ =>
      obtain rfl : 2 = j := by simpa using hj
      exact ⟨⟨3, 2⟩, false, by decide +kernel⟩
  have hnone : (exec step (init 0 2) staleViewRun).passedTxs = [] := by decide +kernel
  have hpassed := hcomplete hcalled
  cases hpassed

end Replication
end Ccf.Kv
