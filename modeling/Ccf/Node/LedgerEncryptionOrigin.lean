import Ccf.Node.LedgerEncryption

/-! # Where encrypted entries come from

A transaction waits in the queue of its store under its version (`Keyed`), and keeps its view and version. A snapshot
taken when no map has been created after its version, from maps whose keys have different hashes, is a function of
the log (`SnapshotOf.eq`).

`Origin` says what an encrypted record is of: an entry of the log of the leader of a view, or a committed log. -/

namespace Ccf.Node.LedgerEncryption

open Function Kv SignedRaft ViewHistory Replication

/-! ### Versions of queued transactions -/

/-- Queued transactions wait under their versions. -/
structure Keyed (s : Replication) : Prop where
  pending : ∀ (v k : ℕ) (b : Bool), s.store.pendingTxs[v]? = some (k, b) →
    ∃ view committable, s.txs k = .called ⟨view, v⟩ committable
  call : ∀ c b, s.call = some (c, b) → ∀ e ∈ c.batch,
    ∃ view committable, s.txs e.tx = .called ⟨view, e.version⟩ committable

variable {txid : TxID}

section
variable {s s' : Replication} {i : ℕ}

theorem Keyed.of_txs (h : Keyed s) (hpending : s'.store.pendingTxs = s.store.pendingTxs ∨ s'.store.pendingTxs = ∅)
    (hcall : s'.call = none ∨ ∃ c b b', s.call = some (c, b) ∧ s'.call = some (c, b'))
    (htxs : ∀ k txid committable, s.txs k = .called txid committable → s'.txs k = .called txid committable) :
    Keyed s' where
  pending := by
    intro v k b hb
    rcases hpending with hpending | hpending
    · rw [hpending] at hb
      obtain ⟨view, committable, hk⟩ := h.pending v k b hb
      exact ⟨view, committable, htxs _ _ _ hk⟩
    · rw [hpending] at hb
      simp at hb
  call := by
    intro c b hb e he
    rcases hcall with hcall | ⟨c', b', b'', hc, hcall⟩
    · rw [hcall] at hb
      cases hb
    · rw [hcall] at hb
      cases hb
      obtain ⟨view, committable, hk⟩ := h.call c b' hc e he
      exact ⟨view, committable, htxs _ _ _ hk⟩

/-- Steps that leave the queue alone. -/
theorem Keyed.same (h : Keyed s) (hpending : s'.store.pendingTxs = s.store.pendingTxs) (hcall : s'.call = s.call)
    (htxs : ∀ k txid committable, s.txs k = .called txid committable → s'.txs k = .called txid committable) :
    Keyed s' := by
  refine h.of_txs (.inl hpending) ?_ htxs
  cases hc : s.call with
  | none => exact .inl (hcall.trans hc)
  | some p => exact .inr ⟨p.1, p.2, p.2, rfl, hcall.trans hc⟩

theorem update_called {txs : ℕ → Stage} {stage : Stage} (hi : ∀ txid committable, txs i ≠ .called txid committable)
    (k : ℕ) (txid : TxID) (committable : Bool) (hk : txs k = .called txid committable) :
    update txs i stage k = .called txid committable := by
  have hne : k ≠ i := by
    rintro rfl
    exact hi _ _ hk
  rw [update_of_ne hne]
  exact hk

/-- What is in the queue or taken off it was there before, or has just come. -/
theorem enqueue_eq_some {b b' : Bookkeeping ℕ} {isPrimary : Bool} {globallyCommittable : Bool}
    {c : CommitCall ℕ} (h : b.enqueue isPrimary txid i globallyCommittable = some (c, b')) :
    (∀ (v : ℕ) p, b'.pendingTxs[v]? = some p →
      (b.pendingTxs.insertIfNew txid.seqno (i, globallyCommittable))[v]? = some p) ∧
    ∀ (n : ℕ) p, c.contiguousPendingTxs[n]? = some p →
      (b.pendingTxs.insertIfNew txid.seqno (i, globallyCommittable))[c.previousLastReplicated + 1 + n]? = some p := by
  unfold Bookkeeping.enqueue at h
  generalize b.pendingTxs.insertIfNew txid.seqno (i, globallyCommittable) = t at h ⊢
  by_cases hview : txid.view ≠ b.termOfNextVersion ∧ isPrimary = true
  · rw [if_pos hview] at h
    cases h
  · rw [if_neg hview] at h
    cases h
    refine ⟨fun v p hp => ?_, fun n p hp => getElem?_drain_fst hp⟩
    have hdrained : (drain (b.lastReplicated + 1) t).2[v]? = some p := hp
    rw [getElem?_drain_snd] at hdrained
    split_ifs at hdrained
    exact hdrained

theorem Keyed.commit (h : Keyed s) (i : ℕ) (globallyCommittable : Bool) : Keyed (s.commit i globallyCommittable) := by
  unfold Replication.commit
  split
  · rename_i txid hi hcall
    have htxs : ∀ k txid' committable, s.txs k = .called txid' committable →
        update s.txs i (.called txid globallyCommittable) k = .called txid' committable :=
      update_called (by rw [hi]; rintro _ _ ⟨⟩)
    dsimp only
    split
    · exact h.same rfl rfl htxs
    · rename_i c b heq
      obtain ⟨hpending, htaken⟩ := enqueue_eq_some heq
      -- what is in the table after the insertion is keyed
      have hkeyed : ∀ (v k : ℕ) (b : Bool),
          (s.store.pendingTxs.insertIfNew txid.seqno (i, globallyCommittable))[v]? = some (k, b) →
          ∃ view committable, update s.txs i (.called txid globallyCommittable) k = .called ⟨view, v⟩ committable := by
        intro v k b hb
        rw [Std.ExtTreeMap.getElem?_insertIfNew] at hb
        split_ifs at hb with hnew
        · obtain rfl := Std.compare_eq_iff_eq.1 hnew.1
          cases hb
          exact ⟨txid.view, globallyCommittable, update_self _ _ _⟩
        · obtain ⟨view, committable, hk⟩ := h.pending v k b hb
          exact ⟨view, committable, htxs _ _ _ hk⟩
      refine ⟨fun v k b hb => hkeyed v k b (hpending v _ hb), fun c' b' hc e he => ?_⟩
      split_ifs at hc
      cases hc
      obtain ⟨n, hversion, hp⟩ := mem_batchFrom he
      rw [hversion]
      exact hkeyed _ e.tx e.committable (htaken n _ hp)
  · exact h

theorem Keyed.step (h : Keyed s) (x : Replication.Action) : Keyed (s.step x) := by
  cases x with
  | begin i | assign i | reserve i =>
    simp only [Replication.step]
    split
    · rename_i hi
      exact h.same rfl rfl (update_called (by rw [hi]; rintro _ _ ⟨⟩))
    · exact h
  | commit i globallyCommittable => exact h.commit i globallyCommittable
  | replicate fails accepted =>
    simp only [Replication.step, Replication.replicate]
    split
    · rename_i c hc
      split_ifs
      · exact h.of_txs (.inl rfl) (.inl rfl) fun _ _ _ hk => hk
      · exact h.of_txs (.inl rfl) (.inr ⟨c, false, true, hc, rfl⟩) fun _ _ _ hk => hk
      · exact h.of_txs (.inl rfl) (.inl rfl) fun _ _ _ hk => hk
    · exact h
  | finish =>
    simp only [Replication.step, Replication.finishCall]
    split
    · refine h.of_txs (.inl ?_) (.inl rfl) fun _ _ _ hk => hk
      dsimp only [Bookkeeping.finish]
      split_ifs <;> rfl
    · exact h
  | rollback txid term =>
    simp only [Replication.step, Replication.rollback]
    split
    · exact h
    · rename_i b hb
      unfold Bookkeeping.rollback at hb
      dsimp only at hb
      have hcall : s.call = none ∨ ∃ c b b', s.call = some (c, b) ∧ s.call = some (c, b') := by
        cases hc : s.call with
        | none => exact .inl rfl
        | some p => exact .inr ⟨p.1, p.2, p.2, rfl, rfl⟩
      split_ifs at hb
      · cases hb
        exact h.of_txs (.inl rfl) hcall fun _ _ _ hk => hk
      · cases hb
        exact h.of_txs (.inr rfl) hcall fun _ _ _ hk => hk
  | compact v =>
    simp only [Replication.step]
    split_ifs
    · exact h
    · exact h.same rfl rfl fun _ _ _ hk => hk
  | setPrimary isPrimary => exact h.same rfl rfl fun _ _ _ hk => hk

end

theorem keyed_init (v term : ℕ) : Keyed (.init v term) :=
  ⟨fun _ _ _ h => by simp [init] at h, nofun⟩

theorem txid?_step {s : Replication} {k : ℕ} (h : (s.txs k).txid? = some txid) (x : Replication.Action) :
    ((s.step x).txs k).txid? = some txid := by
  have hupdate : ∀ (i : ℕ) (stage : Stage), (s.txs i).txid? = none ∨ (s.txs i).txid? = stage.txid? →
      (update s.txs i stage k).txid? = some txid := by
    intro i stage hi
    by_cases hk : k = i
    · subst hk
      rw [update_self]
      rcases hi with hi | hi
      · rw [hi] at h
        cases h
      · rw [← hi, h]
    · rw [update_of_ne hk]
      exact h
  cases x with
  | begin i | assign i | reserve i =>
    simp only [step]
    split
    · rename_i hi
      exact hupdate i _ (.inl (by rw [hi]; rfl))
    · exact h
  | commit i globallyCommittable =>
    simp only [step, commit]
    split
    · rename_i txid' hi hcall
      have := hupdate i (.called txid' globallyCommittable) (.inr (by rw [hi]; rfl))
      split <;> exact this
    · exact h
  | replicate fails accepted =>
    simp only [step, replicate]
    split
    · split_ifs <;> exact h
    · exact h
  | finish =>
    simp only [step, finishCall]
    split <;> exact h
  | rollback txid' term =>
    simp only [Replication.step, Replication.rollback]
    split <;> exact h
  | compact v =>
    simp only [step]
    split_ifs <;> exact h
  | setPrimary isPrimary => exact h

/-! ### Snapshots of committed logs -/

section
variable {T : Tables} {log : List Entry} {r r' : Encrypted}

/-- A state whose keys have different hashes is written in one order. -/
theorem hashOrder_eq {hash : SerialisedEntry → ℕ} {state : Kv.State}
    (hne : state.toList.Pairwise fun x y => hash x.1 ≠ hash y.1) (order order' : EntryOrder) :
    (hashOrder hash order).1 state = (hashOrder hash order').1 state := by
  have hsorted : ∀ order : EntryOrder, ((hashOrder hash order).1 state).Pairwise fun x y => hash x.1 < hash y.1 := by
    intro order
    have hle : ((hashOrder hash order).1 state).Pairwise fun x y => decide (hash x.1 ≤ hash y.1) = true :=
      @List.pairwise_mergeSort _ (fun x y : SerialisedEntry × VersionV => decide (hash x.1 ≤ hash y.1))
        (fun _ _ _ h h' => decide_eq_true (le_trans (of_decide_eq_true h) (of_decide_eq_true h')))
        (fun _ _ => by simpa using le_total _ _) (order.1 state)
    have hperm := ((hashOrder hash order).2 state).symm
    have hne' := hperm.pairwise hne fun h => h.symm
    exact hle.imp₂ (fun x y hle hne => Nat.lt_of_le_of_ne (of_decide_eq_true hle) hne) hne'
  exact List.Perm.eq_of_pairwise (fun x y _ _ hlt hlt' => absurd hlt' (Nat.lt_asymm hlt)) (hsorted order)
    (hsorted order') (((hashOrder hash order).2 state).trans ((hashOrder hash order').2 state).symm)

theorem domainBytes_congr {order order' : Name → EntryOrder} {maps : List (Name × ℕ × Kv.State)}
    (h : ∀ p ∈ maps, (order p.1).1 p.2.2 = (order' p.1).1 p.2.2) (domain : SecurityDomain) :
    StoreSnapshot.domainBytes order domain maps = StoreSnapshot.domainBytes order' domain maps := by
  induction maps with
  | nil => rfl
  | cons p maps ih =>
    obtain ⟨name, version, state⟩ := p
    have hstate : MapSnapshot.serialize (order name) state = MapSnapshot.serialize (order' name) state := by
      unfold MapSnapshot.serialize
      rw [h _ List.mem_cons_self]
    simp only [StoreSnapshot.domainBytes, hstate, ih fun p hp => h p (List.mem_cons_of_mem _ hp)]

/-- The snapshot of a log, with the view history of any log that starts with it. -/
structure SnapshotOf (T : Tables) (log : List Entry) (r : Encrypted) : Prop where
  iv : setIv ⟨0, log.length⟩ .snapshot = some r.iv
  fits : log.length < 2 ^ 64
  content : ∃ (history : ViewHistory) (views : List ℕ), Faithful history views ∧ log.length ≤ views.length ∧
    views.take log.length = log.map Entry.view ∧
    domains ⟨log.length, T.maps log, some (T.rawLeaf log), some (history.getHistoryUntil log.length)⟩
      (fun _ => hashOrder T.hash .ofKeys) = .ok (r.additionalData, r.plain)

theorem SnapshotOf.eq (h : SnapshotOf T log r) (h' : SnapshotOf T log r') :
    r.plain = r'.plain ∧ r.additionalData = r'.additionalData := by
  obtain ⟨history, views, hfaithful, hle, htake, hcontent⟩ := h.content
  obtain ⟨history', views', hfaithful', hle', htake', hcontent'⟩ := h'.content
  have heq := hfaithful.getHistoryUntil_eq hfaithful' hle hle' (htake.trans htake'.symm)
  rw [heq, hcontent'] at hcontent
  obtain ⟨hadditional, hplain⟩ := Prod.mk.inj (Except.ok.inj hcontent)
  exact ⟨hplain.symm, hadditional.symm⟩

/-- What is emitted is an entry of the log of the leader of its view, or a snapshot of a committed log. -/
inductive Origin (T : Tables) (sys : Sys NodeId Entry) (r : Encrypted) : Prop
  | entry (txid : TxID) (hiv : setIv txid .writeSetWithCommitEvidenceAndClaims = some r.iv)
      (hseqno : txid.seqno < 2 ^ 64) (hle : txid.seqno ≤ (sys.tl txid.view).length)
  | snapshot (log : List Entry) (term : ℕ) (hcommitted : sys.Committed log term) (hsnapshot : SnapshotOf T log r)

theorem Origin.later {sys sys' : Sys NodeId Entry} (hl : Later sys sys') (h : Origin T sys r) :
    Origin T sys' r := by
  cases h with
  | entry txid hiv hseqno hle => exact .entry txid hiv hseqno (hle.trans (hl.tl_prefix _).length_le)
  | snapshot log term hcommitted hsnapshot => exact .snapshot log term (hl.committed hcommitted) hsnapshot

/-- Entries and snapshots have different vectors. -/
theorem not_entry_snapshot
    (hiv : setIv txid .writeSetWithCommitEvidenceAndClaims = some r.iv) (hseqno : txid.seqno < 2 ^ 64)
    (hsnapshot : SnapshotOf T log r') (heq : r.iv = r'.iv) : False := by
  have h := (setIv_injective hiv (heq ▸ hsnapshot.iv) hseqno hsnapshot.fits).2
  exact absurd (h.2 rfl) (by decide)

end

end Ccf.Node.LedgerEncryption
