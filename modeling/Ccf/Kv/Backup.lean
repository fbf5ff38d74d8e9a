import Ccf.Kv.Replay

/-! # A primary and a backup

A primary store with its transactions, and a backup that is given the entry of every transaction that commits. Both
may be compacted at any time, each on its own. Both refine the history of the primary (`agree_along_run`). -/

namespace Ccf.Kv

open Versioned Runs
open Std (ExtTreeMap)

namespace Store

/-- The keys of a map with their values and versions of last write. -/
def content (s : Store) (name : Name) : State := (s.obj (s.getMap s.version name)).roll.tail.state

/-- The version a map was created at. -/
def created (s : Store) (name : Name) : Option ℕ := s.maps[name]?.map Prod.fst

/-- Two stores with the same version, view, maps and content. -/
structure Agree (s s' : Store) : Prop where
  version : s'.version = s.version
  view : s'.termOfLastVersion = s.termOfLastVersion
  created : ∀ name, s'.created name = s.created name
  content : ∀ name, s'.content name = s.content name

end Store

structure Replicas where
  primary : System
  backup : Store

namespace Replicas

inductive Action where
  | begin (i : ℕ)
  | openMap (i : ℕ) (name : Name)
  | op (i : ℕ) (name : Name) (op : Op)
  /-- Commit on the primary; `expected` tells whether the backup expects the transaction id. -/
  | commit (i : ℕ) (claimsDigest : Digest) (flags : UInt8) (expected : Bool)
  | compactPrimary (v : ℕ)
  | compactBackup (v : ℕ)

/-- Two empty stores, each in a term and with its hooks set. -/
def init (term backupTerm : ℕ) (hooks backupHooks : Name → Bool) : Replicas :=
  { primary := System.init term hooks, backup := (System.init backupTerm backupHooks).store }

section
variable (e : Encryptor) (evidence : TxID → Digest) (w : Setup)

/-- The entry of transaction `i`, if it commits with writes. -/
def entry (s : Replicas) (i : ℕ) (claimsDigest : Digest) (flags : UInt8) :
    Option (Except CodecFault (TxID × List UInt8)) :=
  match (s.primary.txs i).commit s.primary.store with
  | .ok (some v, t, _) =>
    if v = noVersion then none
    else some ((t.serialise (some e) evidence (some claimsDigest) flags false).map (⟨t.commitView, t.version⟩, ·))
  | _ => none

/-- The wrapper with which the backup executes the entry of `txid`. -/
def wrapper (txid : TxID) (expected : Bool) : Setup :=
  { w with encryptor := some e, publicOnly := false, expectedTxid := if expected then some txid else none }

def step (s : Replicas) : Action → Replicas
  | .begin i => { s with primary := s.primary.step (.begin i) }
  | .openMap i name => { s with primary := s.primary.step (.openMap i name) }
  | .op i name op => { s with primary := s.primary.step (.op i name op) }
  | .commit i claimsDigest flags expected =>
    { primary := s.primary.step (.commit i)
      backup :=
        match s.entry e evidence i claimsDigest flags with
        | some (.ok (txid, data)) => (s.backup.apply (wrapper e w txid expected) data false).2
        | _ => s.backup }
  | .compactPrimary v => { s with primary := s.primary.step (.compact v) }
  | .compactBackup v => { s with backup := s.backup.compact v }

/-- Every commit has an entry, with a version of 64 bits, and compaction does not go back. -/
def Ships (s : Replicas) : Action → Prop
  | .commit i claimsDigest flags _ =>
    ∀ r ∈ s.entry e evidence i claimsDigest flags, ∃ x ∈ r.toOption, x.1.seqno < 2 ^ 64
  | .compactPrimary v => s.primary.store.compacted ≤ v
  | .compactBackup v => s.backup.compacted ≤ v
  | _ => True

instance (s : Replicas) (a : Action) : Decidable (s.Ships e evidence a) := by
  cases a <;> unfold Ships <;> infer_instance

end

end Replicas

/-! ### Stores with one history -/

namespace Store

variable {s s' b p : Store} {h : WriteHistory} {txid : TxID} {d : Name → Write}

theorem Refines.content_eq (k : s.Refines h) (name : Name) : s.content name = h.tableAt h.version name := by
  rw [content, k.getMap_eq le_rfl]
  cases hr : s.ref? name with
  | none => exact (k.absent (ref?_eq_none.1 hr) _ h.base_le_version le_rfl).symm
  | some r =>
    obtain ⟨c, hc⟩ := ref?_eq_some.1 hr
    exact (k.keeps hc).tail_state

theorem Refines.agree (kp : p.Refines h) (kb : b.Refines h)
    (hview : b.termOfLastVersion = p.termOfLastVersion) (hcreated : ∀ name, b.created name = p.created name) :
    Agree p b where
  version := kb.version.symm.trans kp.version
  view := hview
  created := hcreated
  content name := (kb.content_eq name).trans (kp.content_eq name).symm

theorem Committed.created_eq {v : ℕ} (k : Committed s s' v d) (name : Name) :
    s'.created name = (s.created name).or (if d name = ∅ then none else some v) := by
  unfold Store.created
  cases hs : s.maps[name]? with
  | some p =>
    rw [(k.kept (c := p.1) (r := p.2) hs).1]
    rfl
  | none =>
    by_cases hempty : d name = ∅
    · rw [k.absent hs hempty, if_pos hempty]
      rfl
    · obtain ⟨r, -, hr, -⟩ := k.created hs hempty
      rw [hr, if_neg hempty]
      rfl

variable {term : ℕ}

theorem Refines.created_rollback (k : s.Refines h) (hok : s.rollback txid term = .ok s')
    (name : Name) : s'.created name = (s.created name).filter (· ≤ txid.seqno) := by
  obtain ⟨-, -, -, ⟨hle, rfl⟩ | ⟨-, -, heq⟩⟩ := rollback_cases hok
  · unfold Store.created
    cases hs : s.maps[name]? with
    | none => rfl
    | some p =>
      have hp := (k.created_le (c := p.1) (r := p.2) hs).trans hle
      rw [Option.map_some, Option.filter_some_pos (by simpa using hp)]
  · rw [heq]
    unfold Store.created
    simp only [rolledBack, ExtTreeMap.getElem?_filter']
    rw [Option.filter_map]
    rfl

theorem rollback_ok (hc : s.compacted ≤ txid.seqno) : ∃ s', s.rollback txid term = .ok s' := by
  unfold Store.rollback Bookkeeping.rollback
  simp only [if_neg (not_lt.2 hc)]
  split_ifs
  · exact ⟨_, rfl⟩
  · exact ⟨_, rfl⟩

theorem compact_kept (s : Store) (v : ℕ) : (s.compact v).maps = s.maps ∧
    (s.compact v).termOfLastVersion = s.termOfLastVersion ∧ (s.compact v).termOfNextVersion = s.termOfNextVersion := by
  unfold Store.compact
  split_ifs <;> exact ⟨rfl, rfl, rfl⟩

/-- Two stores with one history agree also after a rollback of both. -/
theorem Refines.agree_rollback (kp : p.Refines h) (kb : b.Refines h) (hbase : h.base = 0)
    (hcreated : ∀ name, b.created name = p.created name) (term : ℕ) (hp : p.compacted ≤ txid.seqno)
    (hb : b.compacted ≤ txid.seqno) :
    ∃ p' b', p.rollback txid term = .ok p' ∧ b.rollback txid term = .ok b' ∧ Agree p' b' := by
  obtain ⟨p', hp'⟩ : ∃ p', p.rollback txid term = .ok p' := rollback_ok hp
  obtain ⟨b', hb'⟩ : ∃ b', b.rollback txid term = .ok b' := rollback_ok hb
  have hle : h.base ≤ txid.seqno := hbase ▸ Nat.zero_le _
  refine ⟨p', b', hp', hb', (kp.rollback hp' hle).agree (kb.rollback hb' hle) ?_ fun name => ?_⟩
  · rw [(rollback_cases hb').2.1, (rollback_cases hp').2.1]
  · rw [kb.created_rollback hb', kp.created_rollback hp', hcreated]

end Store

/-! ### Open transactions -/

/-- The maps that the transaction has opened are those of the store, and its view is the store's. -/
structure Tx.Open (t : Tx) (s : Store) : Prop where
  maps : ∀ (name : Name) (mc : MapChanges) (r : ℕ), t.allChanges[name]? = some mc → mc.map = some r →
    ∃ c, s.maps[name]? = some (c, r)
  fresh : t.readTxid = none → t.allChanges = ∅
  view : t.readTxid ≠ none → t.commitView = s.termOfNextVersion

namespace Tx

variable {t t' : Tx} {s s' : Store}

theorem open_begin (s : Store) : ({} : Tx).Open s where
  maps name mc r hmc := by simp at hmc
  fresh _ := rfl
  view h := absurd rfl h

/-- As long as the store keeps its maps and its term. -/
theorem Open.later (k : t.Open s) (hmaps : ∀ (name : Name) (c r : ℕ), s.maps[name]? = some (c, r) →
    s'.maps[name]? = some (c, r)) (hterm : s'.termOfNextVersion = s.termOfNextVersion) : t.Open s' where
  maps name mc r hmc hr := by
    obtain ⟨c, hc⟩ := k.maps name mc r hmc hr
    exact ⟨c, hmaps name c r hc⟩
  fresh := k.fresh
  view h := (k.view h).trans hterm.symm

theorem Open.acquire (k : t.Open s) : (t.acquire s).Open s ∧ (t.acquire s).readTxid ≠ none := by
  unfold Tx.acquire
  cases ht : t.readTxid with
  | some txid => exact ⟨k, by rw [ht]; simp⟩
  | none => exact ⟨⟨k.maps, fun h => absurd h (by simp), fun _ => rfl⟩, by simp⟩

theorem Open.openMap (k : t.Open s) (name : Name) : (t.openMap s name).2.Open s := by
  unfold Tx.openMap
  split_ifs
  · exact k
  · obtain ⟨hopen, hsome⟩ := k.acquire
    generalize t.acquire s = t at *
    simp only [getMapAndChangeSet]
    cases (s.obj (s.getMap t.readSeqno name)).roll.createChangeSet t.readSeqno false with
    | none => exact hopen
    | some cs =>
      refine ⟨fun a mc r hmc hr => ?_, fun h => absurd h hsome, hopen.view⟩
      simp only [ExtTreeMap.getElem?_insert, Std.compare_eq_iff_eq] at hmc
      split_ifs at hmc with ha
      · cases hmc
        obtain ⟨c, hc, -⟩ := Store.getMap_eq_some hr
        exact ⟨c, ha ▸ hc⟩
      · exact hopen.maps a mc r hmc hr

theorem committed_openMap (t : Tx) (s : Store) (name : Name) : (t.openMap s name).2.committed = t.committed := by
  unfold Tx.openMap
  split_ifs
  · rfl
  · rw [← System.committed_acquire t s]
    simp only [getMapAndChangeSet]
    split <;> rfl

theorem Open.run (k : t.Open s) (name : Name) (op : Op) : (t.run name op).Open s where
  maps a mc r hmc hr := by
    simp only [Tx.run, ExtTreeMap.getElem?_modify, Std.compare_eq_iff_eq] at hmc
    split_ifs at hmc with ha
    · obtain ⟨mc₀, hmc₀, rfl⟩ := Option.map_eq_some_iff.1 hmc
      exact k.maps a mc₀ r (ha ▸ hmc₀) hr
    · exact k.maps a mc r hmc hr
  fresh h := by
    simp only [Tx.run]
    rw [k.fresh h]
    rfl
  view := k.view

theorem commit_writes {v : ℕ} (h : t.commit s = .ok (some v, t', s')) (hv : v ≠ noVersion) :
    t' = { t with committed := true, version := v } ∧ ∃ name, t.writeSet name ≠ ∅ := by
  unfold Tx.commit at h
  split_ifs at h
  · cases h
    exact absurd rfl hv
  · obtain ⟨⟨o, s₀⟩, happly, h⟩ := bind_eq_ok h
    cases o with
    | none => cases h
    | some u =>
      cases h
      refine ⟨rfl, ?_⟩
      obtain ⟨-, ⟨rfl, -, -⟩ | ⟨⟨p, hp, hw⟩, -, -⟩⟩ := Store.applyChanges_cases happly
      · exact absurd rfl hv
      · obtain ⟨mc, hmc, hpair⟩ := mem_views.1 hp
        refine ⟨p.1, ?_⟩
        rw [writeSet_of_changes hmc]
        rw [hpair] at hw
        simpa [ChangeSet.committer, ChangeSet.hasWrites] using hw

end Tx

/-! ### Runs -/

namespace Replicas

/-- Both stores have the history of the primary. -/
structure Inv (s : Replicas) : Prop where
  primary : s.primary.store.Refines s.primary.history
  backup : s.backup.Refines s.primary.history
  base : s.primary.history.base = 0
  view : s.backup.termOfLastVersion = s.primary.store.termOfLastVersion
  created : ∀ name, s.backup.created name = s.primary.store.created name
  txs : ∀ i, (s.primary.txs i).committed = false → (s.primary.txs i).Open s.primary.store

theorem inv_init (term backupTerm : ℕ) (hooks backupHooks : Name → Bool) :
    (init term backupTerm hooks backupHooks).Inv where
  primary := Store.refines_empty rfl rfl rfl
  backup := Store.refines_empty rfl rfl rfl
  base := rfl
  view := rfl
  created _ := rfl
  txs _ _ := Tx.open_begin _

variable {s : Replicas} {t : Tx}

theorem Inv.setTx (k : s.Inv) (i : ℕ) (ht : t.committed = false → t.Open s.primary.store) :
    Inv { s with primary := s.primary.setTx i t } where
  primary := k.primary
  backup := k.backup
  base := k.base
  view := k.view
  created := k.created
  txs j hj := by
    by_cases hji : j = i
    · subst hji
      simp only [System.setTx, Function.update_self] at hj ⊢
      exact ht hj
    · simp only [System.setTx, Function.update_of_ne hji] at hj ⊢
      exact k.txs j hj

variable {claims : Digest} {flags : UInt8}

theorem Inv.replicate {e : Encryptor} (he : e.Inverse) (k : s.Inv) {i v : ℕ} {store : Store}
    (hcommit : (s.primary.txs i).commit s.primary.store = .ok (some v, t, store)) (hv : v ≠ noVersion)
    (hlt : v < 2 ^ 64) {evidence : TxID → Digest} {data : List UInt8}
    (hser : t.serialise (some e) evidence (some claims) flags false = .ok data) {w : Setup}
    (hw : w.Reads e ⟨t.commitView, t.version⟩) :
    Inv { primary := { s.primary.setTx i t with store := store, history := s.primary.history.push t.writeSet }
          backup := (s.backup.apply w data false).2 } := by
  obtain ⟨rfl, hwrites⟩ := Tx.commit_writes hcommit hv
  have hopen := k.txs i (Tx.commit_cases hcommit).1
  obtain ⟨rfl, hc, hbook, -⟩ := Tx.committed_of_commit k.primary (fun name mc r hmc hr _ => hopen.maps name mc r hmc hr)
    hcommit hv
  have hversion : s.primary.history.version + 1 = s.backup.version + 1 := by rw [k.backup.version]
  obtain ⟨hbackup, hcommitted, -, -, hview⟩ := k.backup.apply_serialise he hw hwrites hser hversion hlt
  have hterm : store.termOfNextVersion = s.primary.store.termOfNextVersion :=
    (congrArg Bookkeeping.termOfNextVersion hbook).trans rfl
  refine ⟨k.primary.push hc (congrArg Bookkeeping.version hbook)
    ((congrArg Bookkeeping.compacted hbook).trans rfl), hbackup, k.base, ?_, fun name => ?_, fun j hj => ?_⟩
  · -- the transaction has opened a map, and has taken its view then
    have hread : (s.primary.txs i).readTxid ≠ none := by
      obtain ⟨name, hname⟩ := hwrites
      intro hnone
      simp [Tx.writeSet, hopen.fresh hnone] at hname
    exact (hview.trans (hopen.view hread)).trans (congrArg Bookkeeping.termOfLastVersion hbook).symm
  · have hsame := k.created name
    rw [hcommitted.created_eq, hc.created_eq, hsame]
    rfl
  · by_cases hji : j = i
    · subst hji
      simp [System.setTx] at hj
    · simp only [System.setTx, Function.update_of_ne hji] at hj ⊢
      exact (k.txs j hj).later (fun name c r hname => (hc.kept hname).1) hterm

section
variable {e : Encryptor} {evidence : TxID → Digest} {w : Setup}

theorem reads_wrapper (txid : TxID) (expected : Bool) : (wrapper e w txid expected).Reads e txid := by
  refine ⟨rfl, rfl, fun txid' h => ?_⟩
  cases expected with
  | false => cases h
  | true => exact (Option.some.inj h).symm

theorem Inv.commit (he : e.Inverse) (k : s.Inv) {i : ℕ} {expected : Bool}
    (hships : s.Ships e evidence (.commit i claims flags expected)) :
    (s.step e evidence w (.commit i claims flags expected)).Inv := by
  simp only [step, Ships, entry, System.step, System.commit] at hships ⊢
  cases hcommit : (s.primary.txs i).commit s.primary.store with
  | error fault => exact k
  | ok res =>
    obtain ⟨o, t, store⟩ := res
    obtain ⟨-, ⟨rfl, rfl, rfl⟩ | ⟨rfl, hdone, rfl⟩ | ⟨rfl, -⟩⟩ := Tx.commit_cases hcommit
    · exact k.setTx i (k.txs i)
    · exact k.setTx i fun hopen => absurd (hdone.symm.trans hopen) (by decide)
    · have hv : s.primary.store.version + 1 ≠ noVersion := Nat.succ_ne_zero _
      simp only [hcommit, if_neg hv] at hships ⊢
      obtain ⟨x, hx, hlt⟩ := hships _ rfl
      cases hser : t.serialise (some e) evidence (some claims) flags false with
      | error fault => simp [hser, Except.map, Except.toOption] at hx
      | ok data =>
        simp only [hser, Except.map, Except.toOption, Option.mem_some] at hx
        subst hx
        have htversion : t.version = s.primary.store.version + 1 := by rw [(Tx.commit_writes hcommit hv).1]
        exact k.replicate he hcommit hv (htversion ▸ hlt) hser (reads_wrapper _ _)

theorem Inv.step (he : e.Inverse) (k : s.Inv) {a : Action} (hships : s.Ships e evidence a) :
    (s.step e evidence w a).Inv := by
  cases a with
  | begin i => exact k.setTx i fun _ => Tx.open_begin _
  | openMap i name =>
    refine k.setTx i fun hopen => (k.txs i ?_).openMap name
    rwa [Tx.committed_openMap] at hopen
  | op i name op => exact k.setTx i fun hopen => (k.txs i hopen).run name op
  | commit i claims flags expected => exact k.commit he hships
  | compactPrimary v =>
    obtain ⟨hmaps, hlast, hnext⟩ := s.primary.store.compact_kept v
    refine ⟨k.primary.compact hships, k.backup, k.base, k.view.trans hlast.symm, fun name => ?_, fun i hi => ?_⟩
    · exact (k.created name).trans (congrArg (fun maps => maps[name]?.map Prod.fst) hmaps.symm)
    · exact (k.txs i hi).later (fun name c r hname => hmaps.symm ▸ hname) hnext
  | compactBackup v =>
    obtain ⟨hmaps, hlast, -⟩ := s.backup.compact_kept v
    refine ⟨k.primary, k.backup.compact hships, k.base, hlast.trans k.view, fun name => ?_, k.txs⟩
    exact (congrArg (fun maps => maps[name]?.map Prod.fst) hmaps).trans (k.created name)

/-- **Primary and backup agree** in version, view and content after every run, and still do when both are rolled back
to a version that neither has compacted. -/
theorem agree_along_run (he : e.Inverse) {backupTerm : ℕ} {hooks backupHooks : Name → Bool}
    {actions : List Action}
    (h : Along (step e evidence w) (Ships e evidence) (init term backupTerm hooks backupHooks) actions) :
    let s := exec (step e evidence w) (init term backupTerm hooks backupHooks) actions
    Store.Agree s.primary.store s.backup ∧
      ∀ (txid : TxID) (term : ℕ), s.primary.store.compacted ≤ txid.seqno → s.backup.compacted ≤ txid.seqno →
        ∃ p b, s.primary.store.rollback txid term = .ok p ∧ s.backup.rollback txid term = .ok b ∧ Store.Agree p b := by
  have k := exec_induction (I := Inv) (fun s a k hships => k.step he hships) (inv_init _ _ _ _) h
  exact ⟨k.primary.agree k.backup k.view k.created,
    fun txid term hp hb => k.primary.agree_rollback k.backup k.base k.created term hp hb⟩

def zeroDigest : Digest := ⟨List.replicate 32 0, by simp⟩

/-- A public and a private map, an overwrite, a removal of a present and of an absent key, and a map that is
created by a removal. -/
def shippingRun : List Action :=
  let digest : Digest := ⟨List.replicate 32 0, by simp⟩
  let table := asciiBytes "public:t"
  [.openMap 1 table, .op 1 table (.put [7] [70]), .openMap 1 [1], .op 1 [1] (.put [8] [80]),
    .commit 1 digest 0 true, .openMap 2 table, .op 2 table (.put [7] [71]), .openMap 2 [1], .op 2 [1] (.remove [8]),
    .op 2 [1] (.remove [9]), .openMap 2 [2], .op 2 [2] (.remove [9]), .compactPrimary 1, .commit 2 digest 1 false]

theorem agree_along_shippingRun :
    let zero : TxID → Digest := fun _ => ⟨List.replicate 32 0, by simp⟩
    let s := exec (step Encryptor.plain zero {}) (init 2 2 (fun _ => false) fun _ => false) shippingRun
    s.primary.store.version = 2 ∧ s.primary.store.compacted = 1 ∧ Store.Agree s.primary.store s.backup := by
  have halong : Along (step Encryptor.plain (fun _ => ⟨List.replicate 32 0, by simp⟩) {})
      (Ships Encryptor.plain fun _ => ⟨List.replicate 32 0, by simp⟩) (init 2 2 (fun _ => false) fun _ => false)
      shippingRun := by decide +kernel
  exact ⟨by decide +kernel, by decide +kernel, (agree_along_run Encryptor.inverse_plain halong).1⟩

end

end Replicas
end Ccf.Kv
