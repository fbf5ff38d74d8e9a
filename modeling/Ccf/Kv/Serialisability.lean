import Ccf.Lib.Runs
import Ccf.Kv.Transactions

/-! # Serialisability and refinement of interleaved transactions

Runs of the system of `Ccf.Kv.System` in which a commit puts something into every map it creates, and the compacted
version does not go down: the store refines its history (`reads_along_run`), and transactions are serialisable
(`observations_along_run`).

Without the condition both fail: a map created by removals only has no local commit at its creation, so a look at the
whole of it is not recorded (`phantomRun`), and a rollback that drops it goes unnoticed by the transactions that hold
it (`orphanRun`). -/

namespace Ccf.Kv

open ChangeSet List Option Versioned Runs
open Std (ExtTreeMap)

structure System where
  store : Store := {}
  txs : ℕ → Tx := fun _ => {}
  history : WriteHistory := History.empty

inductive Action where
  /-- `create_tx`. -/
  | begin (i : ℕ)
  | openMap (i : ℕ) (name : Name)
  | op (i : ℕ) (name : Name) (op : Op)
  | commit (i : ℕ)
  | rollback (txid : TxID) (termOfNextVersion : ℕ)
  | compact (v : ℕ)
  /-- Deserialise and commit an entry. -/
  | deserialise (v : ℕ) (term : ℕ) (blocks : List MapBlock)
deriving DecidableEq

namespace System

variable (s : System)

def setTx (i : ℕ) (t : Tx) : System := { s with txs := Function.update s.txs i t }

/-- Commit transaction `i`. A commit with writes adds a version to the history. -/
def commit (i : ℕ) : System :=
  match (s.txs i).commit s.store with
  | .error _ => s
  | .ok (none, t, store) => { s.setTx i t with store := store }
  | .ok (some v, t, store) =>
    { s.setTx i t with
      store := store
      history := if v = noVersion then s.history else s.history.push t.writeSet }

/-- A rollback takes the versions after it out of the history. -/
def rollback (txid : TxID) (termOfNextVersion : ℕ) : System :=
  match s.store.rollback txid termOfNextVersion with
  | .error _ => s
  | .ok store => { s with store := store, history := s.history.truncate txid.seqno }

/-- Deserialise an entry: what was committed locally from its version on is rolled back first, whether or not
the entry is accepted. Versions between the current one and that of the entry write nothing. -/
def deserialise (v : ℕ) (term : ℕ) (blocks : List MapBlock) : System :=
  match s.store.forget v with
  | .error _ => s
  | .ok _ =>
    let (committed, store) := s.store.applyBlocks v term blocks
    let history := s.history.truncate (previousVersion v)
    { s with
      store := store
      history :=
        if committed then (History.skip (v - 1 - history.version) history).push (blockWrites blocks)
        else history }

def step : Action → System
  | .begin i => s.setTx i {}
  | .openMap i name => s.setTx i ((s.txs i).openMap s.store name).2
  | .op i name op => s.setTx i ((s.txs i).run name op)
  | .commit i => s.commit i
  | .rollback txid term => s.rollback txid term
  | .compact v => { s with store := s.store.compact v }
  | .deserialise v term blocks => s.deserialise v term blocks

variable {s}

/-- An empty store in a term, with its hooks set. -/
def init (term : ℕ) (hooks : Name → Bool) : System :=
  { store := { termOfNextVersion := term, globalHooks := hooks } }

/-- A commit puts something into every map it creates, compactions are as `P` says, and a deserialised entry
has a version, which is never 0. -/
def PermittedBy (P : ℕ → ℕ → Prop) (s : System) : Action → Prop
  | .commit i => ∀ p ∈ (s.txs i).allChanges.toList, p.2.map = none →
      p.2.changeset.writes = ∅ ∨ Roll.HasPut p.2.changeset.writes
  | .compact v => P s.store.compacted v
  | .deserialise v _ blocks => 0 < v ∧
      ∀ b ∈ blocks, s.store.getMap (v - 1) b.name = none → b.writes = ∅ ∨ Roll.HasPut b.writes
  | _ => True

instance {P : ℕ → ℕ → Prop} [∀ a v, Decidable (P a v)] (s : System) (a : Action) : Decidable (s.PermittedBy P a) := by
  cases a <;> unfold PermittedBy <;> infer_instance

/-- Commits put something into the maps they create, and compaction does not go back. -/
abbrev Permitted : System → Action → Prop := PermittedBy (· ≤ ·)

structure Inv (s : System) : Prop extends Store.Good s.store s.history where
  txs : ∀ i, (s.txs i).committed = false → ∀ (name : Name) (mc : MapChanges),
    (s.txs i).allChanges[name]? = some mc → mc.Valid s.store s.history name

theorem inv_init (term : ℕ) (hooks : Name → Bool) : (init term hooks).Inv where
  refines := Store.refines_empty rfl rfl rfl
  base := rfl
  start _ := rfl
  born hname := by simp [init] at hname
  txs _ _ _ _ hmc := by simp [init] at hmc

/-! ### Preparing -/

variable {i : ℕ} {name : Name} {mc : MapChanges} {r : ℕ}

/-- A map that passes the preparation of a commit is the store's, and the change set reads from the history. -/
theorem Inv.current (k : s.Inv) (hi : (s.txs i).committed = false)
    (hmc : (s.txs i).allChanges[name]? = some mc) (hr : mc.map = some r)
    (hprepare : mc.changeset.committer.prepare (s.store.obj mc.map)) :
    s.store.Current s.history name r mc.changeset := by
  refine ((k.txs i hi name mc hmc).opened r hr).2.2 ?_
  simp only [committer, Roll.prepare, Bool.and_eq_true, beq_iff_eq, hr] at hprepare
  exact hprepare.1.1

variable {cs : ChangeSet} {v w : ℕ} {store : Store} {t : Tx}

theorem prepare_spec {r : Roll} (h : r.prepare cs = true) :
    (cs.readVersion = noVersion ∨ cs.readVersion = r.tail.version) ∧
    ∀ (k : SerialisedEntry) (ver : ℕ), cs.reads[k]? = some ver →
      (ver = noVersion ∧ r.tail.state[k]? = none) ∨ ∃ x, r.tail.state[k]? = some x ∧ x.version = ver := by
  simp only [Roll.prepare, Bool.and_eq_true, Bool.or_eq_true, beq_iff_eq, List.all_eq_true] at h
  refine ⟨h.1.2, fun k ver hk => ?_⟩
  have hcheck := h.2 (k, ver) (ExtTreeMap.mem_toList_iff_getElem?_eq_some.2 hk)
  split_ifs at hcheck with hver
  · exact .inl ⟨hver, by simpa using hcheck⟩
  · obtain ⟨x, hx, hxv⟩ := (any_eq_true _ _).1 hcheck
    exact .inr ⟨x, hx, (beq_iff_eq.1 hxv).symm⟩

/-- A change set that passes the preparation agrees with the current state on what it has read: a key whose
version is still the one that was read has not been written since. -/
theorem Inv.agrees (k : s.Inv) (hcur : s.store.Current s.history name r cs) (hreads : cs.ReadsState)
    (hprepare : (s.store.objs r).roll.prepare cs = true) :
    (∀ key ∈ cs.reads, cs.state[key]? = (s.history.tableAt s.history.version name)[key]?) ∧
    (cs.readVersion = cs.startVersion → cs.state = s.history.tableAt s.history.version name) := by
  obtain ⟨c, hname⟩ := hcur.map
  have hkeeps := k.refines.keeps hname
  have hbase : s.history.base ≤ cs.startVersion := k.base ▸ Nat.zero_le _
  obtain ⟨hall, hkeys⟩ := prepare_spec hprepare
  refine ⟨fun key hkey => ?_, fun heq => ?_⟩
  · obtain ⟨ver, hver⟩ := ExtTreeMap.mem_iff_isSome_getElem?.1 hkey |> isSome_iff_exists.1
    have hrec := hreads key ver hver
    rw [← hkeeps.tail_state]
    rcases hkeys key ver hver with ⟨rfl, hnone⟩ | ⟨x, hx, hxv⟩
    · rw [hnone]
      cases hs : cs.state[key]? with
      | none => rfl
      | some y =>
        rw [hcur.state] at hs
        have hpos := s.history.base_lt_of_at (k.start name) hbase hcur.le hs
        rw [hcur.state, hs] at hrec
        rw [k.base, ← show noVersion = y.version from hrec] at hpos
        exact absurd hpos (lt_irrefl _)
    · rw [hkeeps.tail_state] at hx
      cases hs : cs.state[key]? with
      | none =>
        have hpos := s.history.base_lt_of_at (k.start name) s.history.base_le_version le_rfl hx
        rw [hs] at hrec
        rw [k.base, hxv, show ver = noVersion from hrec] at hpos
        exact absurd hpos (lt_irrefl _)
      | some y =>
        rw [hs] at hrec
        have hle : x.version ≤ cs.startVersion := by
          rw [hxv, show ver = y.version from hrec]
          exact s.history.version_le_of_at hbase hcur.le (hcur.state ▸ hs)
        have hold := s.history.at_of_version_le hbase hcur.le le_rfl hx hle
        rw [← hcur.state, hs] at hold
        rw [hold, hkeeps.tail_state, hx]
  · have htail : cs.startVersion = (s.store.objs r).roll.tail.version := by
      rw [← heq]
      refine hall.resolve_left fun h0 => ?_
      rw [heq] at h0
      exact hcur.pos.ne' h0
    have hstate := (hkeeps.state_of_mem (Roll.tail_mem _) (k.base ▸ Nat.zero_le _)).2
    rw [hcur.state, htail, ← hstate, hkeeps.tail_state]

/-! ### Steps of a transaction -/

/-- The invariant only depends on the transactions that are not committed. -/
theorem Inv.setTx (k : s.Inv) (i : ℕ) (t : Tx)
    (ht : t.committed = false → ∀ (name : Name) (mc : MapChanges), t.allChanges[name]? = some mc →
      mc.Valid s.store s.history name) : (s.setTx i t).Inv where
  refines := k.refines
  base := k.base
  start := k.start
  born := k.born
  txs j hj name mc hmc := by
    by_cases hji : j = i
    · subst hji
      simp only [System.setTx, Function.update_self] at hj hmc
      exact ht hj name mc hmc
    · simp only [System.setTx, Function.update_of_ne hji] at hj hmc
      exact k.txs j hj name mc hmc

theorem committed_acquire (t : Tx) (s : Store) : (t.acquire s).committed = t.committed := by
  unfold Tx.acquire
  split <;> rfl

theorem allChanges_acquire (t : Tx) (s : Store) : (t.acquire s).allChanges = t.allChanges := by
  unfold Tx.acquire
  split <;> rfl

theorem Inv.valid_of_open (k : s.Inv)
    (hcs : (s.store.obj (s.store.getMap w name)).roll.createChangeSet w false = some cs) :
    (⟨s.store.getMap w name, cs, []⟩ : MapChanges).Valid s.store s.history name := by
  obtain ⟨e, hfind, rfl⟩ := map_eq_some_iff.1 hcs
  refine ⟨rfl, fun hnone => ?_, fun r hr => ?_⟩
  · simp only at hnone
    rw [hnone] at hfind
    exact congrArg LocalCommit.state (mem_singleton.1 (mem_of_find?_eq_some hfind))
  · simp only at hr
    rw [hr] at hfind
    -- the map exists at version `w`, and its roll has a commit at its creation
    obtain ⟨c, hname, hcw⟩ := Store.getMap_eq_some hr
    obtain ⟨hpos, hborn⟩ := k.born hname
    have hc : c ≤ w := hcw.resolve_right fun h => by rw [h] at hpos; exact lt_irrefl _ hpos
    have hkeeps := k.refines.keeps hname
    obtain ⟨hmem, hle, hmax⟩ := Roll.find?_eq_some hkeeps.sorted_commits hfind
    obtain ⟨hversion, hstate⟩ := hkeeps.state_of_mem hmem (by rw [k.base]; exact Nat.zero_le _)
    refine ⟨k.refines.sound.lt hname, ?_, fun _ => ⟨⟨c, hname⟩, ?_, hversion, hstate, ?_⟩⟩
    · rw [hr]
      exact le_rfl
    · refine hpos.trans_le ?_
      rcases hborn with hhead | ⟨e', he', hev⟩
      · have hheadw : (s.store.objs r).roll.head.version ≤ e.version := by
          rcases mem_cons.1 hmem with rfl | hm
          · exact le_rfl
          · exact ((pairwise_cons.1 hkeeps.sorted_commits).1 e hm).le
        exact hhead.trans hheadw
      · exact hev ▸ hmax e' (mem_cons_of_mem _ he') (hev ▸ hc)
    · rcases mem_cons.1 hmem with rfl | hm
      · left
        have := hkeeps.head_le
        rwa [k.base, Nat.max_zero] at this
      · exact .inr ⟨e, hm, rfl⟩

theorem Inv.openMap (k : s.Inv) (i : ℕ) (name : Name) : (s.setTx i ((s.txs i).openMap s.store name).2).Inv := by
  refine k.setTx i _ fun hcommitted n mc hmc => ?_
  unfold Tx.openMap at hcommitted hmc
  by_cases hopen : name ∈ (s.txs i).allChanges
  · simp only [if_pos hopen] at hcommitted hmc
    exact k.txs i hcommitted n mc hmc
  · simp only [if_neg hopen, Tx.getMapAndChangeSet] at hcommitted hmc
    cases hcs : (s.store.obj (s.store.getMap ((s.txs i).acquire s.store).readSeqno name)).roll.createChangeSet
        ((s.txs i).acquire s.store).readSeqno false with
    | none =>
      simp only [hcs, committed_acquire, allChanges_acquire] at hcommitted hmc
      exact k.txs i hcommitted n mc hmc
    | some cs =>
      simp only [hcs, committed_acquire, allChanges_acquire, ExtTreeMap.getElem?_insert,
        Std.compare_eq_iff_eq] at hcommitted hmc
      split_ifs at hmc with hn
      · cases hmc
        exact hn ▸ k.valid_of_open hcs
      · exact k.txs i hcommitted n mc hmc

theorem Valid.run {s : Store} {h : WriteHistory} (k : mc.Valid s h name) (op : Op) :
    (⟨mc.map, (mc.changeset.run op).2, mc.trace ++ [(op, (mc.changeset.run op).1)]⟩ : MapChanges).Valid s h name := by
  have hb := sameBase_run mc.changeset op
  refine ⟨?_, fun hnone => ?_, fun r hr => ?_⟩
  · have hstart : (mc.changeset.run op).2.start = mc.changeset.start := by
      simp only [start, hb.rollbackCounter, hb.state, hb.committed, hb.startVersion]
    simp only [map_append, map_cons, map_nil, hstart, runAll_concat, k.recorded]
  · rw [hb.state]
    exact k.new hnone
  · obtain ⟨hlt, hle, hcur⟩ := k.opened r hr
    rw [hb.rollbackCounter]
    refine ⟨hlt, hle, fun heq => ?_⟩
    have hc := hcur heq
    exact ⟨hc.map, hb.startVersion ▸ hc.pos, hb.startVersion ▸ hc.le, by rw [hb.state, hb.startVersion]; exact hc.state,
      by rw [hb.startVersion]; exact hc.kept⟩

theorem Inv.op (k : s.Inv) (i : ℕ) (name : Name) (op : Op) : (s.setTx i ((s.txs i).run name op)).Inv := by
  refine k.setTx i _ fun hcommitted n mc hmc => ?_
  simp only [Tx.run, ExtTreeMap.getElem?_modify, Std.compare_eq_iff_eq] at hmc
  split_ifs at hmc with hn
  · subst hn
    obtain ⟨mc₀, hmc₀, rfl⟩ := map_eq_some_iff.1 hmc
    exact Valid.run (k.txs i hcommitted _ mc₀ hmc₀) op
  · exact k.txs i hcommitted n mc hmc

/-! ### Steps of the store -/

theorem Inv.committed_of_commit (k : s.Inv)
    (h : (s.txs i).commit s.store = .ok (some v, t, store)) (hv : v ≠ noVersion) :
    v = s.history.version + 1 ∧ Store.Committed s.store store (s.history.version + 1) (s.txs i).writeSet ∧
      store.version = s.store.version + 1 ∧ store.compacted = s.store.compacted ∧
      ∀ (name : Name) (mc : MapChanges), (s.txs i).allChanges[name]? = some mc → mc.map = s.store.ref? name := by
  have hi := (Tx.commit_cases h).1
  obtain ⟨hversion, hcommitted, hb, href⟩ := Tx.committed_of_commit k.refines
    (fun name mc r hmc hr hprepare => (k.current hi hmc hr hprepare).map) h hv
  exact ⟨hversion, hcommitted, congrArg Bookkeeping.version hb, (congrArg Bookkeeping.compacted hb).trans rfl, href⟩

variable {P : ℕ → ℕ → Prop}

theorem Inv.hasPut_of_commit (hp : s.PermittedBy P (.commit i))
    (href : ∀ (name : Name) (mc : MapChanges), (s.txs i).allChanges[name]? = some mc → mc.map = s.store.ref? name)
    (hnone : s.store.maps[name]? = none) (hne : (s.txs i).writeSet name ≠ ∅) :
    Roll.HasPut ((s.txs i).writeSet name) := by
  unfold Tx.writeSet at hne ⊢
  cases hmc : (s.txs i).allChanges[name]? with
  | none => simp [hmc] at hne
  | some mc =>
    simp only [hmc, elim_some] at hne ⊢
    have hmap : mc.map = none := (href name mc hmc).trans (Store.ref?_eq_none.2 hnone)
    exact (hp (name, mc) (ExtTreeMap.mem_toList_iff_getElem?_eq_some.2 hmc) hmap).resolve_left hne

theorem Inv.moves_commit (k : s.Inv) (hp : s.PermittedBy P (.commit i)) :
    Store.Moves P s.store s.history (s.commit i).store (s.commit i).history := by
  unfold System.commit
  cases hc : (s.txs i).commit s.store with
  | error e => exact .refl
  | ok res =>
    obtain ⟨o, t, store⟩ := res
    obtain ⟨-, ⟨rfl, rfl, rfl⟩ | ⟨rfl, -, rfl⟩ | ⟨rfl, -, hws, -⟩⟩ := Tx.commit_cases hc
    · exact .refl
    · exact .refl
    · obtain ⟨-, hcommitted, hver, hcomp, href⟩ := k.committed_of_commit hc (Nat.succ_ne_zero _)
      simp only [if_neg (show ¬s.store.version + 1 = noVersion from Nat.succ_ne_zero _), hws]
      exact Store.Moves.refl.push hcommitted hver hcomp fun name => Inv.hasPut_of_commit hp href

theorem moves_rollback (P : ℕ → ℕ → Prop) (s : System) (txid : TxID) (term : ℕ) :
    Store.Moves P s.store s.history (s.rollback txid term).store (s.rollback txid term).history := by
  unfold System.rollback
  cases hok : s.store.rollback txid term with
  | error e => exact .refl
  | ok store => exact Store.Moves.refl.rollback hok

variable (hP : ∀ a v, P a v → a ≤ v) {term : ℕ} {hooks : Name → Bool} {actions : List Action}
include hP

/-- A deserialised entry rolls back, skips the versions before its own and pushes its writes. -/
theorem Inv.moves_deserialise (k : s.Inv)
    {blocks : List MapBlock} (hp : s.PermittedBy P (.deserialise v term blocks)) :
    Store.Moves P s.store s.history (s.deserialise v term blocks).store (s.deserialise v term blocks).history := by
  obtain ⟨hpos, hput⟩ := hp
  have hprev : previousVersion v = v - 1 := if_neg hpos.ne'
  unfold System.deserialise
  cases hforget : s.store.forget v with
  | error e => exact .refl
  | ok store =>
    have mb : Store.Moves P s.store s.history store (s.history.truncate (previousVersion v)) :=
      Store.Moves.refl.rollback hforget
    have hb := (mb.good hP k.toGood).1.refines
    have hle : store.version ≤ v - 1 := hprev ▸ Store.version_rollback_le hforget
    rcases Store.applyBlocks_cases hforget term blocks with heq | ⟨f, store', hfill, hcommit, heq⟩
    · simp only [heq]
      exact mb
    · simp only [heq, if_true, hb.version]
      have ms := mb.skip hb.sound (v - 1 - store.version)
      obtain ⟨hc, hv', hcomp, -, -⟩ := hb.commitDeserialised (hle.trans (Nat.sub_le _ _)) hfill hcommit
      have hsucc : (History.skip (v - 1 - store.version) (s.history.truncate (previousVersion v))).version + 1 = v := by
        rw [History.version_skip, hb.version]
        omega
      rw [← hsucc] at hc
      refine ms.push ⟨hc.hooks, hc.fired, hc.allocated, hc.kept, hc.absent, hc.created, hc.dropped, hc.sound⟩
        (by simp only; omega) hcomp fun name hnone hne => ?_
      unfold blockWrites at hne ⊢
      cases hblock : blocks.find? fun b => b.name == name with
      | none => simp [hblock] at hne
      | some b =>
        simp only [hblock, elim_some] at hne ⊢
        have hname : b.name = name := by simpa using find?_some hblock
        refine (hput b (mem_of_find?_eq_some hblock) ?_).resolve_left hne
        -- a map that exists before the entry is not dropped by the rollback
        rw [hname]
        by_contra hsome
        obtain ⟨r, hr⟩ := ne_none_iff_exists'.1 hsome
        obtain ⟨c, hmap, hcv⟩ := Store.getMap_eq_some hr
        have hc : c ≤ previousVersion v := by
          rw [hprev]
          exact hcv.resolve_right (k.born hmap).1.ne'
        have hkept := Store.maps_rollback hforget hmap hc
        rw [show store.maps[name]? = none from hnone] at hkept
        cases hkept

theorem Inv.moves {a : Action} (k : s.Inv)
    (hp : s.PermittedBy P a) : Store.Moves P s.store s.history (s.step a).store (s.step a).history := by
  cases a with
  | begin i | openMap i name | op i name op => exact .refl
  | commit i => exact k.moves_commit hp
  | rollback txid term => exact moves_rollback P s txid term
  | compact v => exact Store.Moves.refl.compact hp
  | deserialise v term blocks => exact k.moves_deserialise hP hp

omit hP

/-! ### Runs -/

/-- A transaction that is open after a step of the store was open before it. -/
theorem txs_commit (s : System) (i j : ℕ) (h : ((s.commit i).txs j).committed = false) :
    (s.commit i).txs j = s.txs j := by
  unfold System.commit at h ⊢
  cases hc : (s.txs i).commit s.store with
  | error e => rfl
  | ok res =>
    obtain ⟨o, t, store⟩ := res
    rw [hc] at h
    by_cases hj : j = i
    · subst hj
      obtain ⟨-, ⟨rfl, rfl, -⟩ | ⟨rfl, ht, -⟩ | ⟨rfl, ht, -⟩⟩ := Tx.commit_cases hc
      · simp [System.setTx]
      · simp [System.setTx, ht] at h
      · simp [System.setTx, ht] at h
    · obtain ⟨-, ⟨rfl, -⟩ | ⟨rfl, -⟩ | ⟨rfl, -⟩⟩ := Tx.commit_cases hc <;> simp [System.setTx, hj]

theorem txs_deserialise (s : System) (v term : ℕ) (blocks : List MapBlock) :
    (s.deserialise v term blocks).txs = s.txs := by
  unfold System.deserialise
  split <;> rfl

theorem txs_rollback (s : System) (txid : TxID) (term : ℕ) : (s.rollback txid term).txs = s.txs := by
  unfold System.rollback
  split <;> rfl

include hP

/-- A step of the store keeps the open transactions valid. -/
theorem Inv.ofMoves {s' : System} (k : s.Inv) (hm : Store.Moves P s.store s.history s'.store s'.history)
    (htxs : ∀ i, (s'.txs i).committed = false → s'.txs i = s.txs i) : s'.Inv := by
  obtain ⟨g, hh⟩ := hm.good hP k.toGood
  refine ⟨g, fun i hi name mc hmc => ?_⟩
  have hsame := htxs i hi
  rw [hsame] at hi hmc
  exact (k.txs i hi name mc hmc).mono hh

theorem Inv.step {a : Action} (k : s.Inv) (hp : s.PermittedBy P a) : (s.step a).Inv := by
  have hm := k.moves hP hp
  cases a with
  | begin i => exact k.setTx i {} fun _ name mc hmc => by simp at hmc
  | openMap i name => exact k.openMap i name
  | op i name op => exact k.op i name op
  | commit i => exact k.ofMoves hP hm (txs_commit s i)
  | rollback txid term => exact k.ofMoves hP hm fun i _ => congrFun (txs_rollback s txid term) i
  | compact v => exact k.ofMoves hP hm fun _ _ => rfl
  | deserialise v term blocks => exact k.ofMoves hP hm fun i _ => congrFun (txs_deserialise s v term blocks) i

omit hP

theorem inv_run
    (h : Along step Permitted (init term hooks) actions) : (exec step (init term hooks) actions).Inv :=
  exec_induction (I := Inv) (fun _ _ k hp => k.step (fun _ _ => id) hp) (inv_init term hooks) h

/-! ### Observations of committed transactions -/

/-- The version transaction `i` commits at, if it commits now and has writes. -/
def commitVersion (s : System) (i : ℕ) : Option ℕ :=
  match (s.txs i).commit s.store with
  | .ok (some v, _, _) => if v = noVersion then none else some v
  | _ => none

theorem commitVersion_eq_some (h : s.commitVersion i = some v) :
    v ≠ noVersion ∧ ∃ t store, (s.txs i).commit s.store = .ok (some v, t, store) := by
  unfold commitVersion at h
  split at h
  · split_ifs at h with hv
    cases h
    exact ⟨hv, _, _, by assumption⟩
  · cases h

/-- Everything transaction `i` has observed through its handles, at any point, is what it would have observed
had it run alone on the tables of version `w`. -/
def ObservesSerially (s : System) (i w : ℕ) : Prop :=
  ∀ (name : Name) (mc : MapChanges), (s.txs i).allChanges[name]? = some mc →
    mc.trace.map Prod.snd =
      (runAll { state := s.history.tableAt w name, committed := mc.changeset.committed }
        (mc.trace.map Prod.fst)).1

/-- One map of a transaction that commits. -/
theorem Inv.observations (k : s.Inv)
    (hc : (s.txs i).commit s.store = .ok (some v, t, store)) (hv : v ≠ noVersion)
    (hmc : (s.txs i).allChanges[name]? = some mc) : mc.trace.map Prod.snd = (runAll
      { state := s.history.tableAt s.history.version name, committed := mc.changeset.committed }
      (mc.trace.map Prod.fst)).1 := by
  obtain ⟨hi, ⟨ho, -⟩ | ⟨ho, -⟩ | ⟨-, -, -, -, hprepare, -⟩⟩ := Tx.commit_cases hc
  · cases ho
  · exact absurd (some.inj ho) hv
  have hvalid := k.txs i hi name mc hmc
  have hfinal : (mc.changeset.start.runAll (mc.trace.map Prod.fst)).2 = mc.changeset := by rw [hvalid.recorded]
  have hfst : mc.trace.map Prod.snd = (mc.changeset.start.runAll (mc.trace.map Prod.fst)).1 := by rw [hvalid.recorded]
  have hrecords := records_runAll mc.changeset.start (mc.trace.map Prod.fst)
  rw [hfinal] at hrecords
  rw [hfst]
  cases hr : mc.map with
  | none =>
    -- a map that the transaction has created: nobody else has written it
    have href := (k.committed_of_commit hc hv).2.2.2.2 name mc hmc
    have hempty := k.refines.absent (Store.ref?_eq_none.1 (href.symm.trans hr)) s.history.version
      s.history.base_le_version le_rfl
    have hstate : mc.changeset.start.state = s.history.tableAt s.history.version name := by
      rw [hempty]
      exact hvalid.new hr
    exact runAll_fst_eq rfl rfl (fun _ _ => by rw [hstate]) (fun _ => hstate)
  | some r =>
    have hprep := hprepare (name, mc.map, mc.changeset.committer) (Tx.mem_views.2 ⟨mc, hmc, rfl⟩)
    have hcur := k.current hi hmc hr hprep
    rw [hr] at hprep
    obtain ⟨hkeys, hall⟩ := k.agrees hcur (hrecords.state fun _ _ h => by simp [start] at h) hprep
    refine runAll_fst_eq rfl rfl (fun key hkey => ?_) (fun hany => ?_)
    · rw [hfinal] at hkey
      exact hkeys key hkey
    · have := readVersion_runAll_of_readsAll mc.changeset.start hany
      rw [hfinal] at this
      exact hall this

/-- **Committed transactions are serialisable**: one that commits at version `v` has made, on every map and at every
point, the observations it makes on the tables of the surviving versions up to `v - 1`. -/
theorem observations_along_run (h : Along step Permitted (init term hooks) actions) {i v : ℕ}
    (hc : (exec step (init term hooks) actions).commitVersion i = some v) :
    (exec step (init term hooks) actions).history.version = v - 1 ∧
      (exec step (init term hooks) actions).ObservesSerially i (v - 1) := by
  have k := inv_run h
  obtain ⟨hv, t, store, hcommit⟩ := commitVersion_eq_some hc
  have hversion := (k.committed_of_commit hcommit hv).1
  have hlast : (exec step (init term hooks) actions).history.version = v - 1 := by omega
  refine ⟨hlast, fun name mc hmc => ?_⟩
  rw [← hlast]
  exact k.observations hcommit hv hmc

/-- Transaction 2 reads a key and looks at a whole map while transaction 3 commits to another map. -/
def overlappingRun : List Action :=
  [.openMap 1 [1], .op 1 [1] (.put [7] [70]), .commit 1,
    .openMap 2 [1], .op 2 [1] (.get [7]), .op 2 [1] .foreach, .openMap 2 [2], .op 2 [2] (.put [8] [80]),
    .openMap 3 [3], .op 3 [3] (.put [9] [90]), .commit 3, .compact 1]

theorem observations_along_overlappingRun :
    Along step Permitted (init 2 fun _ => false) overlappingRun ∧
      (exec step (init 2 fun _ => false) overlappingRun).ObservesSerially 2 2 :=
  ⟨by decide +kernel, (observations_along_run (by decide +kernel) (v := 3) (by decide +kernel)).2⟩

/-- Transaction 1 creates a map by removing a key from it. Transaction 2 looks at the whole map, and finds it
empty; transaction 3 puts a key into it and commits before transaction 2 does. -/
def phantomRun : List Action :=
  [.openMap 1 [1], .op 1 [1] (.remove [7]), .commit 1,
    .openMap 2 [1], .op 2 [1] .foreach, .openMap 2 [2], .op 2 [2] (.put [8] [80]),
    .openMap 3 [1], .op 3 [1] (.put [7] [70]), .commit 3]

/-- Without the condition on created maps a transaction commits although the map it has looked at has
changed. -/
theorem not_observations_along_run :
    ¬∀ (term : ℕ) (hooks : Name → Bool) (actions : List Action) (i v : ℕ),
      (exec step (init term hooks) actions).commitVersion i = some v →
        (exec step (init term hooks) actions).history.version = v - 1 ∧
          (exec step (init term hooks) actions).ObservesSerially i (v - 1) := by
  intro h
  obtain ⟨-, hserial⟩ := h 2 (fun _ => false) phantomRun 2 3 (by decide +kernel)
  have htrace : (((exec step (init 2 fun _ => false) phantomRun).txs 2).allChanges[([1] : Name)]?).map
      MapChanges.trace = some [(.foreach, .elements [])] := by decide +kernel
  obtain ⟨mc, hmc, htrace⟩ := map_eq_some_iff.1 htrace
  have hresults := hserial [1] mc hmc
  rw [htrace] at hresults
  have hphantom : (elements
      { state := (exec step (init 2 fun _ => false) phantomRun).history.tableAt 2 [1] }) = [([7], [70])] := by
    decide +kernel
  have hempty : [Result.elements []] = [Result.elements (elements
      { state := (exec step (init 2 fun _ => false) phantomRun).history.tableAt 2 [1] })] := hresults
  exact absurd hempty (by decide)

/-! ### Reading the store -/

/-- The change set of a read-only transaction at version `w` on the map `name`. -/
def readAt (s : System) (w : ℕ) (name : Name) : Option ChangeSet :=
  ((({ readTxid := some ⟨0, w⟩ } : Tx).openMap s.store name).2.allChanges[name]?).map MapChanges.changeset

/-- A read-only transaction at version `w` sees the table `name` of the history at `w`, with the versions of
its entries, and what it sees as globally committed is the table at the compacted version. -/
def ReadsHistory (s : System) (w : ℕ) (name : Name) : Prop :=
  ∃ cs, s.readAt w name = some cs ∧ cs.state = s.history.tableAt w name ∧
    (∀ key, (cs.readKey key).1 = (s.history.tableAt w name)[key]?.map Tagged.value) ∧
    (∀ key, (cs.getVersionOfPreviousWrite key).1 = (s.history.tableAt w name)[key]?.map Tagged.version) ∧
    ∀ key, cs.getGloballyCommitted key = (s.history.tableAt s.store.compacted name)[key]?.map Tagged.value

theorem readsHistory_of_changeSet
    (hread : (s.store.obj (s.store.getMap w name)).roll.createChangeSet w false = some cs)
    (hstate : cs.state = s.history.tableAt w name)
    (hcommitted : cs.committed = s.history.tableAt s.store.compacted name) : s.ReadsHistory w name := by
  have hwrites : cs.writes = ∅ := by
    obtain ⟨e, -, rfl⟩ := map_eq_some_iff.1 hread
    rfl
  refine ⟨cs, ?_, hstate, fun key => ?_, fun key => ?_, fun key => ?_⟩
  · have hnot : name ∉ (∅ : ExtTreeMap Name MapChanges) := ExtTreeMap.not_mem_empty
    simp only [readAt, Tx.openMap, Tx.acquire, Tx.getMapAndChangeSet, Tx.readSeqno, elim_some, if_neg hnot,
      hread, ExtTreeMap.getElem?_insert_self, map_some]
  · simp only [readKey, hwrites, ExtTreeMap.getElem?_empty, hstate]
  · simp only [getVersionOfPreviousWrite, hstate]
  · simp only [getGloballyCommitted, hcommitted]

/-- **The store refines the history of its write sets**: a read-only transaction at any version from the compacted to
the current one reads the history. -/
theorem reads_along_run (h : Along step Permitted (init term hooks) actions) {w : ℕ}
    (hcompacted : (exec step (init term hooks) actions).store.compacted ≤ w)
    (hw : w ≤ (exec step (init term hooks) actions).store.version) (name : Name) :
    (exec step (init term hooks) actions).ReadsHistory w name := by
  have k := inv_run h
  generalize exec step (init term hooks) actions = s at *
  have hwv : w ≤ s.history.version := k.refines.version ▸ hw
  have hbase : s.history.base ≤ s.store.compacted := k.base ▸ Nat.zero_le _
  cases hmap : s.store.getMap w name with
  | none =>
    -- the map is missing or was created after `w`: its table is empty up to `w`
    have hempty : ∀ u ≤ w, s.history.tableAt u name = ∅ := by
      intro u hu
      cases hs : s.store.maps[name]? with
      | none => exact k.refines.absent hs u (k.base ▸ Nat.zero_le _) (hu.trans hwv)
      | some p =>
        refine k.refines.before (c := p.1) (r := p.2) hs u (k.base ▸ Nat.zero_le _) (hu.trans_lt ?_)
        by_contra hle
        simp [Store.getMap, hs, not_lt.1 hle] at hmap
    exact readsHistory_of_changeSet (by rw [hmap]; rfl) (hempty w le_rfl).symm (hempty _ hcompacted).symm
  | some r =>
    obtain ⟨c, hname, -⟩ := Store.getMap_eq_some hmap
    have hkeeps := k.refines.keeps hname
    rw [max_eq_left hbase] at hkeeps
    have hcontent := hkeeps.content w (hbase.trans hcompacted) (hkeeps.head_le.trans hcompacted) hwv
    obtain ⟨e, hfind, hstate⟩ := map_eq_some_iff.1 hcontent
    refine readsHistory_of_changeSet (by rw [hmap, Roll.createChangeSet, Store.obj, elim_some, hfind]; rfl)
      hstate hkeeps.head_state

/-- A commit, a deserialised entry that replaces it, a compaction and a rollback. -/
def replacingRun : List Action :=
  [.openMap 1 [1], .op 1 [1] (.put [7] [70]), .commit 1, .openMap 2 [1], .op 2 [1] (.put [7] [71]), .commit 2,
    .deserialise 2 3 [{ name := [1], puts := [([8], [80])] }], .compact 1,
    .openMap 3 [1], .op 3 [1] (.remove [7]), .commit 3, .rollback ⟨3, 2⟩ 4]

theorem reads_along_replacingRun :
    Along step Permitted (init 2 fun _ => false) replacingRun ∧
      (exec step (init 2 fun _ => false) replacingRun).ReadsHistory 2 [1] :=
  ⟨by decide +kernel, reads_along_run (by decide +kernel) (by decide +kernel) (by decide +kernel) [1]⟩

/-- Transaction 1 creates a map by removing a key from it. Transaction 2 puts a key into the map, and commits
after the creation of the map has been rolled back. -/
def orphanRun : List Action :=
  [.openMap 1 [1], .op 1 [1] (.remove [7]), .commit 1, .openMap 2 [1], .op 2 [1] (.put [7] [70]),
    .rollback ⟨2, 0⟩ 2, .commit 2]

/-- Without the condition on created maps a commit is lost: transaction 2 writes to a map that the store has
dropped. -/
theorem not_reads_along_run :
    ¬∀ (term : ℕ) (hooks : Name → Bool) (actions : List Action),
      Along step (fun s a => ∀ v, a = .compact v → s.store.compacted ≤ v) (init term hooks) actions →
        ∀ w, (exec step (init term hooks) actions).store.compacted ≤ w →
          w ≤ (exec step (init term hooks) actions).store.version →
            ∀ name, (exec step (init term hooks) actions).ReadsHistory w name := by
  intro h
  have halong : Along step (fun s a => ∀ v, a = .compact v → s.store.compacted ≤ v) (init 2 fun _ => false)
      orphanRun := by
    simp [orphanRun, Along]
  obtain ⟨cs, hread, hstate, -⟩ :=
    h 2 (fun _ => false) orphanRun halong 1 (by decide +kernel) (by decide +kernel) [1]
  have hempty : ((exec step (init 2 fun _ => false) orphanRun).readAt 1 [1]).map state = some ∅ := by
    decide +kernel
  have hlost : (exec step (init 2 fun _ => false) orphanRun).history.tableAt 1 [1] ≠ ∅ := by decide +kernel
  rw [hread, map_some, hstate] at hempty
  exact hlost (some.inj hempty)

end System

end Ccf.Kv
