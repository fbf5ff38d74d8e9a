import Ccf.Kv.Execution

/-! # Replaying the entries of transactions

A store at the version before accepts what a transaction serialises: the blocks are read back
(`Tx.fillBlocks_serialise`), their change sets pass the preparation, since they have read nothing, and the commit
pushes the write set of the transaction (`Store.Refines.apply_serialise`). -/

namespace Ccf.Kv

open MapBlock List Versioned
open Std (ExtTreeMap)

/-! ### Commits that succeed -/

variable {s : Store} {blocks : List MapBlock} {v : ℕ} {h : WriteHistory} {f : Filling}

namespace Store

variable {views : Views}

theorem addDynamicMaps_ok (hnodup : (views.map Prod.fst).Nodup)
    (hnew : ∀ p ∈ views, p.2.1 = none → s.maps[p.1]? = none) : ∃ s', addDynamicMaps v views s = .ok s' := by
  induction views generalizing s with
  | nil => exact ⟨s, rfl⟩
  | cons view views ih =>
    obtain ⟨name, ref, c⟩ := view
    rw [map_cons, nodup_cons] at hnodup
    have hrest : ∀ p ∈ views, p.2.1 = none → s.maps[p.1]? = none := fun p hp => hnew p (mem_cons_of_mem _ hp)
    cases ref with
    | some r => exact ih hnodup.2 hrest
    | none =>
      rw [addDynamicMaps]
      split_ifs with hw
      · have hnone : s.getMap v name = none := by rw [getMap, hnew _ mem_cons_self rfl]
        have hadd : s.addDynamicMap v name = .ok (s.added v name) := by
          rw [addDynamicMap, hnone]
          rfl
        rw [hadd]
        refine ih hnodup.2 fun p hp hp' => ?_
        rw [maps_added, if_neg fun heq => hnodup.1 (mem_map.2 ⟨p, hp, heq.symm⟩), hrest p hp hp']
      · exact ih hnodup.2 hrest

/-- Views on the maps of the store that pass the preparation are committed. -/
theorem applyChanges_ok (hnodup : (views.map Prod.fst).Nodup)
    (href : ∀ p ∈ views, p.2.1 = s.ref? p.1) (hprepare : ∀ p ∈ views, p.2.2.prepare (s.obj p.2.1) = true) (v : ℕ)
    (track : Bool) (expected : Option ℕ) (hexpected : expected.all (· == s.rollbackCount) = true) :
    ∃ u s', s.applyChanges views (fun s => (v, s)) track expected = .ok (some u, s') := by
  have hnone : ∀ p ∈ views, p.2.1 = none → s.maps[p.1]? = none :=
    fun p hp hp' => ref?_eq_none.1 ((href p hp).symm.trans hp')
  have hnew : (views.all fun p => p.2.1.isSome || (s.getMap s.version p.1).isNone) = true := by
    rw [all_eq_true]
    intro p hp
    cases hp' : p.2.1 with
    | some r => rfl
    | none => simp [getMap, hnone p hp hp']
  have hprep : (views.all fun p => p.2.2.prepare (s.obj p.2.1)) = true := all_eq_true.2 hprepare
  obtain ⟨s₁, hadd⟩ := addDynamicMaps_ok (v := v) hnodup hnone
  simp only [applyChanges, hnew, hprep, hexpected, Bool.or_true, Bool.and_true, Bool.not_true, Bool.false_eq_true,
    if_false]
  split_ifs
  · exact ⟨_, _, rfl⟩
  · exact ⟨_, _, by rw [hadd]; rfl⟩

end Store

namespace Filling

/-- The change sets of blocks that have read nothing pass the preparation. -/
theorem prepare_addBlocks {f' : Filling}
    (hb : ∀ b ∈ blocks, b.readVersion = noVersion ∧ b.reads = []) (h : addBlocks s v blocks f = .next f')
    (hf : ∀ (name : Name) (x : Option ℕ × ChangeSet), f[name]? = some x → (s.obj x.1).roll.prepare x.2 = true)
    (name : Name) (x : Option ℕ × ChangeSet) (hx : f'[name]? = some x) : (s.obj x.1).roll.prepare x.2 = true := by
  induction blocks generalizing f with
  | nil =>
    cases h
    exact hf name x hx
  | cons b blocks ih =>
    unfold addBlocks at h
    cases hnext : f.addBlock s v b with
    | refused | raised => simp [hnext] at h
    | next f₁ =>
      simp only [hnext] at h
      obtain ⟨-, cs, hcs, rfl⟩ := addBlock_eq hnext
      refine ih (fun b' hb' => hb b' (mem_cons_of_mem _ hb')) h fun a y hy => ?_
      simp only [ExtTreeMap.getElem?_insert, Std.compare_eq_iff_eq] at hy
      split_ifs at hy with ha
      · cases hy
        obtain ⟨e, -, rfl⟩ := Option.map_eq_some_iff.1 hcs
        obtain ⟨hversion, hreads⟩ := hb b mem_cons_self
        simp [Roll.prepare, fill, hversion, hreads, noVersion]
      · exact hf a y hy

theorem addBlocks_ok (hnodup : (blocks.map name).Nodup) (hf : ∀ b ∈ blocks, b.name ∉ f)
    (hcs : ∀ name, ((s.obj (s.getMap v name)).roll.createChangeSet v false).isSome) :
    ∃ f', addBlocks s v blocks f = .next f' := by
  induction blocks generalizing f with
  | nil => exact ⟨f, rfl⟩
  | cons b blocks ih =>
    obtain ⟨hname, hnodup⟩ := nodup_cons.1 hnodup
    obtain ⟨cs, hcs'⟩ := Option.isSome_iff_exists.1 (hcs b.name)
    simp only [addBlocks, addBlock, if_neg (hf b mem_cons_self), hcs']
    refine ih hnodup fun b' hb' => ?_
    rw [ExtTreeMap.mem_insert, not_or, Std.compare_eq_iff_eq]
    refine ⟨fun heq => hname (heq ▸ mem_map_of_mem hb'), hf b' (mem_cons_of_mem _ hb')⟩

end Filling

/-- Every map of the store has a change set at the versions after the current one. -/
theorem Store.Refines.createChangeSet_isSome (k : s.Refines h)
    (hv : s.version ≤ v) (name : Name) : ((s.obj (s.getMap v name)).roll.createChangeSet v false).isSome := by
  rw [k.getMap_eq hv, Roll.createChangeSet, Option.isSome_map]
  cases hr : s.ref? name with
  | none => rfl
  | some r =>
    obtain ⟨c, hc⟩ := ref?_eq_some.1 hr
    have hle : (s.objs r).roll.tail.version ≤ v := ((k.keeps hc).tail_le.trans_eq k.version).trans hv
    rw [show s.obj (some r) = s.objs r from rfl, Roll.find?_tail _ hle]
    rfl

/-- `commit_deserialised` on blocks that have read nothing. -/
theorem Store.Refines.commitDeserialised_ok (k : s.Refines h) (term : ℕ)
    (hv : s.version ≤ v) (hnodup : (blocks.map name).Nodup)
    (hb : ∀ b ∈ blocks, b.readVersion = noVersion ∧ b.reads = []) :
    ∃ f s', Filling.addBlocks s v blocks ∅ = .next f ∧ s.commitDeserialised f v term false = .ok (true, s') := by
  obtain ⟨f, hf⟩ := Filling.addBlocks_ok (s := s) (v := v) (f := ∅) hnodup (fun _ _ => ExtTreeMap.not_mem_empty)
    (k.createChangeSet_isSome hv)
  have hview := k.viewing hv hf
  obtain ⟨u, s', happly⟩ := applyChanges_ok hview.nodup hview.ref (fun p hp => by
    obtain ⟨x, hx, hp⟩ := Filling.mem_views.1 hp
    rw [hp]
    exact Filling.prepare_addBlocks hb hf (by simp) p.1 x hx) v false none rfl
  refine ⟨f, { s' with version := v, lastReplicated := v, termOfLastVersion := term }, hf, ?_⟩
  rw [Store.commitDeserialised, happly]
  rfl

/-! ### The blocks of a transaction -/

variable {t : Tx} {e : Encryptor} {evidence : TxID → Digest} {claims : Digest} {flags : UInt8} {data : List UInt8}

namespace Tx

variable {includeReads : Bool} {b : MapBlock}

theorem mem_entryBlocks :
    b ∈ t.entryBlocks includeReads ↔ ∃ (name : Name) (mc : MapChanges), t.allChanges[name]? = some mc ∧
      mc.changeset.hasWrites = true ∧ b = ofChanges name mc.changeset includeReads := by
  simp only [entryBlocks, blocks, mem_append, mem_map, mem_filter, Bool.and_eq_true, decide_eq_true_eq]
  constructor
  · rintro (⟨p, ⟨hp, -, hw⟩, rfl⟩ | ⟨p, ⟨hp, -, hw⟩, rfl⟩) <;>
      exact ⟨p.1, p.2, ExtTreeMap.mem_toList_iff_getElem?_eq_some.1 hp, hw, rfl⟩
  · rintro ⟨name, mc, hmc, hw, rfl⟩
    have hp := ExtTreeMap.mem_toList_iff_getElem?_eq_some.2 hmc
    cases hdomain : getSecurityDomain name with
    | publicDomain => exact .inl ⟨(name, mc), ⟨hp, hdomain, hw⟩, rfl⟩
    | privateDomain => exact .inr ⟨(name, mc), ⟨hp, hdomain, hw⟩, rfl⟩

theorem nodup_entryBlocks : ((t.entryBlocks includeReads).map MapBlock.name).Nodup := by
  have hnames : ∀ domain, (t.blocks domain includeReads).map name =
      (t.allChanges.toList.filter fun p => getSecurityDomain p.1 = domain && p.2.changeset.hasWrites).map Prod.fst := by
    intro domain
    rw [blocks, map_map]
    rfl
  have hnodup : ∀ domain, ((t.blocks domain includeReads).map name).Nodup := fun domain =>
    hnames domain ▸ (nodup_keys t.allChanges).sublist (filter_sublist.map _)
  have hdomain : ∀ domain, ∀ name ∈ (t.blocks domain includeReads).map MapBlock.name,
      getSecurityDomain name = domain := by
    intro domain name hname
    rw [hnames] at hname
    obtain ⟨p, hp, rfl⟩ := mem_map.1 hname
    have hp := (mem_filter.1 hp).2
    rw [Bool.and_eq_true, decide_eq_true_eq] at hp
    exact hp.1
  rw [entryBlocks, map_append]
  refine List.Nodup.append (hnodup _) (hnodup _) fun name hpub hpriv => ?_
  have := (hdomain _ name hpub).symm.trans (hdomain _ name hpriv)
  cases this

theorem blockWrites_entryBlocks (name : Name) : blockWrites (t.entryBlocks includeReads) name = t.writeSet name := by
  unfold blockWrites writeSet
  cases hfind : (t.entryBlocks includeReads).find? fun b => b.name == name with
  | some b =>
    obtain ⟨a, mc, hmc, -, rfl⟩ := mem_entryBlocks.1 (mem_of_find?_eq_some hfind)
    obtain rfl : a = name := by simpa [ofChanges] using find?_some hfind
    rw [Option.elim_some, writes_ofChanges, hmc, Option.elim_some]
  | none =>
    cases hmc : t.allChanges[name]? with
    | none => rfl
    | some mc =>
      have hempty : mc.changeset.hasWrites = false := by
        by_contra hw
        have hmem : ofChanges name mc.changeset includeReads ∈ t.entryBlocks includeReads :=
          mem_entryBlocks.2 ⟨name, mc, hmc, by simpa using hw, rfl⟩
        exact absurd (find?_eq_none.1 hfind _ hmem) (by simp [ofChanges])
      have hwrites : mc.changeset.writes = ∅ := by simpa [ChangeSet.hasWrites] using hempty
      rw [Option.elim_none, Option.elim_some, hwrites]

theorem reads_entryBlocks (hb : b ∈ t.entryBlocks false) : b.readVersion = noVersion ∧ b.reads = [] := by
  obtain ⟨name, mc, -, -, rfl⟩ := mem_entryBlocks.1 hb
  exact ⟨rfl, rfl⟩

/-! ### Executing an entry -/

theorem serialise_eq (hser : t.serialise (some e) evidence (some claims) flags includeReads = .ok data)
    (hwrites : ∃ name, t.writeSet name ≠ ∅) :
    serialiseDomains (some e) ⟨t.commitView, t.version⟩ .writeSetWithCommitEvidenceAndClaims flags false
      (publicHeader .writeSetWithCommitEvidenceAndClaims t.version claims.1 (evidence ⟨t.commitView, t.version⟩).1 ++
        (t.blocks .publicDomain includeReads).flatMap bytes)
      ((t.blocks .privateDomain includeReads).flatMap bytes) = .ok data := by
  obtain ⟨name, hname⟩ := hwrites
  have hsome : ¬(t.allChanges.toList.all fun p => !p.2.changeset.hasWrites) = true := by
    intro hall
    unfold writeSet at hname
    cases hmc : t.allChanges[name]? with
    | none => simp [hmc] at hname
    | some mc =>
      have hnone := all_eq_true.1 hall (name, mc) (ExtTreeMap.mem_toList_iff_getElem?_eq_some.2 hmc)
      rw [hmc, Option.elim_some] at hname
      exact hname (by simpa [ChangeSet.hasWrites] using hnone)
  unfold serialise at hser
  split_ifs at hser with hcommitted
  exact hser

/-- The blocks of a serialised entry fit, and are no more than its bytes. -/
theorem fits_entryBlocks (he : e.Inverse) {txid : TxID} {type : EntryType} {hint : Bool} {header : List UInt8}
    (hser : serialiseDomains (some e) txid type flags hint
      (header ++ (t.blocks .publicDomain false).flatMap bytes)
      ((t.blocks .privateDomain false).flatMap bytes) = .ok data) : ∀ b ∈ t.entryBlocks false, b.Fits := by
  obtain ⟨hdr, cipher, body, henc, rfl, hsize, -⟩ := Deserialiser.serialiseDomains_eq he hser
  have hcipher := (he.lengths henc).2
  simp only [length_append] at hsize
  have hle : ∀ domain, ∀ b ∈ t.blocks domain false, b.bytes.length ≤ ((t.blocks domain false).flatMap bytes).length :=
    fun domain => (length_flatMap_le (fun b => by rw [bytes, length_append, length_sizePrefixed]; omega) _).2
  intro b hb
  obtain ⟨hversion, hreads⟩ := reads_entryBlocks hb
  refine ⟨?_, by rw [hversion]; decide, by simp [hreads]⟩
  rcases mem_append.1 hb with hb | hb
  · have := hle _ b hb
    omega
  · have := hle _ b hb
    omega

end Tx

/-- The wrapper reads entries of the transaction `txid` in full. -/
structure Setup.Reads (w : Setup) (e : Encryptor) (txid : TxID) : Prop where
  encryptor : w.encryptor = some e
  publicOnly : w.publicOnly = false
  expected : ∀ expected ∈ w.expectedTxid, expected = txid

namespace Store

theorem forget_next (hc : s.compacted ≤ s.version) : s.forget (s.version + 1) = .ok s := by
  have hprev : previousVersion (s.version + 1) = s.version := by simp [previousVersion]
  simp only [forget, hprev, rollback, Bookkeeping.rollback, if_neg (not_lt.2 hc), if_pos le_rfl]
  rfl

section
variable (k : s.Refines h) (he : e.Inverse) {w : Setup} (hw : w.Reads e ⟨t.commitView, t.version⟩)
  (hwrites : ∃ name, t.writeSet name ≠ ∅)
  (hser : t.serialise (some e) evidence (some claims) flags false = .ok data)
  (hv : t.version = s.version + 1) (hlt : t.version < 2 ^ 64)
include k he hw hwrites hser hv hlt

theorem Refines.fillMaps_serialise (hf : Filling.addBlocks s t.version (t.entryBlocks false) ∅ = .next f) :
    ∃ head, s.fillMaps w data true = (.ok (some (head, f)), s) ∧ head.version = t.version ∧
      head.term = t.commitView := by
  have hser := Tx.serialise_eq hser hwrites
  have hfits := Tx.fits_entryBlocks he hser
  obtain ⟨d, hdr, cipher, henc, hinit, -, hleft⟩ := Deserialiser.init_serialiseDomains he hlt claims.2
    (evidence ⟨t.commitView, t.version⟩).2 hser w.isHistorical
  have hfuel : (t.entryBlocks false).length < d.fuel := by
    have hlen : ∀ domain, (t.blocks domain false).length ≤ ((t.blocks domain false).flatMap bytes).length :=
      fun domain => (length_flatMap_le
        (fun b => by rw [bytes, length_append, length_sizePrefixed]; omega) _).1
    have hpub := hlen .publicDomain
    have hpriv := hlen .privateDomain
    have := hleft.publicReader.size
    have := hleft.privateReader.size
    rw [Tx.entryBlocks, length_append, Deserialiser.fuel]
    omega
  have hfill := fillBlocks_eq (s := s) (v := t.version) (f := ∅) hfits ⟨_, _, rfl, hleft⟩ hfuel
  rw [hf, Filled.result] at hfill
  refine ⟨{ version := t.version, term := e.getTerm hdr, flags := flags, claimsDigest := some claims.1,
            commitEvidenceDigest := some (evidence ⟨t.commitView, t.version⟩).1 }, ?_, rfl, he.term henc (by decide)⟩
  rw [fillMaps, Setup.init, hw.encryptor, hw.publicOnly, hinit]
  simp only [Bool.not_true, Bool.and_false, Bool.false_and, Bool.false_eq_true, if_false]
  rw [hv, forget_next k.compacted_le, ← hv]
  simp only [hfill]
  rfl

/-- **Replaying a transaction**: its entry is accepted by a store at the version before it, which then has the
write set of the transaction as its last version. -/
theorem Refines.apply_serialise :
    (s.apply w data false).2.Refines (h.push t.writeSet) ∧ Committed s (s.apply w data false).2 t.version t.writeSet ∧
      (s.apply w data false).2.version = t.version ∧ (s.apply w data false).2.compacted = s.compacted ∧
      (s.apply w data false).2.termOfLastVersion = t.commitView := by
  have hle : s.version ≤ t.version := by omega
  obtain ⟨f, s', hf, hcommit⟩ := k.commitDeserialised_ok t.commitView hle Tx.nodup_entryBlocks
    fun b => Tx.reads_entryBlocks
  obtain ⟨head, hfill, hversion, hterm⟩ := k.fillMaps_serialise he hw hwrites hser hv hlt hf
  have hexpects : w.expects head = true := by
    rw [Setup.expects, Option.all_eq_true]
    intro txid htxid
    rw [hw.expected txid htxid]
    simp [hversion, hterm]
  have happly : (s.apply w data false).2 = s' := by
    rw [apply, applyWith, hfill]
    simp only [hexpects, Bool.not_true, Bool.false_eq_true, if_false, hversion, hterm, hcommit]
  obtain ⟨hc, hversion', hcompacted, hview, -⟩ := k.commitDeserialised hle hf hcommit
  have hd : blockWrites (t.entryBlocks false) = t.writeSet := funext fun name => Tx.blockWrites_entryBlocks name
  rw [hd] at hc
  rw [happly]
  refine ⟨?_, hc, hversion', hcompacted, hview⟩
  rw [hv, ← k.version] at hc
  exact k.push hc (hversion'.trans hv) hcompacted

end

end Store
end Ccf.Kv
