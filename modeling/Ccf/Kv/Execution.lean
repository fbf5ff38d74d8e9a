import Ccf.Kv.Serialisability
import Ccf.Kv.WriteSet

/-! # Executing entries

`Store::fill_maps` and `CFTExecutionWrapper::apply` (`store.h`, `deserialise.h`) on the bytes of an entry. Both leave
the store changed also when they fail: the versions that the entry replaces are rolled back before its content is
looked at, and the signature tables are checked after it has been committed. -/

namespace Ccf.Kv

open Versioned Runs
open Std (ExtTreeMap)

inductive ApplyResult where
  | pass
  | passSignature
  | passEncryptedPastLedgerSecret
  | fail
deriving DecidableEq

namespace Tables

def signatures : Name := asciiBytes "public:ccf.internal.signatures"

def coseSignatures : Name := asciiBytes "public:ccf.internal.cose_signatures"

def serialisedMerkleTree : Name := asciiBytes "public:ccf.internal.tree"

def encryptedPastLedgerSecret : Name := asciiBytes "public:ccf.internal.historical_encrypted_ledger_secret"

end Tables

/-- What an execution wrapper and its store are set up with. -/
structure Setup where
  encryptor : Option Encryptor := none
  isHistorical : Bool := false
  strictVersions : Bool := true
  publicOnly : Bool := false
  expectedTxid : Option TxID := none
  /-- `verify_root_signatures` of the history, if there is one. -/
  verifyRootSignatures : Option (Store → ℕ → Bool) := none

namespace Setup

def init (w : Setup) (data : List UInt8) : Except CodecFault (Option (EntryHead × Deserialiser)) :=
  Deserialiser.init w.encryptor w.publicOnly w.isHistorical data

/-- Whether the entry has the transaction id that is expected of it. -/
def expects (w : Setup) (head : EntryHead) : Bool :=
  w.expectedTxid.all fun txid => head.term == txid.view && head.version == txid.seqno

def writesSignature (f : Filling) : Bool := f.contains Tables.signatures || f.contains Tables.coseSignatures

/-- The tables a signature transaction may write to. The case of two falls through to that of three. -/
def expectedContents (f : Filling) : Bool :=
  let merkleTree := f.contains Tables.serialisedMerkleTree
  let coseSignature := f.contains Tables.coseSignatures
  let signature := f.contains Tables.signatures
  f.size == 2 && (merkleTree && (coseSignature != signature)) ||
    (f.size == 2 || f.size == 3) && (merkleTree && coseSignature && signature)

/-- The part of `apply` after the changes have been committed. -/
def result (w : Setup) (v : ℕ) (f : Filling) (s : Store) : ApplyResult :=
  if writesSignature f && (!expectedContents f || w.verifyRootSignatures.any fun verify => !verify s v) then .fail
  else if f.contains Tables.encryptedPastLedgerSecret then .passEncryptedPastLedgerSecret
  else if writesSignature f then .passSignature
  else .pass

end Setup

namespace Store

/-- `fill_maps`: the changes of the entry, `none` for `return false`, and the store it leaves. -/
def fillMaps (s : Store) (w : Setup) (data : List UInt8) (ignoreStrictVersions : Bool) :
    Except CodecFault (Option (EntryHead × Filling)) × Store :=
  match w.init data with
  | .error e => (.error e, s)
  | .ok none => (.ok none, s)
  | .ok (some (head, d)) =>
    match s.forget head.version with
    | .error e => (.error (.store e), s)
    | .ok s =>
      if w.strictVersions && !ignoreStrictVersions && s.version != previousVersion head.version then (.ok none, s)
      else ((fillBlocks s head.version d.fuel d ∅).map fun f? => f?.map fun f => (head, f), s)

/-- `apply`, with the flag it gives to `fill_maps`. -/
def applyWith (s : Store) (w : Setup) (data : List UInt8) (ignoreStrictVersions trackDeletesOnMissingKeys : Bool) :
    Except CodecFault ApplyResult × Store :=
  match s.fillMaps w data ignoreStrictVersions with
  | (.error e, s) => (.error e, s)
  | (.ok none, s) => (.ok .fail, s)
  | (.ok (some (head, f)), s) =>
    if !w.expects head then (.ok .fail, s)
    else
      match s.commitDeserialised f head.version head.term trackDeletesOnMissingKeys with
      | .error e => (.error (.store e), s)
      | .ok (false, s) => (.ok .fail, s)
      | .ok (true, s) => (.ok (w.result head.version f s), s)

/-- `CFTExecutionWrapper::apply`. -/
def apply (s : Store) (w : Setup) (data : List UInt8) (trackDeletesOnMissingKeys : Bool) :
    Except CodecFault ApplyResult × Store :=
  s.applyWith w data true trackDeletesOnMissingKeys

/-! ### Rejected entries -/

/-- The store is the same: its version, view, compacted and last committable versions, and its maps with
their contents and rollback counters. -/
structure Unchanged (s s' : Store) : Prop where
  version : s'.version = s.version
  view : s'.termOfLastVersion = s.termOfLastVersion
  compacted : s'.compacted = s.compacted
  lastCommittable : s'.lastCommittable = s.lastCommittable
  rollbackCount : s'.rollbackCount = s.rollbackCount
  maps : s'.maps = s.maps
  objs : s'.objs = s.objs

variable {s s' s₁ : Store} {w : Setup} {data : List UInt8} {head : EntryHead} {d : Deserialiser} {f f' : Filling}
  {v : ℕ} {ignoreStrictVersions track : Bool}

theorem Unchanged.refl (s : Store) : s.Unchanged s := ⟨rfl, rfl, rfl, rfl, rfl, rfl, rfl⟩

/-- Nothing is rolled back when the entry has a version after the current one. -/
theorem forget_of_le (hv : s.version ≤ previousVersion v) (h : s.forget v = .ok s') : s' = s := by
  obtain ⟨b, hb, h⟩ := bind_eq_ok h
  rw [if_pos hv] at h
  cases h
  unfold Bookkeeping.rollback at hb
  simp only at hb
  split_ifs at hb
  cases hb
  rfl

theorem rollbackCount_forget (hv : previousVersion v < s.version) (h : s.forget v = .ok s') :
    s'.rollbackCount = s.rollbackCount + 1 := by
  obtain ⟨b, hb, h⟩ := bind_eq_ok h
  rw [if_neg hv.not_ge] at h
  cases h
  unfold Bookkeeping.rollback at hb
  simp only [if_neg hv.not_ge] at hb
  split_ifs at hb
  cases hb
  rfl

theorem rollbackCount_addDynamicMaps {views : Views} (h : addDynamicMaps v views s = .ok s') :
    s'.rollbackCount = s.rollbackCount := by
  induction views generalizing s with
  | nil =>
    cases h
    rfl
  | cons view views ih =>
    obtain ⟨name, r, c⟩ := view
    cases r with
    | some r => exact ih h
    | none =>
      unfold addDynamicMaps at h
      split_ifs at h
      · obtain ⟨s₁, hadd, h⟩ := bind_eq_ok h
        unfold addDynamicMap at hadd
        split_ifs at hadd
        cases hadd
        exact (ih h :)
      · exact ih h

/-- The entry passes the checks that are made before the commit, and the commit of its changes `f` leaves the
store `s₁`. -/
structure Commits (s : Store) (w : Setup) (head : EntryHead) (d : Deserialiser) (ignoreStrictVersions track : Bool)
    (f : Filling) (s₁ : Store) : Prop where
  strict : w.strictVersions = true → ignoreStrictVersions = false → s.version = previousVersion head.version
  expects : w.expects head = true
  filled : fillBlocks s head.version d.fuel d ∅ = .ok (some f)
  committed : s.commitDeserialised f head.version head.term track = .ok (true, s₁)

namespace Commits

variable (c : s.Commits w head d ignoreStrictVersions track f s₁)
include c

theorem eq (c' : s.Commits w head d ignoreStrictVersions track f' s') : s₁ = s' := by
  cases c.filled.symm.trans c'.filled
  exact (Prod.mk.inj (Except.ok.inj (c.committed.symm.trans c'.committed))).2

/-- A commit takes the entry's version and rolls nothing back. -/
theorem version_rollbackCount : s₁.version = head.version ∧ s₁.rollbackCount = s.rollbackCount := by
  obtain ⟨⟨o, s₂⟩, happly, hcommit⟩ := bind_eq_ok c.committed
  cases o with
  | none => cases hcommit
  | some u =>
    cases hcommit
    refine ⟨rfl, ?_⟩
    obtain ⟨-, ⟨-, rfl, -⟩ | ⟨-, -, s₃, hadd, -, rfl⟩⟩ := applyChanges_cases happly
    · rfl
    · show (f.views.foldl (commitView head.version track) s₃).rollbackCount = s.rollbackCount
      rw [foldl_commitView_eq]
      exact (rollbackCount_addDynamicMaps hadd :)

end Commits

/-- An entry is refused for its header, or the versions it replaces are forgotten; then it is refused or committed,
and what is returned after a commit depends on the signature tables. -/
theorem applyWith_cases {r : ApplyResult} (h : s.applyWith w data ignoreStrictVersions track = (.ok r, s')) :
    w.init data = .ok none ∧ r = .fail ∧ s' = s ∨
    ∃ head d store, w.init data = .ok (some (head, d)) ∧ s.forget head.version = .ok store ∧
      ((∀ f s₁, ¬store.Commits w head d ignoreStrictVersions track f s₁) ∧ r = .fail ∧ s' = store ∨
        ∃ f, store.Commits w head d ignoreStrictVersions track f s' ∧ r = w.result head.version f s') := by
  unfold applyWith fillMaps at h
  cases hinit : w.init data with
  | error e => simp [hinit] at h
  | ok o =>
    cases o with
    | none =>
      simp only [hinit, Prod.mk.injEq, Except.ok.injEq] at h
      exact .inl ⟨rfl, h.1.symm, h.2.symm⟩
    | some p =>
      obtain ⟨head, d⟩ := p
      cases hforget : s.forget head.version with
      | error e => simp [hinit, hforget] at h
      | ok store =>
        refine .inr ⟨head, d, store, rfl, hforget, ?_⟩
        simp only [hinit, hforget] at h
        split_ifs at h with hstrict
        · simp only [Prod.mk.injEq, Except.ok.injEq] at h
          refine .inl ⟨fun f s₁ c => ?_, h.1.symm, h.2.symm⟩
          simp only [Bool.and_eq_true, Bool.not_eq_true', bne_iff_ne] at hstrict
          exact hstrict.2 (c.strict hstrict.1.1 hstrict.1.2)
        · have hs : w.strictVersions = true → ignoreStrictVersions = false →
              store.version = previousVersion head.version := by simpa using hstrict
          cases hfill : fillBlocks store head.version d.fuel d ∅ with
          | error e => simp [hfill, Except.map] at h
          | ok f? =>
            cases f? with
            | none =>
              simp only [hfill, Except.map, Option.map_none, Prod.mk.injEq, Except.ok.injEq] at h
              refine .inl ⟨fun f s₁ c => ?_, h.1.symm, h.2.symm⟩
              cases hfill.symm.trans c.filled
            | some f =>
              simp only [hfill, Except.map, Option.map_some] at h
              split_ifs at h with hexpects
              · simp only [Prod.mk.injEq, Except.ok.injEq] at h
                exact .inl ⟨fun f s₁ c => by simp [c.expects] at hexpects, h.1.symm, h.2.symm⟩
              · cases hcommit : store.commitDeserialised f head.version head.term track with
                | error e => simp [hcommit] at h
                | ok r =>
                  obtain ⟨committed, s₂⟩ := r
                  simp only [hcommit] at h
                  cases committed with
                  | false =>
                    simp only [Prod.mk.injEq, Except.ok.injEq] at h
                    refine .inl ⟨fun f' s₁ c => ?_, h.1.symm, by rw [← h.2, commitDeserialised_false hcommit]⟩
                    cases hfill.symm.trans c.filled
                    cases hcommit.symm.trans c.committed
                  | true =>
                    simp only [Prod.mk.injEq, Except.ok.injEq] at h
                    obtain ⟨rfl, rfl⟩ := h
                    exact .inr ⟨f, ⟨hs, by simpa using hexpects, hfill, hcommit⟩, rfl⟩

/-- The entry has a version after the current one, and a check that is made before the commit refuses it. Only
at version 0 a commit can leave the store as it was. -/
def RefusedFirst (s : Store) (w : Setup) (data : List UInt8) (ignoreStrictVersions track : Bool) : Prop :=
  ∀ head d, w.init data = .ok (some (head, d)) → s.version ≤ previousVersion head.version ∧
    ∀ f s₁, s.Commits w head d ignoreStrictVersions track f s₁ → head.version = 0 ∧ s.Unchanged s₁

/-- **A rejected entry leaves the store unchanged** if and only if it has a version after the current one and is
refused before it is committed. -/
theorem apply_fail_unchanged (h : s.applyWith w data ignoreStrictVersions track = (.ok .fail, s')) :
    s.Unchanged s' ↔ s.RefusedFirst w data ignoreStrictVersions track := by
  constructor
  · intro hu head d hinit
    obtain ⟨hnone, -⟩ | ⟨_, _, store, hinit', hforget, hs'⟩ := applyWith_cases h
    · cases hnone.symm.trans hinit
    cases hinit.symm.trans hinit'
    have hle : s.version ≤ previousVersion head.version := by
      by_contra hlt
      have hforgotten := rollbackCount_forget (not_le.1 hlt) hforget
      have hcount : s'.rollbackCount = store.rollbackCount := by
        obtain ⟨-, -, rfl⟩ | ⟨f, c, -⟩ := hs'
        · rfl
        · exact c.version_rollbackCount.2
      have := hu.rollbackCount
      omega
    obtain rfl := forget_of_le hle hforget
    refine ⟨hle, fun f s₁ c => ?_⟩
    obtain ⟨hnot, -⟩ | ⟨f', c', -⟩ := hs'
    · exact absurd c (hnot f s₁)
    obtain rfl := c.eq c'
    refine ⟨?_, hu⟩
    have hversion := c.version_rollbackCount.1.symm.trans hu.version
    unfold previousVersion at hle
    split_ifs at hle with hzero
    · exact hzero
    · omega
  · intro hrefused
    obtain ⟨-, -, rfl⟩ | ⟨head, d, store, hinit, hforget, hs'⟩ := applyWith_cases h
    · exact .refl _
    obtain ⟨hle, hcommits⟩ := hrefused head d hinit
    obtain rfl := forget_of_le hle hforget
    obtain ⟨-, -, rfl⟩ | ⟨f, c, -⟩ := hs'
    · exact .refl _
    · exact (hcommits f s' c).2

/-- A store with one committed version of a map. -/
def written : Store :=
  (exec System.step (System.init 2 fun _ => false) [.openMap 1 [1], .op 1 [1] (.put [7] [70]), .commit 1]).store

/-- An entry of view 2 without map blocks. -/
def emptyEntry (v : ℕ) : List UInt8 :=
  let domain := publicHeader .writeSet v [] []
  serialisedEntryHeader 0 (domain.length + 12) ++ (leBytes 4 2 ++ (leBytes 8 domain.length ++ domain))

def expecting (txid : TxID) : Setup := { encryptor := some Encryptor.plain, expectedTxid := some txid }

theorem apply_fail_unchanged_written :
    (written.applyWith (expecting ⟨2, 3⟩) (emptyEntry 2) true false).1 = .ok .fail ∧
      (written.Unchanged (written.applyWith (expecting ⟨2, 3⟩) (emptyEntry 2) true false).2 ↔
        written.RefusedFirst (expecting ⟨2, 3⟩) (emptyEntry 2) true false) ∧
      written.RefusedFirst (expecting ⟨2, 3⟩) (emptyEntry 2) true false := by
  have hfail : (written.applyWith (expecting ⟨2, 3⟩) (emptyEntry 2) true false).1 = .ok .fail := by decide +kernel
  refine ⟨hfail, apply_fail_unchanged (Prod.ext hfail rfl), fun head d hinit => ?_⟩
  have hhead : ∃ d, (expecting ⟨2, 3⟩).init (emptyEntry 2) = .ok (some (⟨2, 2, 0, none, none⟩, d)) :=
    ⟨⟨⟨publicHeader .writeSet 2 [] [], 17, 17⟩, {}, false⟩, by decide +kernel⟩
  obtain ⟨d', hinit'⟩ := hhead
  cases hinit.symm.trans hinit'
  exact ⟨by decide +kernel, fun f s₁ c => absurd c.expects (by decide)⟩

/-- An entry of the current version with another transaction id than expected is rejected, but the version has
been rolled back. -/
theorem not_apply_fail_unchanged :
    ¬∀ (s s' : Store) (w : Setup) (data : List UInt8) (ignoreStrictVersions track : Bool),
      s.applyWith w data ignoreStrictVersions track = (.ok .fail, s') → s.Unchanged s' := by
  intro h
  have hfail : (written.applyWith (expecting ⟨9, 9⟩) (emptyEntry 1) true false).1 = .ok .fail := by decide +kernel
  have hversion := (h written _ (expecting ⟨9, 9⟩) (emptyEntry 1) true false (Prod.ext hfail rfl)).version
  exact absurd hversion (by decide +kernel)

end Store
end Ccf.Kv
