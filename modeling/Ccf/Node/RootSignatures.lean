import Ccf.Kv.Backup

/-! # Verifying the signatures over the root

`HashedTxHistory::verify_root_signatures` (`history.h`) and `verify_node_signature` on a store, and what a backup
learns from an entry for which `CFTExecutionWrapper::apply` returns `PASS_SIGNATURE`.

A signature counts as one of version `v` if its value was written at `v`. Older values are passed over, since either
kind of signature may be missing: with an old COSE signature, or an old node signature and no COSE signature, the
answer is `true` though nothing has been verified. So an entry that has a signature table among its changes, but does
not put a signature there, passes as a signature (`not_signed_stale`). -/

namespace Ccf.Kv

open Tables Versioned Runs
open Std (ExtTreeMap)

namespace Tables

def service : Name := asciiBytes "public:ccf.gov.service.info"

def nodes : Name := asciiBytes "public:ccf.gov.nodes.info"

def nodeEndorsedCertificates : Name := asciiBytes "public:ccf.gov.nodes.endorsed_certificates"

/-- The tables whose changes make an entry a signature. -/
def signing : List Name := [signatures, coseSignatures]

end Tables

/-- The key of a table with one value (`ZeroBlitUnitCreator`). -/
def unitKey : SerialisedEntry := leBytes 8 0

namespace Store

/-- What a read-only transaction has under a key of a map. -/
def read (s : Store) (name : Name) (key : SerialisedEntry) : Option VersionV := (s.content name)[key]?

/-- The value of the table was written at version `v`. -/
def Wrote (s : Store) (v : ℕ) (name : Name) (value : SerialisedEntry) : Prop := s.read name unitKey = some ⟨v, value⟩

end Store

/-- The serialisers of the values read, and the verifiers of the two kinds of signatures; `none` is an
exception. -/
structure RootVerifier where
  /-- Node and bytes of a `PrimarySignature`. -/
  primarySignature : SerialisedEntry → Option (SerialisedEntry × List UInt8)
  coseSignature : SerialisedEntry → Option (List UInt8)
  /-- The certificate in a `ServiceInfo`. -/
  serviceCert : SerialisedEntry → Option (List UInt8)
  /-- The certificate in a `NodeInfo`, which may have none. -/
  nodeCert : SerialisedEntry → Option (Option (List UInt8))
  verifyHash : (cert root sig : List UInt8) → Option Bool
  verifyDetached : (cert cose root : List UInt8) → Option Bool

namespace RootVerifier

variable (K : RootVerifier) (root : List UInt8) (s : Store)

/-- The certificate of a node: the endorsed one, or else that in the table of the nodes. -/
def certOf (node : SerialisedEntry) : Option (Option (List UInt8)) :=
  match s.read nodeEndorsedCertificates node with
  | some x => some (some x.value)
  | none => (s.read nodes node).elim (some none) fun x => K.nodeCert x.value

def verifyNodeSignature (node : SerialisedEntry) (sig : List UInt8) : Option Bool := do
  match ← K.certOf s node with
  | none => return false
  | some cert => K.verifyHash cert root sig

/-- The first part of `verify_root_signatures`, on the node signature. -/
def verifyPrimarySignature (v : ℕ) : Option Bool :=
  match s.read Tables.signatures unitKey with
  | none => some true
  | some x => do
      let (node, sig) ← K.primarySignature x.value
      if x.version = v then K.verifyNodeSignature root s node sig else return true

def verifyCoseSignature (cose : List UInt8) : Option Bool := do
  match s.read Tables.service unitKey with
  | none => return false
  | some x => K.verifyDetached (← K.serviceCert x.value) cose root

/-- `verify_root_signatures`. -/
def verifyRootSignatures (v : ℕ) : Option Bool := do
  if !(← K.verifyPrimarySignature root s v) then return false
  else
    match s.read coseSignatures unitKey with
    -- an old entry without a COSE signature
    | none => return (s.read Tables.signatures unitKey).isSome
    | some x =>
      let cose ← K.coseSignature x.value
      if x.version ≠ v then return true else K.verifyCoseSignature root s cose

/-- As the history of an execution wrapper. -/
def accepts (v : ℕ) : Bool := K.verifyRootSignatures root s v = some true

/-! ### What has been verified -/

/-- A valid signature over the root by the node that it names. -/
def ValidPrimary (value : SerialisedEntry) : Prop :=
  ∃ node sig cert, K.primarySignature value = some (node, sig) ∧ K.certOf s node = some (some cert) ∧
    K.verifyHash cert root sig = some true

/-- A valid signature over the root by the service. -/
def ValidCose (value : SerialisedEntry) : Prop :=
  ∃ cose info cert, K.coseSignature value = some cose ∧ s.read Tables.service unitKey = some info ∧
    K.serviceCert info.value = some cert ∧ K.verifyDetached cert cose root = some true

/-- There is a signature written at version `v`, and every one is a valid signature over the root. -/
structure Signed (s : Store) (v : ℕ) : Prop where
  wrote : ∃ name ∈ signing, ∃ value, s.Wrote v name value
  primary : ∀ value, s.Wrote v Tables.signatures value → K.ValidPrimary root s value
  cose : ∀ value, s.Wrote v coseSignatures value → K.ValidCose root s value

variable {K root} {s : Store} {v : ℕ}

theorem validPrimary_of_verified (h : K.verifyPrimarySignature root s v = some true) {value : SerialisedEntry}
    (hw : s.Wrote v Tables.signatures value) : K.ValidPrimary root s value := by
  unfold Store.Wrote at hw
  simp only [verifyPrimarySignature, hw, if_true] at h
  obtain ⟨⟨node, sig⟩, hsig, h⟩ := Option.bind_eq_some_iff.1 h
  obtain ⟨cert, hcert, h⟩ := Option.bind_eq_some_iff.1 h
  cases cert with
  | none => cases h
  | some cert => exact ⟨node, sig, cert, hsig, hcert, h⟩

/-- What the answer `true` rests on: the check of the node signature, and either a COSE signature, old or verified, or
else a node signature. -/
theorem verifyRootSignatures_eq_true (h : K.verifyRootSignatures root s v = some true) :
    K.verifyPrimarySignature root s v = some true ∧
      ((s.read coseSignatures unitKey = none ∧ (s.read Tables.signatures unitKey).isSome) ∨
        ∃ x cose, s.read coseSignatures unitKey = some x ∧ K.coseSignature x.value = some cose ∧
          (x.version = v → K.verifyCoseSignature root s cose = some true)) := by
  obtain ⟨ok, hok, h⟩ := Option.bind_eq_some_iff.1 h
  cases ok with
  | false => cases h
  | true =>
    refine ⟨hok, ?_⟩
    cases hx : s.read coseSignatures unitKey with
    | none =>
      simp only [hx] at h
      exact .inl ⟨rfl, by simpa using h⟩
    | some x =>
      simp only [hx] at h
      obtain ⟨cose, hcose, h⟩ := Option.bind_eq_some_iff.1 h
      refine .inr ⟨x, cose, rfl, hcose, fun hv => ?_⟩
      rwa [if_neg (not_not_intro hv)] at h

theorem validCose_of_verified {cose value : List UInt8} (hcose : K.coseSignature value = some cose)
    (h : K.verifyCoseSignature root s cose = some true) : K.ValidCose root s value := by
  unfold verifyCoseSignature at h
  cases hx : s.read Tables.service unitKey with
  | none => simp [hx] at h
  | some x =>
    simp only [hx] at h
    obtain ⟨cert, hcert, h⟩ := Option.bind_eq_some_iff.1 h
    exact ⟨cose, x, cert, hcose, hx, hcert, h⟩

theorem valid_of_verified (h : K.verifyRootSignatures root s v = some true) :
    (∀ value, s.Wrote v Tables.signatures value → K.ValidPrimary root s value) ∧
      ∀ value, s.Wrote v coseSignatures value → K.ValidCose root s value := by
  obtain ⟨hprimary, hcose⟩ := verifyRootSignatures_eq_true h
  refine ⟨fun value => validPrimary_of_verified hprimary, fun value hw => ?_⟩
  obtain ⟨hnone, -⟩ | ⟨x, cose, hx, hparse, hverified⟩ := hcose
  · rw [Store.Wrote, hnone] at hw
    cases hw
  · cases hx.symm.trans hw
    exact validCose_of_verified hparse (hverified rfl)

end RootVerifier

/-! ### What an entry leaves in a table -/

/-- Whether a write set puts a signature. -/
def putsSignature (d : Name → Write) : Bool := signing.any fun name => ((d name)[unitKey]?).join.isSome

theorem putsSignature_iff {d : Name → Write} :
    putsSignature d = true ↔ ∃ name ∈ signing, ∃ value, (d name)[unitKey]? = some (some value) := by
  simp [putsSignature, List.any_eq_true, Option.isSome_iff_exists, Option.join_eq_some_iff]

def Filling.writes (f : Filling) (name : Name) : Write := (f[name]?).elim ∅ fun x => x.2.writes

variable {s s' : Store} {h : WriteHistory} {v : ℕ} {d : Name → Write} {f f' : Filling} {name : Name}

theorem Filling.blockWrites_eq {blocks : List MapBlock} (hf : addBlocks s v blocks ∅ = .next f) :
    blockWrites blocks = f.writes := by
  funext name
  have hspec := (addBlocks_spec hf name).2 (by simp)
  unfold blockWrites Filling.writes
  cases hx : f[name]? <;> cases hb : blocks.find? fun b => b.name == name <;> simp_all

/-- What the loop of `fill_maps` adds are the changes of some blocks, whatever the bytes are. -/
theorem exists_addBlocks {fuel : ℕ} {d : Deserialiser} (hf : fillBlocks s v fuel d f = .ok (some f')) :
    ∃ blocks, Filling.addBlocks s v blocks f = .next f' := by
  induction fuel generalizing d f with
  | zero => cases hf
  | succ fuel ih =>
    rw [fillBlocks] at hf
    obtain ⟨o, -, hf⟩ := bind_eq_ok hf
    cases o with
    | none =>
      obtain ⟨-, rfl⟩ : d.atEnd = true ∧ f = f' := by simpa [pure, Except.pure] using hf
      exact ⟨[], rfl⟩
    | some p =>
      simp only at hf
      split_ifs at hf
      · cases hf
      · obtain ⟨⟨b, d₂⟩, -, hf⟩ := bind_eq_ok hf
        cases hb : f.addBlock s v b with
        | refused | raised =>
          simp only [hb] at hf
          cases hf
        | next f₁ =>
          simp only [hb] at hf
          obtain ⟨blocks, hblocks⟩ := ih hf
          exact ⟨b :: blocks, by rw [Filling.addBlocks, hb]; exact hblocks⟩

namespace Store

theorem tail_state_commit (r : Roll) (w : Write) (v : ℕ) :
    (r.commit w v false).tail.state = w.apply v r.tail.state := by
  obtain ⟨heq, -⟩ | ⟨heq, happly, -⟩ := r.commit_cases w v
  · rw [heq]
    simp [Roll.tail]
  · rw [heq, happly]

theorem Committed.content_eq (c : Committed s s' v d) (k : s.Refines h) (hle : s.version ≤ v) (hv : s'.version = v)
    (name : Name) : s'.content name = (d name).apply v (s.content name) := by
  rw [content, content, hv, k.getMap_eq le_rfl, getMap, ref?]
  cases hs : s.maps[name]? with
  | some p =>
    obtain ⟨hmaps, hobj⟩ := c.kept (c := p.1) (r := p.2) hs
    simp only [hmaps, if_pos (Or.inl ((k.created_le (c := p.1) (r := p.2) hs).trans hle)), Option.map_some]
    rw [obj, Option.elim_some, hobj, tail_state_commit]
    rfl
  | none =>
    by_cases hempty : d name = ∅
    · simp only [c.absent hs hempty, Option.map_none]
      rw [hempty, apply_empty]
      rfl
    · obtain ⟨r, -, hmaps, hobj⟩ := c.created hs hempty
      simp only [hmaps, le_refl, true_or, if_true, Option.map_none]
      rw [obj, Option.elim_some, hobj, tail_state_commit]
      rfl

/-- The value of a table was written at the version of the commit if the commit has put it. -/
theorem Committed.wrote_iff (c : Committed s s' v d) (k : s.Refines h) (hlt : s.version < v) (hv : s'.version = v)
    {value : SerialisedEntry} : s'.Wrote v name value ↔ (d name)[unitKey]? = some (some value) := by
  rw [Wrote, read, c.content_eq k hlt.le hv, getElem?_apply]
  cases hd : (d name)[unitKey]? with
  | some x => cases x <;> simp
  | none =>
    simp only [reduceCtorEq, iff_false]
    intro hx
    rw [k.content_eq] at hx
    have hle : v ≤ h.version := h.version_le_of_at h.base_le_version le_rfl hx
    have := k.version
    omega

/-- Whether the entry puts a signature. -/
def putsSignature (s : Store) (w : Setup) (data : List UInt8) : Bool :=
  match (s.fillMaps w data true).1 with
  | .ok (some (_, f)) => Kv.putsSignature f.writes
  | _ => false

end Store

namespace RootVerifier

variable {K : RootVerifier} {root : List UInt8} {w : Setup} {data : List UInt8}

theorem signed_iff_puts (k : s.Refines h) (hlt : s.version < v) (hv : s'.version = v) (c : Store.Committed s s' v d)
    (hverified : K.verifyRootSignatures root s' v = some true) : K.Signed root s' v ↔ putsSignature d = true := by
  obtain ⟨hprimary, hcose⟩ := valid_of_verified hverified
  rw [putsSignature_iff]
  constructor
  · rintro ⟨⟨name, hname, value, hwrote⟩, -, -⟩
    exact ⟨name, hname, value, (c.wrote_iff k hlt hv).1 hwrote⟩
  · rintro ⟨name, hname, value, hput⟩
    exact ⟨⟨name, hname, value, (c.wrote_iff k hlt hv).2 hput⟩, hprimary, hcose⟩

/-- An entry that passes as a signature has been committed and verified. -/
theorem committed_of_passSignature (k : s.Refines h) (hbase : h.base ≤ s.compacted)
    (hw : w.verifyRootSignatures = some (K.accepts root)) (happly : s.apply w data false = (.ok .passSignature, s'))
    (hv : 0 < s'.version) :
    ∃ store h' f, store.Refines h' ∧ store.version < s'.version ∧
      Store.Committed store s' s'.version (Filling.writes f) ∧
      K.verifyRootSignatures root s' s'.version = some true ∧ s.putsSignature w data = putsSignature f.writes := by
  obtain ⟨-, hfail, -⟩ | ⟨head, d, store, hinit, hforget, ⟨-, hfail, -⟩ | ⟨f, c, hresult⟩⟩ :=
    Store.applyWith_cases happly
  · cases hfail
  · cases hfail
  have hversion := c.version_rollbackCount.1
  have k' := k.rollback hforget (hbase.trans (Store.rollback_cases hforget).1)
  have hlt : store.version < head.version := by
    have hle := Store.version_rollback_le hforget
    simp only [previousVersion] at hle
    split_ifs at hle <;> omega
  obtain ⟨blocks, hblocks⟩ := exists_addBlocks c.filled
  have hcommitted := (k'.commitDeserialised hlt.le hblocks c.committed).1
  rw [Filling.blockWrites_eq hblocks] at hcommitted
  refine ⟨store, _, f, k', hversion ▸ hlt, hversion ▸ hcommitted, ?_, ?_⟩
  · have hresult := hresult.symm
    unfold Setup.result at hresult
    split_ifs at hresult with hfail hpast hsig
    rw [hsig, hw, Bool.true_and, Bool.not_eq_true, Bool.or_eq_false_iff] at hfail
    simpa [accepts, hversion] using hfail.2
  · simp [Store.putsSignature, Store.fillMaps, hinit, hforget, c.filled, Except.map]

/-- **A signature entry signs the root of the history.**  Every signature of the version that has been verified
is valid; and there is one, after a commit and so after an entry that a backup takes for a signature, if and only if
the commit or the entry puts one. -/
theorem signed_of_verified (K : RootVerifier) (root : List UInt8) :
    (∀ (s : Store) (v : ℕ), K.verifyRootSignatures root s v = some true →
      (∀ value, s.Wrote v Tables.signatures value → K.ValidPrimary root s value) ∧
        ∀ value, s.Wrote v coseSignatures value → K.ValidCose root s value) ∧
    (∀ (s s' : Store) (h : WriteHistory) (v : ℕ) (d : Name → Write), s.Refines h → s.version < v → s'.version = v →
      Store.Committed s s' v d → K.verifyRootSignatures root s' v = some true →
        (K.Signed root s' v ↔ putsSignature d = true)) ∧
    ∀ (s s' : Store) (h : WriteHistory) (w : Setup) (data : List UInt8), s.Refines h → h.base ≤ s.compacted →
      w.verifyRootSignatures = some (K.accepts root) → s.apply w data false = (.ok .passSignature, s') →
        0 < s'.version → (K.Signed root s' s'.version ↔ s.putsSignature w data = true) := by
  refine ⟨fun s v => valid_of_verified, fun s s' h v d => signed_iff_puts, fun s s' h w data k hbase hw happly hv => ?_⟩
  obtain ⟨store, h', f, k', hlt, hc, hverified, hputs⟩ := committed_of_passSignature k hbase hw happly hv
  rw [signed_iff_puts k' hlt rfl hc hverified, hputs]

/-- A signature is valid if it is the root. -/
def echo : RootVerifier where
  primarySignature value := some ([], value)
  coseSignature := some
  serviceCert := some
  nodeCert value := some (some value)
  verifyHash _ root sig := some (sig == root)
  verifyDetached _ cose root := some (cose == root)

/-- Two replicas with a node and a signature at version 1, and a second signature transaction on the primary that puts
the signature `[5]` under `key`. -/
def signingRun (key : SerialisedEntry) : List Replicas.Action :=
  [.openMap 1 Tables.signatures, .op 1 Tables.signatures (.put unitKey [1]),
    .openMap 1 nodeEndorsedCertificates, .op 1 nodeEndorsedCertificates (.put [] [7]),
    .commit 1 Replicas.zeroDigest 0 true, .openMap 2 Tables.signatures, .op 2 Tables.signatures (.put key [5]),
    .openMap 2 serialisedMerkleTree, .op 2 serialisedMerkleTree (.put unitKey [3])]

def signingAgain (key : SerialisedEntry) : Replicas :=
  exec (Replicas.step Encryptor.plain (fun _ => Replicas.zeroDigest) {})
    (Replicas.init 2 2 (fun _ => false) fun _ => false) (signingRun key)

/-- The entry of the second transaction. -/
def secondEntry (key : SerialisedEntry) : List UInt8 :=
  let digest := Replicas.zeroDigest
  match (signingAgain key).entry Encryptor.plain (fun _ => digest) 2 digest 0 with
  | some (.ok (_, data)) => data
  | _ => []

def verifying (root : List UInt8) : Setup :=
  { encryptor := some Encryptor.plain, verifyRootSignatures := some (echo.accepts root) }

/-- The entry executed on the backup, whose history has the given root. -/
def secondApplied (key : SerialisedEntry) (root : List UInt8) : Except CodecFault ApplyResult × Store :=
  (signingAgain key).backup.apply (verifying root) (secondEntry key) false

theorem secondApplied_eq {key : SerialisedEntry}
    (h : (secondApplied key root).1 = .ok .passSignature) :
    (signingAgain key).backup.apply (verifying root) (secondEntry key) false =
      (.ok .passSignature, (secondApplied key root).2) := by
  unfold secondApplied at h ⊢
  rw [← h]

theorem signed_of_verified_secondEntry :
    (secondApplied unitKey [5]).2.version = 2 ∧
      (signingAgain unitKey).backup.putsSignature (verifying [5]) (secondEntry unitKey) = true ∧
      (echo.Signed [5] (secondApplied unitKey [5]).2 (secondApplied unitKey [5]).2.version ↔
        (signingAgain unitKey).backup.putsSignature (verifying [5]) (secondEntry unitKey) = true) := by
  have hpass : (secondApplied unitKey [5]).1 = .ok .passSignature := by decide +kernel
  have k : (signingAgain unitKey).Inv := exec_induction
    (fun s a k hships => k.step Encryptor.inverse_plain hships) (Replicas.inv_init _ _ _ _)
    (by decide +kernel : Along _ (Replicas.Ships Encryptor.plain fun _ => Replicas.zeroDigest) _ _)
  exact ⟨by decide +kernel, by decide +kernel, (signed_of_verified echo [5]).2.2 _ _ _ _ _ k.backup
    (k.base.trans_le (Nat.zero_le _)) rfl (secondApplied_eq hpass) (by decide +kernel)⟩

/-- The second entry puts nothing under the key of the signature, and passes as a signature of any root. -/
theorem not_signed_stale :
    ¬∀ (K : RootVerifier) (root : List UInt8),
      (∀ (s : Store) (v : ℕ), K.verifyRootSignatures root s v = some true → K.Signed root s v) ∧
        ∀ (s s' : Store) (w : Setup) (data : List UInt8) (track : Bool),
          w.verifyRootSignatures = some (K.accepts root) → s.apply w data track = (.ok .passSignature, s') →
            K.Signed root s' s'.version := by
  intro h
  have hpass : (secondApplied [9] [8]).1 = .ok .passSignature := by decide +kernel
  have hold : ∀ name ∈ signing, ((secondApplied [9] [8]).2.read name unitKey).map Tagged.version ≠
      some (secondApplied [9] [8]).2.version := by decide +kernel
  have hsigned := (h echo [8]).2 (signingAgain [9]).backup (secondApplied [9] [8]).2 (verifying [8]) (secondEntry [9])
    false rfl (secondApplied_eq hpass)
  obtain ⟨name, hname, value, hwrote⟩ := hsigned.wrote
  exact hold name hname (by rw [hwrote, Option.map_some])

end RootVerifier
end Ccf.Kv
