import Ccf.Kv.Entry
import Ccf.Lib.Assoc

/-! # Encryption of ledger entries (`kv/encryptor.h`, `node/encryptor.h`, `node/ledger_secrets.h`)

The initialisation vector of an entry has its version, the view of its transaction and a bit for snapshots. Views of
more than 31 bits are refused, so it determines all three (`setIv_injective`). The secret is that of the version. -/

namespace Ccf.Kv

/-! ### The initialisation vector -/

namespace TxGcmHeader

def ivDelimiter : ℕ := 8

def setIvSeq (iv : List UInt8) (seq : ℕ) : List UInt8 := leBytes ivDelimiter seq ++ iv.drop ivDelimiter

/-- Throws if the term does not fit in 31 bits. -/
def setIvTerm (iv : List UInt8) (term : ℕ) : Option (List UInt8) :=
  if 0x7FFFFFFF < term then none else some (iv.take ivDelimiter ++ leBytes 4 term)

/-- Sets the very last bit. -/
def setIvIsSnapshot (iv : List UInt8) : List UInt8 := iv.dropLast ++ (iv.getLast?.map (· ||| 128)).toList

end TxGcmHeader

open TxGcmHeader in
/-- `set_iv`, on the 12 bytes of a new header. -/
def setIv (txid : TxID) (entryType : EntryType) : Option (List UInt8) :=
  (setIvTerm (setIvSeq (List.replicate 12 0) txid.seqno) txid.view).map fun iv =>
    if entryType = .snapshot then setIvIsSnapshot iv else iv

/-- The last four bytes as a number. -/
def ivHigh (view : ℕ) (entryType : EntryType) : ℕ := if entryType = .snapshot then view + 2 ^ 31 else view

theorem or_snapshotBit : ∀ k < 128, UInt8.ofNat k ||| 128 = UInt8.ofNat (k + 128) := by decide

theorem leBytes_or {n : ℕ} (h : n < 2 ^ 31) : TxGcmHeader.setIvIsSnapshot (leBytes 4 n) = leBytes 4 (n + 2 ^ 31) := by
  have hmod : ∀ m k : ℕ, UInt8.ofNat (m + 256 * k) = UInt8.ofNat m := by
    intro m k
    rw [← UInt8.toNat_inj, UInt8.toNat_ofNat', UInt8.toNat_ofNat', Nat.add_mul_mod_self_left]
  have h₀ : n + 2 ^ 31 = n + 256 * 2 ^ 23 := by norm_num
  have h₁ : (n + 2 ^ 31) / 256 = n / 256 + 256 * 2 ^ 15 := by omega
  have h₂ : (n + 2 ^ 31) / 256 / 256 = n / 256 / 256 + 256 * 2 ^ 7 := by omega
  have h₃ : (n + 2 ^ 31) / 256 / 256 / 256 = n / 256 / 256 / 256 + 128 := by omega
  have hlast := or_snapshotBit (n / 256 / 256 / 256) (by omega)
  have e₀ : UInt8.ofNat (n + 2 ^ 31) = UInt8.ofNat n := by rw [h₀, hmod]
  have e₁ : UInt8.ofNat ((n + 2 ^ 31) / 256) = UInt8.ofNat (n / 256) := by rw [h₁, hmod]
  have e₂ : UInt8.ofNat ((n + 2 ^ 31) / 256 / 256) = UInt8.ofNat (n / 256 / 256) := by rw [h₂, hmod]
  have e₃ : UInt8.ofNat ((n + 2 ^ 31) / 256 / 256 / 256) = UInt8.ofNat (n / 256 / 256 / 256) ||| 128 := by
    rw [h₃, hlast]
  simp only [leBytes, e₀, e₁, e₂, e₃]
  rfl

theorem setIv_eq (txid : TxID) (entryType : EntryType) : setIv txid entryType = if 0x7FFFFFFF < txid.view then none
      else some (leBytes 8 txid.seqno ++ leBytes 4 (ivHigh txid.view entryType)) := by
  unfold setIv TxGcmHeader.setIvTerm TxGcmHeader.setIvSeq
  have htake : (leBytes TxGcmHeader.ivDelimiter txid.seqno ++
      (List.replicate 12 (0 : UInt8)).drop TxGcmHeader.ivDelimiter).take TxGcmHeader.ivDelimiter =
      leBytes 8 txid.seqno :=
    List.take_left' (length_leBytes _ _)
  rw [htake]
  by_cases hview : 0x7FFFFFFF < txid.view
  · rw [if_pos hview, if_pos hview]
    rfl
  · rw [if_neg hview, if_neg hview, Option.map_some, ivHigh]
    by_cases htype : entryType = .snapshot
    · have hne : leBytes 4 txid.view ≠ [] := by
        rintro ⟨⟩
      rw [if_pos htype, if_pos htype, ← leBytes_or (by omega)]
      simp only [TxGcmHeader.setIvIsSnapshot, List.dropLast_append_of_ne_nil hne, List.getLast?_append_of_ne_nil _ hne,
        List.append_assoc]
    · rw [if_neg htype, if_neg htype]

variable {txid : TxID} {entryType : EntryType}

/-- The vector gives the version, the view and whether it is that of a snapshot. -/
theorem setIv_injective {txid' : TxID} {entryType' : EntryType} {iv : List UInt8}
    (h : setIv txid entryType = some iv) (h' : setIv txid' entryType' = some iv)
    (hseqno : txid.seqno < 2 ^ 64) (hseqno' : txid'.seqno < 2 ^ 64) :
    txid = txid' ∧ (entryType = .snapshot ↔ entryType' = .snapshot) := by
  rw [setIv_eq] at h h'
  split_ifs at h with hview
  split_ifs at h' with hview'
  have heq := Option.some.inj (h.trans h'.symm)
  obtain ⟨hlow, hhigh⟩ := List.append_inj heq (by rw [length_leBytes, length_leBytes])
  have hle : ∀ (view : ℕ) (entryType : EntryType), ¬0x7FFFFFFF < view → ivHigh view entryType < 256 ^ 4 := by
    intro view entryType hview
    unfold ivHigh
    split_ifs <;> omega
  have hseq : txid.seqno = txid'.seqno := by
    rw [← ofLeBytes_leBytes (w := 8) hseqno, hlow, ofLeBytes_leBytes (w := 8) hseqno']
  have hterm : ivHigh txid.view entryType = ivHigh txid'.view entryType' := by
    rw [← ofLeBytes_leBytes (hle _ entryType hview), hhigh, ofLeBytes_leBytes (hle _ entryType' hview')]
  obtain ⟨view, seqno⟩ := txid
  obtain ⟨view', seqno'⟩ := txid'
  dsimp only at hview hview' hseq hterm
  unfold ivHigh at hterm
  split_ifs at hterm with htype htype'
  · exact ⟨by rw [hseq, show view = view' by omega], by simp [htype, htype']⟩
  · omega
  · omega
  · exact ⟨by rw [hseq, hterm], by simp [htype, ‹¬entryType' = _›]⟩

/-! ### Ledger secrets -/

/-- A secret is given by a number. `lastUsed` is the version of the secret that was used last. -/
structure LedgerSecrets where
  secrets : List (ℕ × ℕ) := []
  initialLatest : ℕ := 0
  lastUsed : Option ℕ := none
deriving DecidableEq

namespace LedgerSecrets

variable (ls : LedgerSecrets)

def init (version secret : ℕ) : LedgerSecrets := { secrets := [(version, secret)], initialLatest := version }

variable (version : ℕ)

/-- The version of the secret that comes after that of `version`. -/
def next : Option ℕ := (ls.secrets.find? (version < ·.1)).map Prod.fst

/-- The version that is used for `version`, by the last one used or by search. -/
def versionFor (historicalHint : Bool) : Option ℕ :=
  match historicalHint, ls.lastUsed with
  | false, some last =>
    match ls.next last with
    | some next => some (if next ≤ version then next else last)
    | none => some last
  | _, _ => ((ls.secrets.takeWhile (·.1 ≤ version)).getLast?).map Prod.fst

/-- `get_secret_for_version`: the secret, and the secrets with what was used recorded. -/
def getSecretForVersion (historicalHint : Bool) : Option (ℕ × LedgerSecrets) := do
  let used ← ls.versionFor version historicalHint
  let secret ← ls.secrets.lookup used
  return (secret, if historicalHint then ls else { ls with lastUsed := some used })

def setSecret (version secret : ℕ) : LedgerSecrets :=
  { ls with
    secrets := ls.secrets.takeWhile (·.1 < version) ++ (version, secret) :: ls.secrets.dropWhile (·.1 < version) }

/-- The secrets that are left when those after `version` are taken off the end. -/
def rolledBack : List (ℕ × ℕ) :=
  match ls.secrets with
  | [] => []
  | first :: rest =>
    first :: (rest.reverse.dropWhile fun p => version < p.1 ∧ ls.initialLatest < p.1).reverse

def rollback : LedgerSecrets :=
  match ls.secrets with
  | [] => ls
  | first :: _ => if version < first.1 then ls else { ls with secrets := ls.rolledBack version, lastUsed := none }

end LedgerSecrets

/-! ### Encryption -/

/-- What has been encrypted. -/
structure Encrypted where
  secret : ℕ
  iv : List UInt8
  plain : List UInt8
  additionalData : List UInt8
deriving DecidableEq

/-- What is encrypted under the same secret and vector is the same. -/
def Encrypted.Agrees (r r' : Encrypted) : Prop :=
  r.secret = r'.secret → r.iv = r'.iv → r.plain = r'.plain ∧ r.additionalData = r'.additionalData

instance (r r' : Encrypted) : Decidable (r.Agrees r') := inferInstanceAs (Decidable (_ → _ → _))

variable {r : Encrypted}

theorem Encrypted.Agrees.symm {r' : Encrypted} (h : r.Agrees r') : r'.Agrees r := fun hsecret hiv =>
  ⟨(h hsecret.symm hiv.symm).1.symm, (h hsecret.symm hiv.symm).2.symm⟩

/-- `encrypt`. -/
def LedgerSecrets.encrypt (ls : LedgerSecrets) (plain additionalData : List UInt8) (txid : TxID) (entryType : EntryType)
    (historicalHint : Bool) : Option (Encrypted × LedgerSecrets) := do
  let iv ← setIv txid entryType
  let (secret, ls) ← ls.getSecretForVersion txid.seqno historicalHint
  return (⟨secret, iv, plain, additionalData⟩, ls)

theorem LedgerSecrets.encrypt_eq_some {ls ls' : LedgerSecrets} {plain additionalData : List UInt8}
    {historicalHint : Bool}
    (h : ls.encrypt plain additionalData txid entryType historicalHint = some (r, ls')) :
    setIv txid entryType = some r.iv ∧ r.plain = plain ∧ r.additionalData = additionalData := by
  obtain ⟨iv, hiv, h⟩ := Option.bind_eq_some_iff.1 h
  obtain ⟨⟨secret, ls⟩, -, h⟩ := Option.bind_eq_some_iff.1 h
  cases h
  exact ⟨hiv, rfl, rfl⟩

end Ccf.Kv
