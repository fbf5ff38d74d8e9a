import Ccf.Kv.TxEncryptor
import Ccf.Lib.Runs
import Ccf.Lib.SortedList

/-! # Lookups of ledger secrets (`node/ledger_secrets.h`)

A lookup without the historical hint starts at the secret that was used last, and moves on by one at most. It finds the
secret of a version just when that one is not below the last one used and at most one other has begun since. -/

namespace Ccf.Kv.LedgerSecrets

open Assoc List

/-- A `LedgerSecretsMap`. -/
def SecretsMap := { l : List (ℕ × ℕ) // l.Pairwise fun p q => p.1 < q.1 }

inductive Call where
  | init (version secret : ℕ)
  | initFromMap (secrets : SecretsMap)
  | setSecret (version secret : ℕ)
  | restoreHistorical (restored : SecretsMap)
  | rollback (version : ℕ)
  | getSecretFor (version : ℕ) (historicalHint : Bool)

variable (ls : LedgerSecrets)

def emplace (version secret : ℕ) : LedgerSecrets :=
  if version ∈ keys ls.secrets then ls else ls.setSecret version secret

/-- A call that throws changes nothing. -/
def step : Call → LedgerSecrets
  | .init version secret => { ls.emplace version secret with initialLatest := version }
  -- there must be no secrets yet
  | .initFromMap secrets =>
    match ls.secrets, secrets.1.getLast? with
    | [], some latest => { ls with secrets := secrets.1, initialLatest := latest.1 }
    | _, _ => ls
  -- the version must be new
  | .setSecret version secret => ls.emplace version secret
  -- all of the restored versions must be below all others
  | .restoreHistorical restored =>
    if ∀ p ∈ restored.1, ∀ q ∈ ls.secrets, p.1 < q.1 then { ls with secrets := restored.1 ++ ls.secrets } else ls
  | .rollback version => ls.rollback version
  | .getSecretFor version historicalHint => ((ls.getSecretForVersion version historicalHint).map Prod.snd).getD ls

abbrev run (calls : List Call) : LedgerSecrets := Runs.exec step {} calls

/-- The secret used for `version` is the one with the greatest version that is not above it. -/
def Covers (version : ℕ) : Option ℕ → Prop
  | none => ∀ k ∈ keys ls.secrets, version < k
  | some used => used ∈ keys ls.secrets ∧ used ≤ version ∧ ∀ k ∈ keys ls.secrets, k ≤ version → k ≤ used

/-- The version is not below that of the secret that was used last, and no two others have begun by then. -/
def Orderly (version : ℕ) (historicalHint : Bool) : Prop :=
  historicalHint = false → ∀ last ∈ ls.lastUsed, last ≤ version ∧
    ∀ k ∈ keys ls.secrets, ∀ k' ∈ keys ls.secrets, last < k → k < k' → version < k'

/-! ### Every run -/

structure Valid (ls : LedgerSecrets) : Prop where
  sorted : ls.secrets.Pairwise fun p q => p.1 < q.1
  lastUsed_mem : ∀ last ∈ ls.lastUsed, last ∈ keys ls.secrets

section
variable {ls : LedgerSecrets} (h : ls.Valid)
include h

theorem Valid.emplace (version secret : ℕ) : (ls.emplace version secret).Valid := by
  unfold LedgerSecrets.emplace
  split_ifs with hmem
  · exact h
  have hkeys := takeWhile_append_dropWhile (p := (·.1 < version)) (l := ls.secrets)
  have htake : ∀ p ∈ ls.secrets.takeWhile (·.1 < version), p.1 < version :=
    fun p hp => by simpa using mem_takeWhile_imp hp
  have hdrop : ∀ q ∈ ls.secrets.dropWhile (·.1 < version), version < q.1 := by
    intro q hq
    have hne : q.1 ≠ version := fun heq => hmem (heq ▸ mem_map_of_mem ((dropWhile_sublist _).subset hq))
    rw [dropWhile_eq_filter (h.sorted.imp fun hlt hq => by simp only [decide_eq_true_eq] at *; omega)] at hq
    have := (mem_filter.1 hq).2
    simp only [Bool.not_eq_true', decide_eq_false_iff_not] at this
    omega
  refine ⟨pairwise_append.2 ⟨h.sorted.sublist (takeWhile_sublist _),
    pairwise_cons.2 ⟨hdrop, h.sorted.sublist (dropWhile_sublist _)⟩, fun p hp =>
      forall_mem_cons.2 ⟨htake p hp, fun q hq => (htake p hp).trans (hdrop q hq)⟩⟩, fun last hlast => ?_⟩
  have hmem := h.lastUsed_mem last hlast
  rw [← hkeys, Assoc.keys_append] at hmem
  rw [setSecret, Assoc.keys_append]
  exact mem_append.2 ((mem_append.1 hmem).imp_right (mem_cons_of_mem _))

variable (version : ℕ)

theorem Valid.rollback : (ls.rollback version).Valid := by
  unfold LedgerSecrets.rollback
  split
  · exact h
  · rename_i first rest hs
    split_ifs
    · exact h
    · refine ⟨h.sorted.sublist ?_, nofun⟩
      rw [rolledBack, hs]
      exact List.Sublist.cons_cons _ (reverse_sublist.1 (by simpa using dropWhile_sublist _))

theorem Valid.step (c : Call) : (ls.step c).Valid := by
  cases c with
  | init version secret => exact { h.emplace version secret with }
  | initFromMap m =>
    simp only [LedgerSecrets.step]
    split
    · rename_i hs _
      exact ⟨m.2, fun last hlast => by simpa [hs] using h.lastUsed_mem last hlast⟩
    · exact h
  | setSecret version secret => exact h.emplace version secret
  | restoreHistorical m =>
    simp only [LedgerSecrets.step]
    split_ifs with hlt
    · refine ⟨pairwise_append.2 ⟨m.2, h.sorted, hlt⟩, fun last hlast => ?_⟩
      rw [Assoc.keys_append]
      exact mem_append_right _ (h.lastUsed_mem last hlast)
    · exact h
  | rollback version => exact h.rollback version
  | getSecretFor version historicalHint =>
    simp only [LedgerSecrets.step]
    cases hget : ls.getSecretForVersion version historicalHint with
    | none => exact h
    | some r =>
      obtain ⟨used, -, hget⟩ := Option.bind_eq_some_iff.1 hget
      obtain ⟨secret, hsecret, hget⟩ := Option.bind_eq_some_iff.1 hget
      cases hget
      split_ifs
      · exact h
      · exact ⟨h.sorted, by rintro _ ⟨⟩; exact mem_map_of_mem (mem_of_lookup hsecret)⟩

/-! ### Lookups -/

theorem Valid.covers_search :
    ls.Covers version ((ls.secrets.takeWhile (·.1 ≤ version)).getLast?.map Prod.fst) := by
  rw [takeWhile_eq_filter (h.sorted.imp fun hlt hq => by simp only [decide_eq_true_eq] at *; omega)]
  cases hlast : (ls.secrets.filter (·.1 ≤ version)).getLast? with
  | none =>
    refine forall_mem_map.2 fun p hp => ?_
    simpa using filter_eq_nil_iff.1 (getLast?_eq_none_iff.1 hlast) p hp
  | some last =>
    have hmem := mem_filter.1 (mem_of_getLast? hlast)
    refine ⟨mem_map_of_mem hmem.1, by simpa using hmem.2, forall_mem_map.2 fun p hp hle => ?_⟩
    obtain ⟨l, hl⟩ := getLast?_eq_some_iff.1 hlast
    have hsorted := h.sorted.filter fun p => decide (p.1 ≤ version)
    have hp : p ∈ ls.secrets.filter (·.1 ≤ version) := mem_filter.2 ⟨hp, decide_eq_true hle⟩
    rw [hl] at hsorted hp
    rcases mem_append.1 hp with hp | hp
    · exact ((pairwise_append.1 hsorted).2.2 p hp last mem_cons_self).le
    · rw [mem_singleton.1 hp]

/-- The next secret is the first of those that come later. -/
theorem Valid.next_le {last next : ℕ} (hnext : ls.next last = some next) :
    next ∈ keys ls.secrets ∧ last < next ∧ ∀ k ∈ keys ls.secrets, last < k → next ≤ k := by
  obtain ⟨q, hq, rfl⟩ := Option.map_eq_some_iff.1 hnext
  refine ⟨mem_map_of_mem (mem_of_find?_eq_some hq), by simpa using find?_some hq,
    forall_mem_map.2 fun p hp hlt => ?_⟩
  obtain ⟨-, l, l', hl, hbefore⟩ := find?_eq_some_iff_append.1 hq
  have hsorted := h.sorted
  rw [hl] at hsorted hp
  rcases mem_append.1 hp with hp | hp
  · exact absurd hlt (by simpa using hbefore p hp)
  · rcases mem_cons.1 hp with rfl | hp
    · exact le_rfl
    · exact ((pairwise_cons.1 (pairwise_append.1 hsorted).2.1).1 p hp).le

theorem Valid.covers_versionFor (historicalHint : Bool) :
    ls.Covers version (ls.versionFor version historicalHint) ↔ ls.Orderly version historicalHint := by
  unfold versionFor Orderly
  cases historicalHint with
  | true => exact ⟨nofun, fun _ => h.covers_search version⟩
  | false =>
    cases hused : ls.lastUsed with
    | none => exact ⟨fun _ _ => nofun, fun _ => h.covers_search version⟩
    | some last =>
      have hmem := h.lastUsed_mem last hused
      cases hnext : ls.next last with
      | none =>
        have hle : ∀ k ∈ keys ls.secrets, k ≤ last := by simpa [next, Assoc.keys] using hnext
        simp only [Covers, hnext]
        grind
      | some next =>
        obtain ⟨hkey, hlt, hfirst⟩ := h.next_le hnext
        simp only [Covers, hnext]
        split_ifs <;> grind

end

/-- **Which lookups find their secret**: after any calls, the secret that is returned for a version has the greatest
start not above it just when the version is not below the start of the last one used, with at most one other since. -/
theorem covers_iff_orderly (calls : List Call) (version : ℕ) (historicalHint : Bool) :
    (((run calls).getSecretForVersion version historicalHint).map Prod.fst =
      ((run calls).versionFor version historicalHint).bind fun used => (run calls).secrets.lookup used) ∧
    ((run calls).Covers version ((run calls).versionFor version historicalHint) ↔
      (run calls).Orderly version historicalHint) := by
  have hvalid : (run calls).Valid :=
    Runs.exec_induction (P := fun _ _ => True) (fun _ c h _ => h.step c) ⟨.nil, nofun⟩ (Runs.along_true _ _)
  refine ⟨?_, hvalid.covers_versionFor version historicalHint⟩
  unfold getSecretForVersion
  cases (run calls).versionFor version historicalHint with
  | none => rfl
  | some used => cases hsecret : (run calls).secrets.lookup used <;> simp [hsecret]

/-- After a lookup for 7 the secret that starts at 5 is returned for 3 as well. -/
theorem not_covers_earlier :
    ((run [.init 1 10, .setSecret 5 20, .getSecretFor 7 false]).getSecretForVersion 3 false).map Prod.fst = some 20 ∧
      ¬(run [.init 1 10, .setSecret 5 20, .getSecretFor 7 false]).Covers 3
        ((run [.init 1 10, .setSecret 5 20, .getSecretFor 7 false]).versionFor 3 false) :=
  ⟨by decide, fun h => absurd h.2.1 (by decide)⟩

end Ccf.Kv.LedgerSecrets
