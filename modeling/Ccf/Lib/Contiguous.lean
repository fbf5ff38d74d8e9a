import Mathlib.Data.List.Basic

/-! # Draining a reorder buffer

Items that arrive out of order wait in a table under their numbers until the next number to be delivered has
arrived. `drain next t` takes the items under `next`, `next + 1`, … off the table, up to the first number
that is missing. -/

namespace Ccf

open Std (ExtTreeMap)

variable {α : Type*} {t : ExtTreeMap ℕ α} {k fuel : ℕ} {x : α}

/-- At most `fuel` items of the table from number `next` on, and what is left of the table. -/
def drainFuel : ℕ → ℕ → ExtTreeMap ℕ α → List α × ExtTreeMap ℕ α
  | 0, _, t => ([], t)
  | fuel + 1, next, t =>
    match t[next]? with
    | none => ([], t)
    | some x => (x :: (drainFuel fuel (next + 1) (t.erase next)).1, (drainFuel fuel (next + 1) (t.erase next)).2)

/-- All items from number `next` on, up to the first missing one. -/
def drain (next : ℕ) (t : ExtTreeMap ℕ α) : List α × ExtTreeMap ℕ α := drainFuel t.size next t

theorem getElem?_drainFuel_snd (fuel next : ℕ) (t : ExtTreeMap ℕ α) (k : ℕ) : (drainFuel fuel next t).2[k]? =
      if next ≤ k ∧ k < next + (drainFuel fuel next t).1.length then none else t[k]? := by
  induction fuel generalizing next t with
  | zero => exact (if_neg fun h => Nat.not_lt.2 h.1 h.2).symm
  | succ fuel ih =>
    unfold drainFuel
    cases hnext : t[next]? with
    | none => exact (if_neg fun h => Nat.not_lt.2 h.1 h.2).symm
    | some x =>
      simp only [ih, List.length_cons, ExtTreeMap.getElem?_erase, Std.compare_eq_iff_eq]
      split_ifs <;> first | rfl | omega

theorem getElem?_drainFuel_fst {next : ℕ}
    (h : (drainFuel fuel next t).1[k]? = some x) : t[next + k]? = some x := by
  induction fuel generalizing next t k with
  | zero => simp [drainFuel] at h
  | succ fuel ih =>
    unfold drainFuel at h
    cases hnext : t[next]? with
    | none => simp [hnext] at h
    | some y =>
      simp only [hnext] at h
      cases k with
      | zero => simpa [hnext] using h
      | succ k =>
        have hk := ih (List.getElem?_cons_succ ▸ h)
        rw [ExtTreeMap.getElem?_erase, if_neg (by rw [Std.compare_eq_iff_eq]; omega)] at hk
        rwa [Nat.add_assoc, Nat.add_comm 1] at hk

/-- With enough fuel the draining ends at a missing number. -/
theorem drainFuel_missing (next : ℕ) (hfuel : t.size ≤ fuel) :
    t[next + (drainFuel fuel next t).1.length]? = none := by
  induction fuel generalizing next t with
  | zero =>
    have hempty : t = ∅ := ExtTreeMap.eq_empty_iff_size_eq_zero.2 (Nat.le_zero.1 hfuel)
    simp [hempty]
  | succ fuel ih =>
    unfold drainFuel
    cases hnext : t[next]? with
    | none => simpa using hnext
    | some x =>
      have hmem : t.contains next = true := by simp [← ExtTreeMap.isSome_getElem?_eq_contains, hnext]
      have hk := ih (next + 1) (t := t.erase next) (by rw [ExtTreeMap.size_erase, if_pos hmem]; omega)
      simpa [Nat.add_assoc, Nat.add_comm 1] using hk

variable {next : ℕ}

theorem getElem?_drain_fst (h : (drain next t).1[k]? = some x) : t[next + k]? = some x :=
  getElem?_drainFuel_fst h

theorem drain_missing (next : ℕ) : t[next + (drain next t).1.length]? = none := drainFuel_missing next (Nat.le_refl _)

theorem getElem?_drain_snd :
    (drain next t).2[k]? = if next ≤ k ∧ k < next + (drain next t).1.length then none else t[k]? :=
  getElem?_drainFuel_snd _ _ _ _

end Ccf
