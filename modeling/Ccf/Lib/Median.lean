import Ccf.Lib.SortedList

/-! # Medians of lists

`median l` is the element in the middle of `l` when it is sorted, the upper one of two. It is determined by how many
elements are below a bound (`le_median_iff`, `lt_median_iff`), so nothing needs to be known about the sorted list
itself. The last two results are about dropping the first elements when one is added that is not below the median. -/

namespace Ccf

open List

variable {τ : Type*} [LinearOrder τ] {l : List τ} {x : τ}

def median (l : List τ) : Option τ := (l.insertionSort (· ≤ ·))[l.length / 2]?

theorem le_median_iff (h : median l = some x) (t : τ) : t ≤ x ↔ l.countP (· < t) ≤ l.length / 2 :=
  le_insertionSort_iff h t

theorem lt_median_iff (h : median l = some x) (t : τ) : t < x ↔ l.countP (· ≤ t) ≤ l.length / 2 := by
  have hsorted := (pairwise_insertionSort (· ≤ ·) l).imp (S := fun x y => decide (y ≤ t) = true → decide (x ≤ t) = true)
    fun hxy hy => by simpa using hxy.trans (by simpa using hy)
  rw [← (perm_insertionSort (· ≤ ·) l).countP_eq, ← not_iff_countP_le hsorted h]
  simp

theorem exists_median (h : l ≠ []) : ∃ x, median l = some x := by
  have hpos : 0 < l.length := length_pos_iff.2 h
  have hlt : l.length / 2 < (l.insertionSort (· ≤ ·)).length := by
    rw [length_insertionSort]
    omega
  exact ⟨_, getElem?_eq_getElem hlt⟩

omit [LinearOrder τ] in
theorem countP_drop_of_pairwise {p : τ → Bool}
    (h : l.Pairwise fun x y => p y = true → p x = true) (m : ℕ) : (l.drop m).countP p = l.countP p - m := by
  induction l generalizing m with
  | nil => simp
  | cons a l ih =>
    obtain ⟨ha, hl⟩ := pairwise_cons.1 h
    cases m with
    | zero => rfl
    | succ m =>
      rw [drop_succ_cons, ih hl]
      cases hpa : p a with
      | true => simp [hpa]
      | false =>
        have hcount : l.countP p = 0 := countP_eq_zero.2 fun y hy hpy => by simp [ha y hy hpy] at hpa
        simp [hpa, hcount]

variable {T : List τ} {m : ℕ} {c y e : τ}

theorem median_mono (hT : T.Pairwise (· ≤ ·)) (hl : l.Perm (c :: T.drop m)) (hx : median T = some x) (hc : x ≤ c)
    (hy : median l = some y) : x ≤ y := by
  have hbelow : T.countP (· < x) ≤ T.length / 2 := (le_median_iff hx x).1 le_rfl
  have hprefix := hT.imp (S := fun a b => decide (b < x) = true → decide (a < x) = true)
    fun hab hb => by simpa using hab.trans_lt (by simpa using hb)
  have hcount : l.countP (· < x) = T.countP (· < x) - m := by
    rw [hl.countP_eq, countP_cons_of_neg (by simpa using hc), countP_drop_of_pairwise hprefix]
  have hlen : l.length = T.length - m + 1 := by rw [hl.length_eq, length_cons, length_drop]
  rw [le_median_iff hy, hcount, hlen]
  omega

/-- What is before all the elements that stay is before the median, unless only the new element stays. -/
theorem lt_median_of_dropped (hl : l.Perm (c :: T.drop m)) (he : ∀ k ∈ T.drop m, e < k)
    (hc : T.drop m = [] → e < c) (hy : median l = some y) : e < y := by
  have hkept : (T.drop m).countP (· ≤ e) = 0 := countP_eq_zero.2 fun k hk => by simpa using he k hk
  rw [lt_median_iff hy, hl.countP_eq, hl.length_eq, countP_cons, hkept, length_cons]
  by_cases hnil : T.drop m = []
  · simp [not_le.2 (hc hnil)]
  · have hpos : 0 < (T.drop m).length := length_pos_iff.2 hnil
    split_ifs <;> omega

end Ccf
