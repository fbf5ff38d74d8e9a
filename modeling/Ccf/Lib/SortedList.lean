import Mathlib.Data.List.DropRight
import Mathlib.Data.List.Sort

/-! # Cutting sorted lists

The loops that pop elements off the ends of a sorted container stop at the first element that fails a
test. When the test, once false, stays false along the list, such a cut is a filter, and the position of an
element is compared with the number of those that pass. -/

namespace Ccf

open List

variable {α : Type*} {p : α → Bool} {l : List α} {i : ℕ}

section
variable (h : l.Pairwise fun x y => p y = true → p x = true)
include h

theorem takeWhile_eq_filter : l.takeWhile p = l.filter p := by
  induction l with
  | nil => rfl
  | cons x l ih =>
    rw [pairwise_cons] at h
    by_cases hx : p x = true
    · rw [takeWhile_cons_of_pos hx, filter_cons_of_pos hx, ih h.2]
    · rw [takeWhile_cons_of_neg hx, filter_cons_of_neg hx, filter_eq_nil_iff.2]
      exact fun y hy hp => hx (h.1 y hy hp)

theorem dropWhile_eq_filter : l.dropWhile p = l.filter fun x => !p x := by
  induction l with
  | nil => rfl
  | cons x l ih =>
    rw [pairwise_cons] at h
    by_cases hx : p x = true
    · rw [dropWhile_cons_of_pos hx, filter_cons_of_neg (by simp [hx]), ih h.2]
    · rw [dropWhile_cons_of_neg hx, filter_cons_of_pos (by simpa using hx), filter_eq_self.2]
      intro y hy
      have := mt (h.1 y hy) hx
      simpa using this

theorem rdropWhile_eq_filter : l.rdropWhile (fun x => !p x) = l.filter p := by
  induction l using List.reverseRecOn with
  | nil => rfl
  | append_singleton l x ih =>
    rw [pairwise_append] at h
    by_cases hx : p x = true
    · rw [rdropWhile_concat_neg _ _ _ (by simp [hx]), filter_append, filter_cons_of_pos hx,
        filter_eq_self.2, filter_nil]
      exact fun y hy => h.2.2 y hy x (by simp) hx
    · rw [rdropWhile_concat_pos _ _ _ (by simpa using hx), ih h.1, filter_append,
        filter_cons_of_neg hx, filter_nil, append_nil]

end

theorem filter_le_append {f : α → ℕ} (h : l.Pairwise fun x y => f x < f y) {a b : ℕ} (hab : a ≤ b) :
    l.filter (f · ≤ b) = l.filter (f · ≤ a) ++ (l.filter (a < f ·)).filter (f · ≤ b) := by
  induction l with
  | nil => rfl
  | cons x l ih =>
    rw [pairwise_cons] at h
    by_cases hx : f x ≤ a
    · rw [filter_cons_of_pos (by simpa using hx.trans hab), filter_cons_of_pos (by simpa using hx),
        filter_cons_of_neg (by simpa using hx), cons_append, ← ih h.2]
    · have hall : ∀ y ∈ x :: l, a < f y := by
        intro y hy
        rcases mem_cons.1 hy with rfl | hy
        · exact not_le.1 hx
        · exact (not_le.1 hx).trans (h.1 y hy)
      have hnone : (x :: l).filter (fun y => decide (f y ≤ a)) = [] :=
        filter_eq_nil_iff.2 fun y hy => by simpa using hall y hy
      have hself : (x :: l).filter (fun y => decide (a < f y)) = x :: l :=
        filter_eq_self.2 fun y hy => by simpa using hall y hy
      rw [hnone, hself, nil_append]

theorem find?_reverse (p : α → Bool) (l : List α) : l.reverse.find? p = (l.filter p).getLast? := by
  rw [← head?_filter, filter_reverse, head?_reverse]

/-- The position of an element, by the elements that fall under a test which, once false, stays false. -/
theorem not_iff_countP_le {x : α} (h : l.Pairwise fun x y => p y = true → p x = true)
    (hx : l[i]? = some x) : p x = false ↔ l.countP p ≤ i := by
  induction l generalizing i with
  | nil => cases hx
  | cons a l ih =>
    obtain ⟨ha, hl⟩ := pairwise_cons.1 h
    have hnone : p a = false → ∀ y ∈ l, p y = false := fun hpa y hy => by
      rw [← Bool.not_eq_true] at hpa ⊢
      exact fun hpy => hpa (ha y hy hpy)
    cases i with
    | zero =>
      obtain rfl : a = x := Option.some.inj hx
      cases hpa : p a with
      | false => simpa [hpa] using hnone hpa
      | true => simp [hpa]
    | succ i =>
      cases hpa : p a with
      | false =>
        have hcount : l.countP p = 0 := countP_eq_zero.2 fun y hy => by simp [hnone hpa y hy]
        simp [hpa, hcount, hnone hpa x (mem_of_getElem? hx)]
      | true => simpa [countP_cons, hpa] using ih hl hx

/-- The element at a position of the sorted list, by the elements below a bound. -/
theorem le_insertionSort_iff {τ : Type*} [LinearOrder τ] {l : List τ} {k : ℕ} {x : τ}
    (h : (l.insertionSort (· ≤ ·))[k]? = some x) (t : τ) : t ≤ x ↔ l.countP (· < t) ≤ k := by
  have hsorted := (pairwise_insertionSort (· ≤ ·) l).imp (S := fun x y => decide (y < t) = true → decide (x < t) = true)
    fun hxy hy => by simpa using hxy.trans_lt (by simpa using hy)
  rw [← (perm_insertionSort (· ≤ ·) l).countP_eq, ← not_iff_countP_le hsorted h]
  simp

end Ccf
