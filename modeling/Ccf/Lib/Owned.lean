import Mathlib.Data.List.Basic

/-! # Lists whose elements have owners

`ofOwner w xs` is what owner `w` has in `xs`, in its order: a merge of sequences, one for each owner, seen by one of
them. `updateFirst` changes the first element that meets a test; if at most one does, it is a map. -/

namespace Ccf

open List

section owned

variable {ω α : Type*} [DecidableEq ω] {w v : ω} {a : α} {xs ys : List (ω × α)}

def ofOwner (w : ω) (xs : List (ω × α)) : List α := (xs.filter fun x => x.1 == w).map Prod.snd

@[simp] theorem ofOwner_nil : ofOwner w ([] : List (ω × α)) = [] := rfl

@[simp] theorem ofOwner_append : ofOwner w (xs ++ ys) = ofOwner w xs ++ ofOwner w ys := by
  rw [ofOwner, filter_append, map_append]
  rfl

@[simp] theorem ofOwner_cons_self : ofOwner w ((w, a) :: xs) = a :: ofOwner w xs := by
  rw [ofOwner, filter_cons_of_pos (by simp), map_cons]
  rfl

theorem ofOwner_cons_of_ne (h : v ≠ w) : ofOwner w ((v, a) :: xs) = ofOwner w xs := by
  rw [ofOwner, filter_cons_of_neg (by simpa using h)]
  rfl

theorem ofOwner_all (as : List α) : ofOwner w (as.map fun a => (w, a)) = as := by
  induction as with
  | nil => rfl
  | cons a as ih => rw [map_cons, ofOwner_cons_self, ih]

theorem ofOwner_none (h : v ≠ w) (as : List α) : ofOwner w (as.map fun a => (v, a)) = [] := by
  induction as with
  | nil => rfl
  | cons a as ih => rw [map_cons, ofOwner_cons_of_ne h, ih]

theorem mem_ofOwner : a ∈ ofOwner w xs ↔ (w, a) ∈ xs := by
  simp [ofOwner]

theorem ofOwner_map (f : α → α) : ofOwner w (xs.map fun x => (x.1, f x.2)) = (ofOwner w xs).map f := by
  induction xs with
  | nil => rfl
  | cons x xs ih =>
    obtain ⟨v, a⟩ := x
    by_cases h : v = w
    · subst h
      simp only [map_cons, ofOwner_cons_self, ih]
    · simp only [map_cons, ofOwner_cons_of_ne h, ih]

theorem ofOwner_erase_self [DecidableEq α] : ofOwner w (xs.erase (w, a)) = (ofOwner w xs).erase a := by
  induction xs with
  | nil => rfl
  | cons x xs ih =>
    obtain ⟨v, b⟩ := x
    by_cases h : v = w
    · subst h
      by_cases hb : b = a
      · subst hb
        simp only [erase_cons_head, ofOwner_cons_self]
      · rw [erase_cons_tail (by simpa using hb), ofOwner_cons_self, ofOwner_cons_self,
          erase_cons_tail (by simpa using hb), ih]
    · rw [erase_cons_tail (by simp [h]), ofOwner_cons_of_ne h, ofOwner_cons_of_ne h, ih]

theorem ofOwner_erase_of_ne [DecidableEq α] (h : v ≠ w) : ofOwner w (xs.erase (v, a)) = ofOwner w xs := by
  induction xs with
  | nil => rfl
  | cons x xs ih =>
    obtain ⟨u, b⟩ := x
    by_cases hx : (u, b) = (v, a)
    · cases hx
      rw [erase_cons_head, ofOwner_cons_of_ne h]
    · rw [erase_cons_tail (by simpa using hx)]
      by_cases hu : u = w
      · subst hu
        rw [ofOwner_cons_self, ofOwner_cons_self, ih]
      · rw [ofOwner_cons_of_ne hu, ofOwner_cons_of_ne hu, ih]

end owned

section update

variable {α : Type*} {p : α → Bool} {f : α → α} {xs : List α}

/-- Change the first element that meets `p`. -/
def updateFirst (p : α → Bool) (f : α → α) : List α → List α
  | [] => []
  | x :: xs => if p x then f x :: xs else x :: updateFirst p f xs

theorem updateFirst_eq_map (h : xs.Pairwise fun a b => ¬(p a ∧ p b)) :
    updateFirst p f xs = xs.map fun x => if p x then f x else x := by
  induction xs with
  | nil => rfl
  | cons x xs ih =>
    obtain ⟨hx, hxs⟩ := pairwise_cons.1 h
    rw [updateFirst, map_cons]
    split_ifs with hp
    · have hrest : xs.map (fun y => if p y then f y else y) = xs := by
        conv_rhs => rw [← map_id xs]
        exact map_congr_left fun y hy => if_neg fun hy' => hx y hy ⟨hp, hy'⟩
      rw [hrest]
    · rw [ih hxs]

end update

end Ccf
