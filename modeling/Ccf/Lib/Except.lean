import Mathlib.Data.List.FinRange

/-! # Loops that may throw

Rules for `mapM` and `foldlM` in `Except`: a loop none of whose rounds throws computes what its rounds
compute, and a loop whose rounds only throw one error throws that one. -/

namespace Ccf.Loop

open List

universe u v

variable {ε : Type u} {α β : Type v} {f : α → Except ε β} {xs : List α} {g : α → β} {e : ε}

@[simp] theorem ok_bind (a : α) (f : α → Except ε β) : (Except.ok a >>= f) = f a := rfl

@[simp] theorem error_bind (e : ε) (f : α → Except ε β) : ((Except.error e : Except ε α) >>= f) = .error e := rfl

theorem mapM_ok (h : ∀ a ∈ xs, f a = .ok (g a)) : xs.mapM f = .ok (xs.map g) := by
  induction xs with
  | nil => rfl
  | cons a xs ih =>
    rw [mapM_cons, h a mem_cons_self, ih fun b hb => h b (mem_cons_of_mem a hb)]
    rfl

theorem mapM_error (h : ∀ a ∈ xs, (∃ b, f a = .ok b) ∨ f a = .error e) (hx : ∃ a ∈ xs, f a = .error e) :
    xs.mapM f = .error e := by
  induction xs with
  | nil =>
    obtain ⟨a, ha, -⟩ := hx
    cases ha
  | cons a xs ih =>
    rw [mapM_cons]
    rcases h a mem_cons_self with ⟨b, hb⟩ | ha
    · have hrest : ∃ c ∈ xs, f c = .error e := by
        obtain ⟨c, hc, hthrow⟩ := hx
        rcases mem_cons.1 hc with rfl | hc
        · rw [hb] at hthrow
          cases hthrow
        · exact ⟨c, hc, hthrow⟩
      rw [hb, ih (fun c hc => h c (mem_cons_of_mem a hc)) hrest]
      rfl
    · rw [ha]
      rfl

/-- A counting loop whose rounds take `g i` to `g (i + 1)`. -/
theorem foldlM_range {f : β → ℕ → Except ε β} (g : ℕ → β) (n : ℕ)
    (h : ∀ i < n, f (g i) i = .ok (g (i + 1))) : (List.range n).foldlM f (g 0) = .ok (g n) := by
  induction n with
  | zero => rfl
  | succ n ih =>
    rw [range_succ, foldlM_append, ih fun i hi => h i (by omega), ok_bind, foldlM_cons,
      h n (by omega)]
    rfl

/-- A loop over all indices of an array that keeps an invariant of the number of rounds done. -/
theorem foldlM_finRange {n : ℕ} {f : β → Fin n → Except ε β} (inv : ℕ → β → Prop) {b : β} (hb : inv 0 b)
    (h : ∀ (i : Fin n) b, inv i b → ∃ b', f b i = .ok b' ∧ inv (i + 1) b') :
    ∃ b', (List.finRange n).foldlM f b = .ok b' ∧ inv n b' := by
  induction n generalizing b inv with
  | zero => exact ⟨b, rfl, hb⟩
  | succ n ih =>
    obtain ⟨b₁, hstep, hinv⟩ := h 0 b hb
    obtain ⟨b', hrest, hlast⟩ := ih (f := fun b i => f b i.succ) (fun i => inv (i + 1)) hinv
      fun i => h i.succ
    refine ⟨b', ?_, hlast⟩
    rw [finRange_succ, foldlM_cons, hstep, ok_bind, foldlM_map, hrest]

end Ccf.Loop
