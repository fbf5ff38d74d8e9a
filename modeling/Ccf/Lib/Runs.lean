import Mathlib.Data.List.Basic

/-! # Runs of a deterministic transition system

A system is a function `step : σ → α → σ` from a state and an action to the next state. `exec` runs a list of
actions; `Along P` says that every step of a run meets `P` in the state it is taken in. `exec_induction` is the
invariant rule and `exec_rel` its version for a preorder between two points of a run. -/

namespace Ccf.Runs

variable {σ α : Type*} (step : σ → α → σ)

def exec (s : σ) (actions : List α) : σ := actions.foldl step s

/-- Every step of the run of `actions` from `s` meets `P`. -/
def Along (P : σ → α → Prop) : σ → List α → Prop
  | _, [] => True
  | s, x :: xs => P s x ∧ Along P (step s x) xs

variable {step}

@[simp] theorem exec_nil (s : σ) : exec step s [] = s := rfl

@[simp] theorem exec_cons (s : σ) (x : α) (xs : List α) : exec step s (x :: xs) = exec step (step s x) xs := rfl

theorem exec_append (s : σ) (xs ys : List α) : exec step s (xs ++ ys) = exec step (exec step s xs) ys :=
  List.foldl_append

theorem exec_concat (s : σ) (xs : List α) (x : α) : exec step s (xs ++ [x]) = step (exec step s xs) x := by
  rw [exec_append]
  rfl

variable {P : σ → α → Prop}

instance [∀ s x, Decidable (P s x)] (s : σ) (xs : List α) : Decidable (Along step P s xs) := by
  induction xs generalizing s with
  | nil => exact isTrue trivial
  | cons x xs ih => exact instDecidableAnd

variable {s : σ} {xs : List α}

theorem along_append {ys : List α} :
    Along step P s (xs ++ ys) ↔ Along step P s xs ∧ Along step P (exec step s xs) ys := by
  induction xs generalizing s with
  | nil => simp [Along]
  | cons x xs ih => simp only [List.cons_append, Along, ih, exec_cons, and_assoc]

theorem along_concat {x : α} : Along step P s (xs ++ [x]) ↔ Along step P s xs ∧ P (exec step s xs) x := by
  rw [along_append]
  simp [Along]

theorem along_iff : Along step P s xs ↔ ∀ n x, xs[n]? = some x → P (exec step s (xs.take n)) x := by
  induction xs generalizing s with
  | nil => simp [Along]
  | cons x xs ih =>
    simp only [Along, ih]
    constructor
    · rintro ⟨hx, hxs⟩ n y hy
      cases n with
      | zero => exact Option.some.inj hy ▸ hx
      | succ n => exact hxs n y hy
    · intro h
      exact ⟨h 0 x rfl, fun n y hy => h (n + 1) y hy⟩

variable {Q : σ → α → Prop}

theorem Along.imp (h : ∀ s x, P s x → Q s x) (hP : Along step P s xs) : Along step Q s xs := by
  rw [along_iff] at hP ⊢
  exact fun n x hx => h _ _ (hP n x hx)

theorem along_and : Along step (fun s x => P s x ∧ Q s x) s xs ↔ Along step P s xs ∧ Along step Q s xs := by
  induction xs generalizing s with
  | nil => simp [Along]
  | cons x xs ih =>
    simp only [Along, ih]
    tauto

theorem Along.take (h : Along step P s xs) (n : ℕ) : Along step P s (xs.take n) := by
  rw [← List.take_append_drop n xs, along_append] at h
  exact h.1

theorem along_true (s : σ) (xs : List α) : Along step (fun _ _ => True) s xs := by
  induction xs generalizing s with
  | nil => trivial
  | cons x xs ih => exact ⟨trivial, ih _⟩

variable {I : σ → Prop} (hstep : ∀ s x, I s → P s x → I (step s x))
include hstep

/-- Invariant rule: what every allowed step keeps holds at the end of every allowed run. -/
theorem exec_induction
    (hs : I s) (hP : Along step P s xs) : I (exec step s xs) := by
  induction xs generalizing s with
  | nil => exact hs
  | cons x xs ih => exact ih (hstep s x hs hP.1) hP.2

/-- What every allowed step from a state of the invariant meets, every step of an allowed run meets. -/
theorem along_induction
    (hQ : ∀ s x, I s → P s x → Q s x) (hs : I s) (hP : Along step P s xs) : Along step Q s xs := by
  induction xs generalizing s with
  | nil => trivial
  | cons x xs ih => exact ⟨hQ s x hs hP.1, ih (hstep s x hs hP.1) hP.2⟩

omit hstep

/-- A preorder that relates the two ends of every step from a state satisfying the invariant `I` relates
any two points of a run. -/
theorem exec_rel {R : σ → σ → Prop} (hrefl : ∀ s, R s s)
    (htrans : ∀ s t u, R s t → R t u → R s u) (hI : ∀ s x, I s → I (step s x))
    (hR : ∀ s x, I s → R s (step s x)) (hs : I s) (xs : List α) : R s (exec step s xs) := by
  induction xs generalizing s with
  | nil => exact hrefl s
  | cons x xs ih => exact htrans _ _ _ (hR s x hs) (ih (hI s x hs))

end Ccf.Runs
