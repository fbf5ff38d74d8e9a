import Mathlib.LinearAlgebra.Lagrange

/-! # Polynomials given by their coefficients, read at a few points

A polynomial over a field is a vector of coefficients, and `evalAt` is its value at a point. A threshold scheme rests on
two facts: as many values as there are coefficients give the value at zero back (`sum_weightAtZero`), and one value
fewer, at nonzero points, fits every constant term through exactly one choice of the other coefficients
(`existsUnique_coefficients`). -/

namespace Ccf.Interpolation

open Polynomial Finset

variable {F : Type*} [Field F] {n : ℕ}

/-- The value at `x` of the polynomial with coefficients `p`, the constant term first. -/
def evalAt {n : ℕ} (p : Fin n → F) (x : F) : F := ∑ k : Fin n, p k * x ^ (k : ℕ)

theorem evalAt_cons (s : F) (c : Fin n → F) (x : F) :
    evalAt (Fin.cons s c : Fin (n + 1) → F) x = s + x * evalAt c x := by
  unfold evalAt
  rw [Fin.sum_univ_succ, mul_sum]
  simp only [Fin.cons_zero, Fin.val_zero, pow_zero, mul_one, Fin.cons_succ, Fin.val_succ]
  congr 1
  refine sum_congr rfl fun k _ => ?_
  ring

theorem evalAt_zero (p : Fin (n + 1) → F) : evalAt p 0 = p 0 := by
  rw [← Fin.cons_self_tail p, evalAt_cons, zero_mul, add_zero, Fin.cons_zero]

/-! ### The value at zero from as many values as coefficients -/

section atZero

variable {ι : Type*} [DecidableEq ι]

/-- The weight of the value at node `i` in the value at zero. -/
def weightAtZero (s : Finset ι) (v : ι → F) (i : ι) : F :=
  (∏ j ∈ s.erase i, v j) * (∏ j ∈ s.erase i, (v j - v i))⁻¹

theorem eval_zero_basis (s : Finset ι) (v : ι → F) (i : ι) : (Lagrange.basis s v i).eval 0 = weightAtZero s v i := by
  unfold Lagrange.basis weightAtZero
  rw [eval_prod, ← prod_inv_distrib, ← prod_mul_distrib]
  refine prod_congr rfl fun j _ => ?_
  simp only [Lagrange.basisDivisor, eval_mul, eval_C, eval_sub,
    eval_X, zero_sub]
  rw [← neg_sub (v j) (v i), inv_neg]
  ring

open Polynomial in
/-- **Interpolation at zero**. The values at as many distinct nodes as there are coefficients, each with
its weight, add up to the constant term. -/
theorem sum_weightAtZero (p : Fin (n + 1) → F) (s : Finset ι) (v : ι → F)
    (hinj : Set.InjOn v s) (hcard : s.card = n + 1) :
    ∑ i ∈ s, weightAtZero s v i * evalAt p (v i) = p 0 := by
  let f : F[X] := ∑ k : Fin (n + 1), C (p k) * X ^ (k : ℕ)
  have heval : ∀ x, f.eval x = evalAt p x := by
    intro x
    simp only [f, evalAt, eval_finsetSum, eval_mul, eval_C,
      eval_pow, eval_X]
  have hdegree : f.degree < s.card := by
    rw [hcard]
    refine (degree_sum_fin_lt p).trans_eq ?_
    rfl
  have hf := Lagrange.eq_interpolate hinj hdegree
  have hzero := congrArg (eval 0) hf
  rw [heval, evalAt_zero, Lagrange.interpolate_apply, eval_finsetSum] at hzero
  rw [hzero]
  refine sum_congr rfl fun i _ => ?_
  rw [eval_mul, eval_C, eval_zero_basis, heval, mul_comm]

/-- A product of differences from one node vanishes exactly when another node has the same value. -/
theorem prod_sub_eq_zero_iff (s : Finset ι) (v : ι → F) (i : ι) :
    ∏ j ∈ s.erase i, (v j - v i) = 0 ↔ ∃ j ∈ s, j ≠ i ∧ v j = v i := by
  rw [prod_eq_zero_iff]
  constructor
  · rintro ⟨j, hj, hzero⟩
    exact ⟨j, mem_of_mem_erase hj, ne_of_mem_erase hj, sub_eq_zero.1 hzero⟩
  · rintro ⟨j, hj, hne, heq⟩
    exact ⟨j, mem_erase.2 ⟨hne, hj⟩, sub_eq_zero.2 heq⟩

end atZero

/-! ### One value fewer fits every constant term -/

theorem bijective_values (v : Fin n → F) (hinj : Function.Injective v) :
    Function.Bijective fun (c : Fin n → F) (i : Fin n) => evalAt c (v i) := by
  have hdet : IsUnit (Matrix.vandermonde v).det :=
    isUnit_iff_ne_zero.2 (Matrix.det_vandermonde_ne_zero_iff.2 hinj)
  have hunit : IsUnit (Matrix.vandermonde v) := (Matrix.isUnit_iff_isUnit_det _).2 hdet
  have hvalues : (fun (c : Fin n → F) (i : Fin n) => evalAt c (v i)) = (Matrix.vandermonde v).mulVec := by
    funext c i
    exact sum_congr rfl fun k _ => mul_comm _ _
  rw [hvalues]
  exact ⟨Matrix.mulVec_injective_iff_isUnit.2 hunit, Matrix.mulVec_surjective_iff_isUnit.2 hunit⟩

/-- **Every constant term fits**. Prescribed values at distinct nonzero nodes and a prescribed constant
term are met by exactly one choice of the other coefficients, as many as there are nodes. -/
theorem existsUnique_coefficients (v : Fin n → F) (hinj : Function.Injective v)
    (hne : ∀ i, v i ≠ 0) (s : F) (r : Fin n → F) :
    ∃! c : Fin n → F, ∀ i, evalAt (Fin.cons s c : Fin (n + 1) → F) (v i) = r i := by
  -- the other coefficients are those of the quotient by the node, whose values are determined
  have hquot : ∀ (c : Fin n → F) i, evalAt (Fin.cons s c : Fin (n + 1) → F) (v i) = r i ↔
      evalAt c (v i) = (r i - s) / v i := by
    intro c i
    rw [evalAt_cons, eq_div_iff (hne i), mul_comm, eq_sub_iff_add_eq, add_comm]
  obtain ⟨c, hc, hunique⟩ := (bijective_values v hinj).existsUnique fun i => (r i - s) / v i
  refine ⟨c, fun i => (hquot c i).2 (congrFun hc i), fun c' hc' => hunique c' ?_⟩
  funext i
  exact (hquot c' i).1 (hc' i)

end Ccf.Interpolation
