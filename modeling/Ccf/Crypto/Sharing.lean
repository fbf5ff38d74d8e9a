import Ccf.Lib.Except
import Mathlib.Data.Nat.Bitwise
import Mathlib.NumberTheory.LucasLehmer

/-! # Secret sharing (`src/crypto/sharing.cpp`)

Arithmetic modulo `2^31 - 1` in 64-bit words, the polynomial drawn for each limb of a secret, its shares, and the
recovery of the secret from the first `threshold` shares.

A word is a natural number, and every operation of the source on words goes through `fit`, which is read in two ways:
`wraps` is the arithmetic of `uint64_t` and `uint32_t`, and `traps` stops with an error at the first result that does
not fit. A statement about both says that nothing ever wraps. -/

namespace Ccf.Crypto.Sharing

open Loop

/-- What an operation does with a result that is too large for its word. -/
inductive Overflow where
  | wraps
  | traps
  deriving DecidableEq, Repr

inductive Error where
  /-- `std::invalid_argument`. -/
  | invalidArgument (what : String)
  /-- A result does not fit its word; only the trapping reading has it. -/
  | overflow
  /-- An array is read outside of its bounds. -/
  | outOfBounds
  /-- The source is still waiting for random words. -/
  | entropyExhausted
  deriving DecidableEq, Repr

/-! ### Words -/

variable (o : Overflow)

def fit (bits x : ℕ) : Except Error ℕ :=
  match o with
  | .wraps => .ok (x % 2 ^ bits)
  | .traps => if x < 2 ^ bits then .ok x else .error .overflow

def wordAdd (x y : ℕ) : Except Error ℕ := fit o 64 (x + y)

def wordMul (x y : ℕ) : Except Error ℕ := fit o 64 (x * y)

def wordSub (x y : ℕ) : Except Error ℕ :=
  match o with
  | .wraps => .ok ((x + 2 ^ 64 - y) % 2 ^ 64)
  | .traps => if y ≤ x then .ok (x - y) else .error .overflow

/-- `xs[i]`. -/
def read {α : Type} (xs : List α) (i : ℕ) : Except Error α :=
  match xs[i]? with
  | some a => .ok a
  | none => .error .outOfBounds

/-! ### The prime field -/

def shiftOffset : ℕ := 31

def prime : ℕ := 1 <<< shiftOffset - 1

def ctReduce (x : ℕ) : Except Error ℕ := do
  let d := x >>> shiftOffset
  let x ← wordSub o x (← wordMul o d prime)
  let d := x >>> shiftOffset
  let x ← wordSub o x (← wordMul o d prime)
  let d := (← wordAdd o x 1) >>> shiftOffset
  wordSub o x (← wordMul o d prime)

def mul (x y : ℕ) : Except Error ℕ := do
  ctReduce o (← wordMul o x y)

def add (x y : ℕ) : Except Error ℕ := do
  ctReduce o (← wordAdd o x y)

def sub (x y : ℕ) : Except Error ℕ := do
  ctReduce o (← wordSub o (← wordAdd o prime x) y)

/-- The loop of `exp`. The exponent is shifted right by one each time, so that one round for each bit of
the word is as many as there can be. -/
def expLoop (o : Overflow) : ℕ → ℕ → ℕ → ℕ → Except Error ℕ
  | 0, _, y, _ => .ok y
  | rounds + 1, x, y, n => do
    if n > 0 then
      let y ← (if n &&& 1 ≠ 0 then mul o y x else .ok y : Except Error ℕ)
      let x ← mul o x x
      expLoop o rounds x y (n >>> 1)
    else .ok y

def exp (x n : ℕ) : Except Error ℕ := expLoop o 64 x 1 n

def inv (x : ℕ) : Except Error ℕ := do
  if x = 0 then throw (.invalidArgument "division by zero")
  exp o x (prime - 2)

/-! ### Polynomials -/

/-- `sample` over the words the generator delivers: the low 31 bits of the first one that does not have
them all set, and the words after it. -/
def sample : List ℕ → Except Error (ℕ × List ℕ)
  | [] => .error .entropyExhausted
  | r :: entropy => if r &&& prime = prime then sample entropy else .ok (r &&& prime, entropy)

/-- The loop of `sample_polynomial`, for as many coefficients as are still to be drawn. -/
def sampleCoefficients : ℕ → List ℕ → Except Error (List ℕ × List ℕ)
  | 0, entropy => .ok ([], entropy)
  | n + 1, entropy => do
    let (a, entropy) ← sample entropy
    let (p, entropy) ← sampleCoefficients n entropy
    .ok (a :: p, entropy)

def samplePolynomial (degree : ℕ) (entropy : List ℕ) : Except Error (List ℕ × List ℕ) :=
  sampleCoefficients (degree + 1) entropy

def evalStep (p : List ℕ) (x : ℕ) (acc : ℕ × ℕ) (i : ℕ) : Except Error (ℕ × ℕ) := do
  let y ← add o acc.1 (← mul o (← read p i) acc.2)
  let xi ← mul o x acc.2
  .ok (y, xi)

def eval (p : List ℕ) (degree x : ℕ) : Except Error ℕ := do
  let (y, _) ← (List.range (degree + 1)).foldlM (evalStep o p x) (0, 1)
  .ok y

/-! ### Shares -/

/-- `LIMBS`. -/
def limbs : ℕ := 10

structure Share where
  x : UInt32 := 0
  y : Fin limbs → UInt32 := fun _ => 0
  deriving DecidableEq

/-- The assignment of a word to a `uint32_t`. -/
def narrow (x : ℕ) : Except Error UInt32 := do
  .ok (UInt32.ofNat (← fit o 32 x))

/-- One limb of one share. -/
def dealShare (p : List ℕ) (degree : ℕ) (limb : Fin limbs) (share : Share) :
    Except Error Share := do
  let y ← narrow o (← eval o p degree share.x.toNat)
  .ok { share with y := Function.update share.y limb y }

/-- One limb of the secret and of every share, from the polynomial drawn for it. -/
def dealLimb (degree : ℕ) (st : Share × List Share × List ℕ) (limb : Fin limbs) :
    Except Error (Share × List Share × List ℕ) := do
  let (rawSecret, shares, entropy) := st
  let (p, entropy) ← samplePolynomial degree entropy
  let secret ← narrow o (← read p 0)
  let shares ← shares.mapM (dealShare o p degree limb)
  .ok ({ rawSecret with y := Function.update rawSecret.y limb secret }, shares, entropy)

/-- A share with its index, before any limb is dealt. -/
def indexShare (s : ℕ) : Except Error Share := do
  .ok { x := ← narrow o (← wordAdd o s 1) }

/-- `sample_secret_and_shares`, for a span of `n` shares: the secret, the shares and the random words that
are left. -/
def sampleSecretAndShares (entropy : List ℕ) (n threshold : ℕ) :
    Except Error (Share × List Share × List ℕ) := do
  if n = 0 then throw (.invalidArgument "insufficient number of shares")
  if threshold < 1 ∨ threshold > n then throw (.invalidArgument "invalid threshold")
  let degree ← wordSub o threshold 1
  let shares ← (List.range n).mapM (indexShare o)
  (List.finRange limbs).foldlM (dealLimb o degree) ({}, shares, entropy)

/-! ### Recovery -/

/-- The body of the inner loop that computes a Lagrange coefficient. -/
def lagrangeStep (shares : List Share) (i : ℕ) (acc : ℕ × ℕ) (j : ℕ) :
    Except Error (ℕ × ℕ) := do
  if i ≠ j then
    let xj ← ctReduce o (← read shares j).x.toNat
    let xi ← ctReduce o (← read shares i).x.toNat
    let numerator ← mul o acc.1 xj
    let denominator ← mul o acc.2 (← sub o xj xi)
    .ok (numerator, denominator)
  else .ok acc

def lagrangeAt (shares : List Share) (degree i : ℕ) : Except Error ℕ := do
  let (numerator, denominator) ← (List.range (degree + 1)).foldlM (lagrangeStep o shares i) (1, 1)
  if denominator = 0 then throw (.invalidArgument "duplicate input share")
  mul o numerator (← inv o denominator)

/-- The body of the loop that adds up one limb of the secret. -/
def interpolateStep (shares : List Share) (lagrange : List ℕ) (limb : Fin limbs) (y i : ℕ) :
    Except Error ℕ := do
  add o y (← mul o (← read lagrange i) (← ctReduce o ((← read shares i).y limb).toNat))

def recoverLimb (shares : List Share) (lagrange : List ℕ) (degree : ℕ) (rawSecret : Share)
    (limb : Fin limbs) : Except Error Share := do
  let y ← (List.range (degree + 1)).foldlM (interpolateStep o shares lagrange limb) 0
  .ok { rawSecret with y := Function.update rawSecret.y limb (← narrow o y) }

def recoverUnauthenticatedSecret (shares : List Share) (threshold : ℕ) :
    Except Error Share := do
  if shares.length < threshold then throw (.invalidArgument "insufficient input shares")
  let degree ← wordSub o threshold 1
  let lagrange ← (List.range (degree + 1)).mapM (lagrangeAt o shares degree)
  (List.finRange limbs).foldlM (recoverLimb o shares lagrange degree) {}

/-! ### The field the words stand for

Every word the source computes with is the least representative of an element of the field `ZMod prime`,
and each function gives the representative of what its name says, in both readings of the arithmetic. -/

theorem prime_eq : prime = 2147483647 := by decide

instance fact_prime : Fact prime.Prime := by
  refine ⟨?_⟩
  have hmersenne : prime = mersenne 31 := by decide
  rw [hmersenne]
  exact lucas_lehmer_sufficiency 31 (by norm_num) (by norm_num)

section words

variable {o : Overflow} {x y : ℕ}

theorem fit_eq {bits : ℕ} (h : x < 2 ^ bits) : fit o bits x = .ok x := by
  cases o with
  | wraps => simp only [fit, Nat.mod_eq_of_lt h]
  | traps => simp only [fit, if_pos h]

theorem wordAdd_eq (h : x + y < 2 ^ 64) : wordAdd o x y = .ok (x + y) := fit_eq h

theorem wordMul_eq (h : x * y < 2 ^ 64) : wordMul o x y = .ok (x * y) := fit_eq h

theorem wordSub_eq (hx : x < 2 ^ 64) (h : y ≤ x) : wordSub o x y = .ok (x - y) := by
  cases o with
  | wraps =>
    have hshift : x + 2 ^ 64 - y = x - y + 2 ^ 64 := by omega
    simp only [wordSub, hshift, Nat.add_mod_right]
    rw [Nat.mod_eq_of_lt (by omega)]
  | traps => simp only [wordSub, if_pos h]

theorem read_eq {α : Type} {xs : List α} {i : ℕ} {a : α} (h : xs[i]? = some a) : read xs i = .ok a := by
  simp only [read, h]

/-- **The constant-time reduction is the remainder**, for every 64-bit word. -/
theorem ctReduce_mod (hx : x < 2 ^ 64) : ctReduce o x = .ok (x % prime) := by
  have hshift : ∀ y : ℕ, y >>> shiftOffset = y / 2147483648 := fun y => Nat.shiftRight_eq_div_pow y 31
  have hround : ∀ {y d : ℕ}, y < 2 ^ 64 → d * 2147483647 ≤ y →
      (wordMul o d 2147483647 >>= fun z => wordSub o y z) = .ok (y - d * 2147483647) := by
    intro y d hy hd
    rw [wordMul_eq (by omega), ok_bind, wordSub_eq hy hd]
  simp only [ctReduce, hshift, prime_eq]
  -- the first round leaves the low bits plus the high bits, and so does the second
  obtain ⟨x₁, hx₁⟩ : ∃ x₁, x₁ = x - x / 2147483648 * 2147483647 := ⟨_, rfl⟩
  obtain ⟨x₂, hx₂⟩ : ∃ x₂, x₂ = x₁ - x₁ / 2147483648 * 2147483647 := ⟨_, rfl⟩
  rw [← bind_assoc, hround hx (by omega), ok_bind, ← hx₁, ← bind_assoc, hround (by omega) (by omega),
    ok_bind, ← hx₂, wordAdd_eq (by omega), ok_bind, hround (by omega) (by omega)]
  congr 1
  omega

variable (a : ZMod prime)

theorem val_lt : a.val < 2147483647 := (ZMod.val_lt a).trans_eq prime_eq

theorem ctReduce_val (hx : x < 2 ^ 64) : ctReduce o x = .ok (x : ZMod prime).val := by
  rw [ctReduce_mod hx, ZMod.val_natCast]

theorem mul_val (a b : ZMod prime) : mul o a.val b.val = .ok (a * b).val := by
  have hlt : a.val * b.val < 2 ^ 64 :=
    calc a.val * b.val ≤ 2147483647 * 2147483647 := Nat.mul_le_mul (val_lt a).le (val_lt b).le
      _ < 2 ^ 64 := by norm_num
  rw [mul, wordMul_eq hlt, ok_bind, ctReduce_val hlt, Nat.cast_mul, ZMod.natCast_zmod_val,
    ZMod.natCast_zmod_val]

theorem add_val (a b : ZMod prime) : add o a.val b.val = .ok (a + b).val := by
  have ha := val_lt a
  have hb := val_lt b
  rw [add, wordAdd_eq (by omega), ok_bind, ctReduce_val (by omega), Nat.cast_add, ZMod.natCast_zmod_val,
    ZMod.natCast_zmod_val]

theorem sub_val (a b : ZMod prime) : sub o a.val b.val = .ok (a - b).val := by
  have ha := val_lt a
  have hb := val_lt b
  have hp := prime_eq
  rw [sub, wordAdd_eq (by omega), ok_bind, wordSub_eq (by omega) (by omega), ok_bind,
    ctReduce_val (by omega), Nat.cast_sub (by omega), Nat.cast_add, ZMod.natCast_self, zero_add,
    ZMod.natCast_zmod_val, ZMod.natCast_zmod_val]

theorem expLoop_val (rounds : ℕ) (a b : ZMod prime) (n : ℕ) (hn : n < 2 ^ rounds) :
    expLoop o rounds a.val b.val n = .ok (b * a ^ n).val := by
  -- each round keeps `b * a ^ n`
  induction rounds generalizing a b n with
  | zero =>
    obtain rfl : n = 0 := by omega
    rw [expLoop, pow_zero, mul_one]
  | succ rounds ih =>
    have hhalf : n >>> 1 = n / 2 := Nat.shiftRight_eq_div_pow n 1
    have hbit : n &&& 1 = n % 2 := Nat.and_one_is_mod n
    rw [expLoop, hhalf, hbit]
    by_cases hpos : n > 0
    · rw [if_pos hpos]
      by_cases hodd : n % 2 = 0
      · rw [if_neg (not_not.2 hodd), ok_bind, mul_val, ok_bind, ih _ _ _ (by omega)]
        congr 2
        rw [← pow_two, ← pow_mul, show 2 * (n / 2) = n by omega]
      · rw [if_pos hodd, mul_val, ok_bind, mul_val, ok_bind, ih _ _ _ (by omega)]
        congr 2
        rw [← pow_two, ← pow_mul, mul_assoc, ← pow_succ', show 2 * (n / 2) + 1 = n by omega]
    · obtain rfl : n = 0 := by omega
      rw [if_neg hpos, pow_zero, mul_one]

theorem exp_val (n : ℕ) (hn : n < 2 ^ 64) : exp o a.val n = .ok (a ^ n).val := by
  have hone : (1 : ZMod prime).val = 1 := ZMod.val_one prime
  rw [exp, ← hone, expLoop_val 64 a 1 n hn, one_mul]

/-- Exponentiation by `prime - 2` inverts, by Fermat's little theorem. -/
theorem inv_val (ha : a ≠ 0) : inv o a.val = .ok (a⁻¹).val := by
  have hval : a.val ≠ 0 := (ZMod.val_ne_zero a).2 ha
  have hp := prime_eq
  have hpow : a ^ (prime - 2) = a⁻¹ := by
    refine eq_inv_of_mul_eq_one_left ?_
    rw [← pow_succ, show prime - 2 + 1 = prime - 1 by omega, ZMod.pow_card_sub_one_eq_one ha]
  rw [inv, if_neg hval]
  show exp o a.val (prime - 2) = _
  rw [exp_val a (prime - 2) (by omega), hpow]

theorem narrow_eq (hx : x < prime) : narrow o x = .ok (UInt32.ofNat x) := by
  have hp := prime_eq
  rw [narrow, fit_eq (by omega), ok_bind]

theorem toNat_ofNat (hx : x < prime) : (UInt32.ofNat x).toNat = x := by
  have hp := prime_eq
  rw [UInt32.toNat_ofNat', Nat.mod_eq_of_lt (by omega)]

end words

end Ccf.Crypto.Sharing
