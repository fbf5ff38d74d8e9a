import Mathlib.Data.String.Basic

/-! # Decimal strings and their order

Strings of digits of one length are in the order of the numbers they stand for (`digits_lt_iff`). A number that is
padded with zeroes to a width is such a string if it fits in the width (`padded`). -/

namespace Ccf

open List

def Digits (l : List Char) : Prop := ∀ c ∈ l, c.isDigit = true

variable {c : Char}

theorem isDigit_iff : c.isDigit = true ↔ 48 ≤ c.toNat ∧ c.toNat ≤ 57 := by
  simp only [Char.isDigit, Bool.and_eq_true, decide_eq_true_eq, ge_iff_le, UInt32.le_iff_toNat_le]
  exact Iff.rfl

theorem lt_iff_toNat_lt {d : Char} : c < d ↔ c.toNat < d.toNat := by
  exact Iff.rfl

theorem ofDigitChars_cons_zero (c : Char) (l : List Char) :
    Nat.ofDigitChars 10 (c :: l) 0 = 10 ^ l.length * (c.toNat - 48) + Nat.ofDigitChars 10 l 0 := by
  rw [Nat.ofDigitChars_cons, Nat.ofDigitChars_eq_ofDigitChars_zero, Nat.mul_zero, Nat.zero_add]
  rfl

theorem ofDigitChars_lt {l : List Char} (h : Digits l) : Nat.ofDigitChars 10 l 0 < 10 ^ l.length := by
  induction l with
  | nil => simp
  | cons c l ih =>
    have hl := ih fun d hd => h d (mem_cons_of_mem _ hd)
    have hc := isDigit_iff.1 (h c mem_cons_self)
    have hmul : 10 ^ l.length * (c.toNat - 48) ≤ 10 ^ l.length * 9 := Nat.mul_le_mul_left _ (by omega)
    rw [ofDigitChars_cons_zero, length_cons, Nat.pow_succ]
    omega

theorem digits_lt_iff {a b : List Char} (ha : Digits a) (hb : Digits b) (hlen : a.length = b.length) :
    a < b ↔ Nat.ofDigitChars 10 a 0 < Nat.ofDigitChars 10 b 0 := by
  induction a generalizing b with
  | nil =>
    obtain rfl : b = [] := length_eq_zero_iff.1 hlen.symm
    simp
  | cons c a ih =>
    cases b with
    | nil => cases hlen
    | cons d b =>
      have hlen : a.length = b.length := Nat.succ.inj hlen
      have ha' : Digits a := fun x hx => ha x (mem_cons_of_mem _ hx)
      have hb' : Digits b := fun x hx => hb x (mem_cons_of_mem _ hx)
      have hlta := ofDigitChars_lt ha'
      have hltb := ofDigitChars_lt hb'
      have hc := isDigit_iff.1 (ha c mem_cons_self)
      have hd := isDigit_iff.1 (hb d mem_cons_self)
      rw [cons_lt_cons_iff, ih ha' hb' hlen, ofDigitChars_cons_zero, ofDigitChars_cons_zero, hlen]
      rw [hlen] at hlta
      rcases lt_trichotomy c.toNat d.toNat with hlt | heq | hgt
      · have hmul : 10 ^ b.length * (c.toNat - 48 + 1) ≤ 10 ^ b.length * (d.toNat - 48) :=
          Nat.mul_le_mul_left _ (by omega)
        rw [Nat.mul_add, Nat.mul_one] at hmul
        simp only [lt_iff_toNat_lt, hlt, true_or, true_iff]
        omega
      · obtain rfl := Char.toNat_inj.1 heq
        simp
      · have hmul : 10 ^ b.length * (d.toNat - 48 + 1) ≤ 10 ^ b.length * (c.toNat - 48) :=
          Nat.mul_le_mul_left _ (by omega)
        rw [Nat.mul_add, Nat.mul_one] at hmul
        have hne : c ≠ d := fun h => by simp [h] at hgt
        simp only [lt_iff_toNat_lt, not_lt.2 hgt.le, hne, false_and, false_or, false_iff]
        omega

/-- A number in decimal, padded with zeroes on the left. -/
def padded (width n : ℕ) : List Char := (Nat.toDigits 10 n).leftpad width '0'

theorem digits_padded (width n : ℕ) : Digits (padded width n) := by
  intro c hc
  rcases mem_append.1 hc with hc | hc
  · rw [eq_of_mem_replicate hc]
    decide
  · exact Nat.isDigit_of_mem_toDigits (by decide) (by decide) hc

theorem ofDigitChars_padded (width n : ℕ) : Nat.ofDigitChars 10 (padded width n) 0 = n := by
  rw [padded, List.leftpad, Nat.ofDigitChars_append, Nat.ofDigitChars_replicate_zero, Nat.mul_zero,
    Nat.ofDigitChars_toDigits (by decide) (by decide)]

variable {n width : ℕ}

theorem length_padded (hw : 0 < width) (h : n < 10 ^ width) : (padded width n).length = width := by
  rw [padded, length_leftpad, max_eq_left]
  exact (Nat.length_toDigits_le_iff (by decide) hw).2 h

theorem padded_lt_iff {m : ℕ} (hw : 0 < width) (hn : n < 10 ^ width) (hm : m < 10 ^ width) :
    padded width n < padded width m ↔ n < m := by
  rw [digits_lt_iff (digits_padded _ _) (digits_padded _ _) ((length_padded hw hn).trans (length_padded hw hm).symm),
    ofDigitChars_padded, ofDigitChars_padded]

end Ccf
