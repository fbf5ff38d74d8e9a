import Mathlib.Data.Finset.Card
import Mathlib.Data.Nat.Find

/-! # Logs with terms and signatures

The logs of a replication protocol in which only signatures can be committed. `Proto` has what the protocol knows about
entries: the term an entry was written in, whether it is a signature, and the members of the group after a log;
`genesis` is the log the first leader starts from, in term `first`. Positions in a log count from one.

`Coherent tl ℓ` says that every part of `ℓ` that ends in an entry of term `t` is the beginning of `tl t`, the log of the
leader of `t`. Two coherent logs with entries of the same term at a position are equal up to it. -/

namespace Ccf.SignedRaft

open List

structure Proto (ι ε : Type*) where
  term : ε → ℕ
  sig : ε → Prop
  conf : List ε → Finset ι
  genesis : List ε
  first : ℕ
  genesis_ne_nil : genesis ≠ []

variable {ι ε : Type*} {n : ℕ}

namespace Proto

variable (P : Proto ι ε)

/-- The term of the entry at position `n`, zero if there is none. -/
def termAt (ℓ : List ε) : ℕ → ℕ
  | 0 => 0
  | n + 1 => (ℓ[n]?).elim 0 P.term

/-- There is a signature at position `n`. -/
def SigAt (ℓ : List ε) (n : ℕ) : Prop := ∃ e, 0 < n ∧ ℓ[n - 1]? = some e ∧ P.sig e

open Classical in
/-- The position of the last signature, zero if there is none. -/
noncomputable def lastSig (ℓ : List ε) : ℕ := Nat.findGreatest (P.SigAt ℓ) ℓ.length

/-- `ℓ` is at least as far as `ℓ'`, comparing the terms and then the positions of their last signatures. -/
def UpToDate (ℓ ℓ' : List ε) : Prop :=
  P.termAt ℓ' (P.lastSig ℓ') < P.termAt ℓ (P.lastSig ℓ) ∨
    P.termAt ℓ' (P.lastSig ℓ') = P.termAt ℓ (P.lastSig ℓ) ∧ P.lastSig ℓ' ≤ P.lastSig ℓ

/-- Every part of `ℓ` is the beginning of the log of the leader of the term it ends in. -/
def Coherent (tl : ℕ → List ε) (ℓ : List ε) : Prop :=
  ∀ n, 0 < n → n ≤ ℓ.length → ℓ.take n <+: tl (P.termAt ℓ n)

end Proto

/-! ### Prefixes -/

theorem take_eq_of_isPrefix {ℓ ℓ' : List ε} (h : ℓ <+: ℓ') (hn : n ≤ ℓ.length) : ℓ'.take n = ℓ.take n := by
  obtain ⟨t, rfl⟩ := h
  rw [take_append_of_le_length hn]

/-! ### Terms and signatures -/

namespace Proto

variable {P : Proto ι ε} {ℓ ℓ' : List ε} {b m : ℕ}

theorem getElem?_of_isPrefix (h : ℓ <+: ℓ') (hn : n < ℓ.length) : ℓ'[n]? = ℓ[n]? := by
  obtain ⟨t, rfl⟩ := h
  exact getElem?_append_left hn

theorem termAt_of_isPrefix (h : ℓ <+: ℓ') (hn : n ≤ ℓ.length) : P.termAt ℓ' n = P.termAt ℓ n := by
  cases n with
  | zero => rfl
  | succ n => rw [termAt, termAt, getElem?_of_isPrefix h hn]

theorem sigAt_of_isPrefix (h : ℓ <+: ℓ') (hn : n ≤ ℓ.length) : P.SigAt ℓ' n ↔ P.SigAt ℓ n := by
  unfold SigAt
  cases n with
  | zero => simp
  | succ n => rw [Nat.add_sub_cancel, getElem?_of_isPrefix h hn]

theorem termAt_take (hm : m ≤ n) : P.termAt (ℓ.take n) m = P.termAt ℓ m := by
  cases m with
  | zero => rfl
  | succ m => rw [termAt, termAt, getElem?_take_of_lt hm]

theorem sigAt_take (hm : m ≤ n) : P.SigAt (ℓ.take n) m ↔ P.SigAt ℓ m := by
  unfold SigAt
  cases m with
  | zero => simp
  | succ m => rw [Nat.add_sub_cancel, getElem?_take_of_lt hm]

theorem termAt_concat (ℓ : List ε) (e : ε) : P.termAt (ℓ ++ [e]) (ℓ.length + 1) = P.term e := by
  simp [termAt]

theorem genesis_pos (P : Proto ι ε) : 0 < P.genesis.length := length_pos_iff.2 P.genesis_ne_nil

theorem SigAt.pos (h : P.SigAt ℓ n) : 0 < n := h.choose_spec.1

theorem SigAt.le_length (h : P.SigAt ℓ n) : n ≤ ℓ.length := by
  obtain ⟨e, hpos, he, _⟩ := h
  have := (List.getElem?_eq_some_iff.1 he).1
  omega

theorem termAt_mem (hpos : 0 < n) (hn : n ≤ ℓ.length) : ∃ e ∈ ℓ, P.termAt ℓ n = P.term e := by
  obtain ⟨m, rfl⟩ := Nat.exists_eq_succ_of_ne_zero hpos.ne'
  exact ⟨ℓ[m], getElem_mem _, by simp [termAt, Nat.lt_of_succ_le hn]⟩

theorem termAt_le (h : ∀ e ∈ ℓ, P.term e ≤ b) (n : ℕ) : P.termAt ℓ n ≤ b := by
  cases n with
  | zero => exact Nat.zero_le b
  | succ n =>
    rw [termAt]
    cases he : ℓ[n]? with
    | none => exact Nat.zero_le b
    | some e => exact h e (mem_of_getElem? he)

theorem lastSig_le (ℓ : List ε) : P.lastSig ℓ ≤ ℓ.length := by
  classical exact Nat.findGreatest_le _

theorem sigAt_lastSig (h : 0 < P.lastSig ℓ) : P.SigAt ℓ (P.lastSig ℓ) := by
  classical exact Nat.findGreatest_of_ne_zero rfl h.ne'

theorem SigAt.le_lastSig (h : P.SigAt ℓ n) : n ≤ P.lastSig ℓ := by
  classical exact Nat.le_findGreatest h.le_length h

theorem lastSig_eq (hn : n = 0 ∨ P.SigAt ℓ n) (hlast : ∀ m, P.SigAt ℓ m → m ≤ n) : P.lastSig ℓ = n := by
  refine le_antisymm ?_ ?_
  · rcases Nat.eq_zero_or_pos (P.lastSig ℓ) with h0 | hpos
    · omega
    · exact hlast _ (sigAt_lastSig hpos)
  · rcases hn with rfl | hn
    · exact Nat.zero_le _
    · exact hn.le_lastSig

/-- Cutting a log after its last signature does not change what its last signature is. -/
theorem lastSig_take_lastSig (ℓ : List ε) : P.lastSig (ℓ.take (P.lastSig ℓ)) = P.lastSig ℓ := by
  refine lastSig_eq ?_ fun m hm => hm.le_length.trans (length_take_le _ _)
  rcases Nat.eq_zero_or_pos (P.lastSig ℓ) with h0 | hpos
  · exact .inl h0
  · exact .inr ((sigAt_take le_rfl).2 (sigAt_lastSig hpos))

/-! ### Coherence -/

variable {tl tl' : ℕ → List ε}

theorem coherent_nil : P.Coherent tl [] := by
  intro n hpos hn
  simp at hn
  omega

variable (h : P.Coherent tl ℓ) {e : ε}
include h

theorem Coherent.mono (htl : ∀ t, tl t <+: tl' t) : P.Coherent tl' ℓ :=
  fun n hpos hn => (h n hpos hn).trans (htl _)

omit h

theorem Coherent.of_isPrefix (h : P.Coherent tl ℓ') (hp : ℓ <+: ℓ') : P.Coherent tl ℓ := by
  intro n hpos hn
  have := h n hpos (hn.trans hp.length_le)
  rwa [take_eq_of_isPrefix hp hn, termAt_of_isPrefix hp hn] at this

include h

theorem Coherent.take (n : ℕ) : P.Coherent tl (ℓ.take n) :=
  h.of_isPrefix ( take_prefix n ℓ)

/-- The log of a leader stays coherent when the leader appends an entry of its term. -/
theorem Coherent.concat (hp : ℓ ++ [e] <+: tl (P.term e)) : P.Coherent tl (ℓ ++ [e]) := by
  intro n hpos hn
  rw [length_append, length_singleton] at hn
  rcases lt_or_ge ℓ.length n with hlt | hge
  · obtain rfl : n = ℓ.length + 1 := by omega
    rw [termAt_concat, take_of_length_le (by simp)]
    exact hp
  · rw [take_append_of_le_length hge, termAt_of_isPrefix (prefix_append _ _) hge]
    exact h n hpos hge

/-- **Log matching.**  Coherent logs with entries of one term at a position agree up to it. -/
theorem Coherent.take_eq (h' : P.Coherent tl ℓ') (hn : n ≤ ℓ.length)
    (hn' : n ≤ ℓ'.length) (hterm : P.termAt ℓ n = P.termAt ℓ' n) : ℓ.take n = ℓ'.take n := by
  rcases Nat.eq_zero_or_pos n with rfl | hpos
  · rfl
  · have hp := h n hpos hn
    have hp' := h' n hpos hn'
    rw [← hterm] at hp'
    have heq := prefix_iff_eq_take.1 hp
    have heq' := prefix_iff_eq_take.1 hp'
    rw [length_take, min_eq_left hn] at heq
    rw [length_take, min_eq_left hn'] at heq'
    rw [heq, heq']

omit h

end Proto

end Ccf.SignedRaft
