import Ccf.Lib.Interpolation
import Ccf.Crypto.Sharing

/-! # A secret and its shares

What `sample_secret_and_shares` hands out is, limb by limb, the values of one polynomial over the field at the indices
of the shares, with the secret as its value at zero (`sampleSecretAndShares_eq`). What
`recover_unauthenticated_secret` adds up is the interpolation at zero of the first `threshold` shares (`recover_eq`).
With one share fewer the values are, for every secret, in one-to-one correspondence with the other coefficients.
-/

namespace Ccf.Crypto.Sharing

open List Loop Interpolation

/-! ### Drawing the coefficients -/

/-- The random words the source does not reject, cut to 31 bits. -/
def accepted (entropy : List ℕ) : List ℕ := (entropy.map (· &&& prime)).filter (· ≠ prime)

variable {entropy q p : List ℕ} {n s a d : ℕ} {o : Overflow}

theorem accepted_lt (ha : a ∈ accepted entropy) : a < prime := by
  obtain ⟨hmem, hne⟩ := mem_filter.1 ha
  obtain ⟨r, -, rfl⟩ := mem_map.1 hmem
  exact lt_of_le_of_ne Nat.and_le_right (of_decide_eq_true hne)

theorem sample_eq (h : accepted entropy = a :: q) : ∃ rest, sample entropy = .ok (a, rest) ∧ accepted rest = q := by
  induction entropy with
  | nil => cases h
  | cons r entropy ih =>
    by_cases hr : r &&& prime = prime
    · have hskip : accepted (r :: entropy) = accepted entropy := by simp [accepted, hr]
      rw [sample, if_pos hr]
      exact ih (hskip ▸ h)
    · have htake : accepted (r :: entropy) = (r &&& prime) :: accepted entropy := by simp [accepted, hr]
      rw [htake] at h
      obtain ⟨rfl, hq⟩ := List.cons.inj h
      exact ⟨entropy, by rw [sample, if_neg hr], hq⟩

theorem sampleCoefficients_eq (h : accepted entropy = p ++ q) :
    ∃ rest, sampleCoefficients p.length entropy = .ok (p, rest) ∧ accepted rest = q := by
  induction p generalizing entropy with
  | nil => exact ⟨entropy, rfl, h⟩
  | cons a p ih =>
    obtain ⟨rest₁, hfirst, hrest₁⟩ := sample_eq h
    obtain ⟨rest, hmore, hrest⟩ := ih hrest₁
    refine ⟨rest, ?_, hrest⟩
    rw [length_cons, sampleCoefficients, hfirst, ok_bind]
    simp only [hmore, ok_bind]

/-- The words of a vector of coefficients. -/
def coefficients {n : ℕ} (p : Fin n → ZMod prime) : List ℕ := List.ofFn fun k => (p k).val

theorem read_coefficients (p : Fin n → ZMod prime) (k : Fin n) : read (coefficients p) k = .ok (p k).val := by
  refine read_eq ?_
  rw [coefficients, List.getElem?_ofFn, dif_pos k.isLt]

theorem samplePolynomial_eq (p : Fin (d + 1) → ZMod prime) (h : accepted entropy = coefficients p ++ q) :
    ∃ rest, samplePolynomial d entropy = .ok (coefficients p, rest) ∧ accepted rest = q := by
  have hsample := sampleCoefficients_eq h
  rwa [coefficients, List.length_ofFn] at hsample

/-! ### Evaluating a polynomial -/

theorem eval_val (p : Fin (d + 1) → ZMod prime) (x : ZMod prime) :
    eval o (coefficients p) d x.val = .ok (evalAt p x).val := by
  let c : ℕ → ZMod prime := fun k => if h : k < d + 1 then p ⟨k, h⟩ else 0
  have hc : ∀ k : Fin (d + 1), c k = p k := fun k => dif_pos k.isLt
  -- after `i` rounds the loop holds the value of the first `i` terms and the `i`-th power
  let g : ℕ → ℕ × ℕ := fun i => ((∑ k ∈ Finset.range i, c k * x ^ k).val, (x ^ i).val)
  have hstart : (0, 1) = g 0 := by
    simp only [g, Finset.range_zero, Finset.sum_empty, ZMod.val_zero, pow_zero]
    rw [ZMod.val_one prime]
  have hstep : ∀ i < d + 1, evalStep o (coefficients p) x.val (g i) i = .ok (g (i + 1)) := by
    intro i hi
    have hread : read (coefficients p) i = .ok (c i).val := by
      rw [hc ⟨i, hi⟩]
      exact read_coefficients p ⟨i, hi⟩
    simp only [evalStep, g]
    rw [hread, ok_bind, mul_val, ok_bind, add_val, ok_bind, mul_val, ok_bind, Finset.sum_range_succ, pow_succ']
  rw [eval, hstart, foldlM_range g (d + 1) hstep, ok_bind]
  simp only [g, evalAt, Finset.sum_range, hc]

/-! ### Dealing the shares -/

section dealing

variable (P : Fin limbs → Fin (d + 1) → ZMod prime)

/-- The secret of a choice of polynomials, one for each limb. -/
def secretOf : Share :=
  { x := 0, y := fun l => UInt32.ofNat (P l 0).val }

/-- Share number `s` of a choice of polynomials: their values at `s + 1`. -/
def shareOf (s : ℕ) : Share :=
  { x := UInt32.ofNat (s + 1), y := fun l => UInt32.ofNat (evalAt (P l) ((s + 1 : ℕ) : ZMod prime)).val }

/-- The words of a choice of polynomials, in the order they are drawn. -/
def drawn {n : ℕ} (P : Fin limbs → Fin n → ZMod prime) : List ℕ :=
  ((List.finRange limbs).map fun l => coefficients (P l)).flatten

/-- The first `i` limbs of `y`, and zero in the others. -/
def upto (i : ℕ) (y : Fin limbs → UInt32) : Fin limbs → UInt32 := fun l => if l.val < i then y l else 0

variable (y : Fin limbs → UInt32)

theorem update_upto (l : Fin limbs) : Function.update (upto l y) l (y l) = upto (l + 1) y := by
  funext k
  by_cases hk : k = l
  · subst hk
    rw [Function.update_self, upto, if_pos (Nat.lt_succ_self _)]
  · rw [Function.update_of_ne hk, upto, upto]
    exact if_congr (by omega) rfl rfl

theorem upto_zero : upto 0 y = fun _ => 0 := by
  funext k
  rw [upto, if_neg (Nat.not_lt_zero _)]

theorem upto_limbs : upto limbs y = y := by
  funext k
  rw [upto, if_pos k.isLt]

/-- Share number `s` with its first `i` limbs dealt. -/
def partOf (i s : ℕ) : Share :=
  { x := (shareOf P s).x, y := upto i (shareOf P s).y }

theorem partOf_limbs : partOf P limbs = shareOf P := by
  funext s
  rw [partOf, upto_limbs]

/-- What the loop over the limbs has dealt after `i` rounds. -/
def Dealt (n : ℕ) (q : List ℕ) (i : ℕ)
    (st : Share × List Share × List ℕ) : Prop :=
  st.1 = { x := 0, y := upto i (secretOf P).y } ∧ st.2.1 = (List.range n).map (partOf P i) ∧
  accepted st.2.2 = (((List.finRange limbs).drop i).map fun l => coefficients (P l)).flatten ++ q

theorem indexShare_eq (hs : s + 1 < prime) : indexShare o s = .ok (partOf P 0 s) := by
  have hp := prime_eq
  rw [indexShare, wordAdd_eq (by omega), ok_bind, narrow_eq hs, ok_bind, partOf, upto_zero]
  rfl

theorem dealShare_eq (l : Fin limbs) (hs : s + 1 < prime) :
    dealShare o (coefficients (P l)) d l (partOf P l s) = .ok (partOf P (l + 1) s) := by
  have hx : (partOf P l s).x.toNat = ((s + 1 : ℕ) : ZMod prime).val := by
    rw [ZMod.val_natCast, Nat.mod_eq_of_lt hs]
    exact toNat_ofNat hs
  rw [dealShare, hx, eval_val, ok_bind, narrow_eq (ZMod.val_lt _), ok_bind, partOf, partOf, ← update_upto]
  rfl

theorem dealLimb_eq {P : Fin limbs → Fin (d + 1) → ZMod prime} (hn : n < prime)
    (l : Fin limbs) {st : Share × List Share × List ℕ} (hst : Dealt P n q l st) :
    ∃ st', dealLimb o d st l = .ok st' ∧ Dealt P n q (l + 1) st' := by
  obtain ⟨rawSecret, shares, entropy⟩ := st
  obtain ⟨hsecret, hshares, hentropy⟩ := hst
  simp only at hsecret hshares hentropy
  have hlt : l.val < (List.finRange limbs).length := by
    exact l.isLt
  rw [drop_eq_getElem_cons hlt, map_cons, flatten_cons, append_assoc,
    getElem_finRange] at hentropy
  obtain ⟨rest, hsample, hrest⟩ := samplePolynomial_eq (P l) hentropy
  have hdeal : shares.mapM (dealShare o (coefficients (P l)) d l) =
      .ok ((List.range n).map (partOf P (l + 1))) := by
    rw [hshares, mapM_map]
    refine mapM_ok fun s hs => dealShare_eq P l ?_
    have := mem_range.1 hs
    omega
  refine ⟨({ x := 0, y := upto (l + 1) (secretOf P).y }, (List.range n).map (partOf P (l + 1)), rest),
    ?_, rfl, rfl, hrest⟩
  have hread := read_coefficients (P l) 0
  rw [Fin.val_zero] at hread
  simp only [dealLimb, hsample, hread, hdeal, ok_bind, narrow_eq (ZMod.val_lt _), hsecret, ← update_upto]
  rfl

/-- **What is handed out**: the values at zero and at the indices of the shares of the polynomials whose
coefficients were drawn. -/
theorem sampleSecretAndShares_eq {P : Fin limbs → Fin (d + 1) → ZMod prime}
    (hd : d + 1 ≤ n) (hn : n < prime) (h : accepted entropy = drawn P ++ q) :
    ∃ rest, sampleSecretAndShares o entropy n (d + 1) = .ok (secretOf P, (List.range n).map (shareOf P), rest) := by
  have hp := prime_eq
  have hindex : (List.range n).mapM (indexShare o) = .ok ((List.range n).map (partOf P 0)) := by
    refine mapM_ok fun s hs => indexShare_eq P ?_
    have := mem_range.1 hs
    omega
  have hstart : Dealt P n q 0 ({}, (List.range n).map (partOf P 0), entropy) := by
    refine ⟨?_, rfl, h⟩
    rw [upto_zero]
  obtain ⟨⟨rawSecret, shares, rest⟩, hloop, hsecret, hshares, -⟩ :=
    foldlM_finRange (Dealt P n q) hstart fun l st hst => dealLimb_eq hn l hst (o := o)
  simp only [upto_limbs, partOf_limbs] at hsecret hshares
  have hdrop : (List.finRange limbs).drop limbs = [] :=
    drop_eq_nil_of_le length_finRange.le
  refine ⟨rest, ?_⟩
  have hbounds : ¬(d + 1 < 1 ∨ d + 1 > n) := by omega
  unfold sampleSecretAndShares
  rw [if_neg (by omega), if_neg hbounds]
  show (wordSub o (d + 1) 1 >>= _) = _
  rw [wordSub_eq (by omega) (by omega), ok_bind, hindex, ok_bind]
  simp only [Nat.add_sub_cancel]
  rw [hloop, hsecret, hshares]
  rfl

end dealing

/-! ### Recovering the secret -/

section recovery

variable {shares : List Share}

/-- The point share `i` stands for. -/
def node (shares : List Share) (i : ℕ) : ZMod prime := ((shares.getD i {}).x.toNat : ℕ)

/-- The value share `i` has for a limb. -/
def value (shares : List Share) (l : Fin limbs) (i : ℕ) : ZMod prime := (((shares.getD i {}).y l).toNat : ℕ)

variable {i j t : ℕ} {w : ℕ → ZMod prime} {l : Fin limbs}

theorem read_share (hi : i < shares.length) : read shares i = .ok (shares.getD i {}) := by
  refine read_eq ?_
  rw [getD_eq_getElem _ _ hi, getElem?_eq_getElem hi]

theorem ctReduce_uint32 (x : UInt32) : ctReduce o x.toNat = .ok ((x.toNat : ℕ) : ZMod prime).val := by
  have hx := x.toNat_lt
  exact ctReduce_val (by omega)

theorem erase_range_succ_self (i : ℕ) : (Finset.range (i + 1)).erase i = (Finset.range i).erase i := by
  rw [Finset.range_add_one, Finset.erase_insert Finset.notMem_range_self,
    Finset.erase_eq_of_notMem Finset.notMem_range_self]

theorem prod_erase_range_succ (hij : i ≠ j) (f : ℕ → ZMod prime) :
    ∏ k ∈ (Finset.range (j + 1)).erase i, f k = (∏ k ∈ (Finset.range j).erase i, f k) * f j := by
  have hj : j ∉ (Finset.range j).erase i := fun h => Finset.notMem_range_self (Finset.mem_of_mem_erase h)
  rw [Finset.range_add_one, Finset.erase_insert_of_ne (Ne.symm hij), Finset.prod_insert hj, mul_comm]

/-- The inner loop multiplies up the nodes and the differences of all shares but one. -/
theorem lagrangeStep_eq (hi : i < shares.length) (hj : j < shares.length) :
    lagrangeStep o shares i ((∏ k ∈ (Finset.range j).erase i, node shares k).val,
        (∏ k ∈ (Finset.range j).erase i, (node shares k - node shares i)).val) j =
      .ok ((∏ k ∈ (Finset.range (j + 1)).erase i, node shares k).val,
        (∏ k ∈ (Finset.range (j + 1)).erase i, (node shares k - node shares i)).val) := by
  by_cases hij : i = j
  · subst hij
    rw [lagrangeStep, if_neg (not_not.2 rfl), erase_range_succ_self]
  · rw [lagrangeStep, if_pos hij, read_share hi, read_share hj]
    simp only [ok_bind, ctReduce_uint32]
    rw [mul_val, ok_bind, sub_val, ok_bind, mul_val, ok_bind, prod_erase_range_succ hij,
      prod_erase_range_succ hij]
    rfl

theorem lagrangeAt_eq (hi : i < d + 1) (hlen : d + 1 ≤ shares.length) : lagrangeAt o shares d i =
      if ∏ k ∈ (Finset.range (d + 1)).erase i, (node shares k - node shares i) = 0
      then .error (.invalidArgument "duplicate input share")
      else .ok (weightAtZero (Finset.range (d + 1)) (node shares) i).val := by
  let g : ℕ → ℕ × ℕ := fun j => ((∏ k ∈ (Finset.range j).erase i, node shares k).val,
    (∏ k ∈ (Finset.range j).erase i, (node shares k - node shares i)).val)
  have hstart : (1, 1) = g 0 := by
    simp only [g, Finset.range_zero, Finset.erase_empty, Finset.prod_empty]
    rw [ZMod.val_one prime]
  have hloop : (List.range (d + 1)).foldlM (lagrangeStep o shares i) (g 0) = .ok (g (d + 1)) :=
    foldlM_range g (d + 1) fun j hj => lagrangeStep_eq (by omega) (by omega)
  rw [lagrangeAt, hstart, hloop, ok_bind]
  simp only [g, ZMod.val_eq_zero]
  split_ifs with hzero
  · rfl
  · rw [inv_val _ hzero]
    show mul o _ _ = _
    rw [mul_val]
    rfl

/-- Two of the first shares stand for one point. -/
def Duplicate (shares : List Share) (n : ℕ) : Prop :=
  ∃ i < n, ∃ j < n, i ≠ j ∧ (shares.getD i {}).x.toNat ≡ (shares.getD j {}).x.toNat [MOD prime]

theorem node_eq_iff : node shares i = node shares j ↔
    (shares.getD i {}).x.toNat ≡ (shares.getD j {}).x.toNat [MOD prime] :=
  ZMod.natCast_eq_natCast_iff _ _ _

theorem prod_eq_zero_iff : ∏ k ∈ (Finset.range n).erase i, (node shares k - node shares i) = 0 ↔
      ∃ j < n, j ≠ i ∧ (shares.getD j {}).x.toNat ≡ (shares.getD i {}).x.toNat [MOD prime] := by
  rw [prod_sub_eq_zero_iff]
  simp only [Finset.mem_range, node_eq_iff]

theorem interpolate_eq (hlen : d + 1 ≤ shares.length) : (List.range (d + 1)).foldlM
        (interpolateStep o shares ((List.range (d + 1)).map fun i => (w i).val) l) 0 =
      .ok (∑ i ∈ Finset.range (d + 1), w i * value shares l i).val := by
  let g : ℕ → ℕ := fun j => (∑ i ∈ Finset.range j, w i * value shares l i).val
  have hstart : 0 = g 0 := by
    simp only [g, Finset.range_zero, Finset.sum_empty, ZMod.val_zero]
  refine foldlM_range g (d + 1) fun j hj => ?_
  have hweight : read ((List.range (d + 1)).map fun i => (w i).val) j = .ok (w j).val := by
    refine read_eq ?_
    rw [getElem?_map, getElem?_range hj]
    rfl
  simp only [interpolateStep, g]
  rw [hweight, read_share (by omega)]
  simp only [ok_bind, ctReduce_uint32]
  rw [mul_val, ok_bind, add_val, Finset.sum_range_succ]
  rfl

theorem recoverLimb_eq (hlen : d + 1 ≤ shares.length) (y : Fin limbs → UInt32)
    (l : Fin limbs) (hy : y l = UInt32.ofNat (∑ i ∈ Finset.range (d + 1), w i * value shares l i).val) :
    recoverLimb o shares ((List.range (d + 1)).map fun i => (w i).val) d { x := 0, y := upto l y } l =
      .ok { x := 0, y := upto (l + 1) y } := by
  rw [recoverLimb, interpolate_eq hlen, ok_bind, narrow_eq (ZMod.val_lt _), ok_bind, ← hy, update_upto]

theorem recover_unfold (hd : d + 1 < 2 ^ 64) (hlen : d + 1 ≤ shares.length) :
    recoverUnauthenticatedSecret o shares (d + 1) =
      ((List.range (d + 1)).mapM (lagrangeAt o shares d) >>= fun lagrange =>
        (List.finRange limbs).foldlM (recoverLimb o shares lagrange d) {}) := by
  rw [recoverUnauthenticatedSecret, if_neg (by omega)]
  show (wordSub o (d + 1) 1 >>= _) = _
  rw [wordSub_eq hd (by omega), ok_bind, Nat.add_sub_cancel]

/-- **What is recovered**: the interpolation at zero, limb by limb, of the first shares. -/
theorem recover_eq (hd : d + 1 < 2 ^ 64) (hlen : d + 1 ≤ shares.length) (hdup : ¬Duplicate shares (d + 1)) :
    recoverUnauthenticatedSecret o shares (d + 1) =
      .ok { x := 0, y := fun l => UInt32.ofNat (∑ i ∈ Finset.range (d + 1),
        weightAtZero (Finset.range (d + 1)) (node shares) i * value shares l i).val } := by
  have hlagrange : (List.range (d + 1)).mapM (lagrangeAt o shares d) = .ok ((List.range (d + 1)).map
      fun i => (weightAtZero (Finset.range (d + 1)) (node shares) i).val) := by
    refine mapM_ok fun i hi => ?_
    have hlt := mem_range.1 hi
    rw [lagrangeAt_eq hlt hlen, if_neg]
    rw [prod_eq_zero_iff]
    rintro ⟨j, hj, hne, hmod⟩
    exact hdup ⟨j, hj, i, hlt, hne, hmod⟩
  rw [recover_unfold hd hlen, hlagrange, ok_bind]
  let y : Fin limbs → UInt32 := fun l => UInt32.ofNat (∑ i ∈ Finset.range (d + 1),
    weightAtZero (Finset.range (d + 1)) (node shares) i * value shares l i).val
  obtain ⟨rawSecret, hloop, hlast⟩ : ∃ rawSecret, (List.finRange limbs).foldlM
      (recoverLimb o shares ((List.range (d + 1)).map fun i =>
        (weightAtZero (Finset.range (d + 1)) (node shares) i).val) d) {} = .ok rawSecret ∧
      rawSecret = { x := 0, y := upto limbs y } := by
    refine foldlM_finRange (fun i (rawSecret : Share) => rawSecret = { x := 0, y := upto i y }) ?_ ?_
    · rw [upto_zero]
    · rintro l _ rfl
      exact ⟨_, recoverLimb_eq hlen y l rfl, rfl⟩
  rw [hloop, hlast, upto_limbs]

theorem recover_insufficient (hlen : shares.length < t) :
    recoverUnauthenticatedSecret o shares t = .error (.invalidArgument "insufficient input shares") := by
  rw [recoverUnauthenticatedSecret, if_pos hlen]
  rfl

theorem recover_duplicate (hd : d + 1 < 2 ^ 64) (hlen : d + 1 ≤ shares.length) (hdup : Duplicate shares (d + 1)) :
    recoverUnauthenticatedSecret o shares (d + 1) = .error (.invalidArgument "duplicate input share") := by
  have hlagrange : (List.range (d + 1)).mapM (lagrangeAt o shares d) =
      .error (.invalidArgument "duplicate input share") := by
    refine mapM_error (fun i hi => ?_) ?_
    · rw [lagrangeAt_eq (mem_range.1 hi) hlen]
      split_ifs with hzero
      · exact .inr rfl
      · exact .inl ⟨_, rfl⟩
    · obtain ⟨j, hj, i, hi, hne, hmod⟩ := hdup
      refine ⟨i, mem_range.2 hi, ?_⟩
      rw [lagrangeAt_eq hi hlen, if_pos (prod_eq_zero_iff.2 ⟨j, hj, hne, hmod⟩)]
  rw [recover_unfold hd hlen, hlagrange, error_bind]

end recovery

/-! ### The round trip -/

section roundTrip

variable {P : Fin limbs → Fin (d + 1) → ZMod prime}

theorem toNat_shareOf (hs : s + 1 < prime) : (shareOf P s).x.toNat = s + 1 := toNat_ofNat hs

variable {picked : List Share} {i : ℕ}

theorem getD_picked (extra : List Share)
    (hi : i < picked.length) (hmem : picked ⊆ (List.range n).map (shareOf P)) :
    (picked ++ extra).getD i {} = picked[i] ∧ ∃ s < n, picked[i] = shareOf P s := by
  refine ⟨?_, ?_⟩
  · rw [getD_append _ _ _ _ hi, getD_eq_getElem _ _ hi]
  · obtain ⟨s, hs, heq⟩ := mem_map.1 (hmem (getElem_mem hi))
    exact ⟨s, mem_range.1 hs, heq.symm⟩

/-- Shares of one choice of polynomials with distinct indices stand for distinct points. -/
theorem not_duplicate_of_nodup (hn : n < prime) (extra : List Share) (hlen : picked.length = d + 1)
    (hmem : picked ⊆ (List.range n).map (shareOf P)) (hnodup : (picked.map Share.x).Nodup) :
    ¬Duplicate (picked ++ extra) (d + 1) := by
  rintro ⟨i, hi, j, hj, hne, hmod⟩
  rw [← hlen] at hi hj
  obtain ⟨hgeti, s, hs, hsi⟩ := getD_picked extra hi hmem
  obtain ⟨hgetj, r, hr, hrj⟩ := getD_picked extra hj hmem
  rw [hgeti, hgetj, hsi, hrj, toNat_shareOf (by omega), toNat_shareOf (by omega)] at hmod
  have hsr : s + 1 = r + 1 := Nat.ModEq.eq_of_lt_of_lt hmod (by omega) (by omega)
  obtain rfl : s = r := by omega
  have hx : (picked.map Share.x)[i]? = (picked.map Share.x)[j]? := by
    rw [getElem?_map, getElem?_map, getElem?_eq_getElem hi, getElem?_eq_getElem hj,
      hsi, hrj]
  exact hne ((getElem?_inj (by rwa [length_map]) hnodup).1 hx)

theorem recover_shares (hd : d + 1 ≤ n) (hn : n < prime) {extra : List Share} (hlen : picked.length = d + 1)
    (hmem : picked ⊆ (List.range n).map (shareOf P)) (hnodup : (picked.map Share.x).Nodup) :
    recoverUnauthenticatedSecret o (picked ++ extra) (d + 1) = .ok (secretOf P) := by
  have hp := prime_eq
  have hdup := not_duplicate_of_nodup hn extra hlen hmem hnodup
  have hvalue : ∀ l, ∀ i ∈ Finset.range (d + 1),
      value (picked ++ extra) l i = evalAt (P l) (node (picked ++ extra) i) := by
    intro l i hi
    have hlt : i < picked.length := hlen ▸ Finset.mem_range.1 hi
    obtain ⟨hget, s, hs, heq⟩ := getD_picked extra hlt hmem
    rw [value, node, hget, heq, toNat_shareOf (by omega)]
    show (((UInt32.ofNat (evalAt (P l) _).val).toNat : ℕ) : ZMod prime) = _
    rw [toNat_ofNat (ZMod.val_lt _), ZMod.natCast_zmod_val]
  have hinj : Set.InjOn (node (picked ++ extra)) (Finset.range (d + 1)) := by
    intro i hi j hj heq
    by_contra hne
    exact hdup ⟨i, Finset.mem_range.1 hi, j, Finset.mem_range.1 hj, hne, node_eq_iff.1 heq⟩
  rw [recover_eq (by omega) (by rw [length_append]; omega) hdup]
  have hsum : ∀ l, ∑ i ∈ Finset.range (d + 1), weightAtZero (Finset.range (d + 1)) (node (picked ++ extra)) i *
      value (picked ++ extra) l i = P l 0 := by
    intro l
    rw [Finset.sum_congr rfl fun i hi => by rw [hvalue l i hi],
      sum_weightAtZero (P l) _ _ hinj (Finset.card_range _)]
  simp only [hsum]
  rfl

theorem accepted_drawn (P : Fin limbs → Fin n → ZMod prime) : accepted (drawn P) = drawn P := by
  have hmem : ∀ a ∈ drawn P, a < prime := by
    intro a ha
    obtain ⟨_, hp, hk⟩ := mem_flatten.1 ha
    obtain ⟨l, -, rfl⟩ := mem_map.1 hp
    obtain ⟨k, rfl⟩ := mem_ofFn.1 hk
    exact ZMod.val_lt _
  have hmask : ∀ a ∈ drawn P, a &&& prime = a := by
    intro a ha
    have hlt := hmem a ha
    have hp := prime_eq
    rw [show prime = 2 ^ 31 - 1 from prime_eq, Nat.and_two_pow_sub_one_eq_mod, Nat.mod_eq_of_lt (by omega)]
  rw [accepted, map_congr_left hmask, map_id', filter_eq_self]
  exact fun a ha => decide_eq_true (hmem a ha).ne

/-- Enough accepted words are the coefficients of a choice of polynomials. -/
theorem exists_drawn (h : limbs * n ≤ (accepted entropy).length) :
    ∃ (P : Fin limbs → Fin n → ZMod prime) (q : List ℕ), accepted entropy = drawn P ++ q := by
  let f : Fin (limbs * n) → ℕ := fun i => (accepted entropy)[i.val]
  have htake : (accepted entropy).take (limbs * n) = List.ofFn f := by
    refine ext_getElem ?_ fun i hi _ => ?_
    · rw [length_take, length_ofFn]
      omega
    · rw [List.getElem_take, List.getElem_ofFn]
  have hval : ∀ i, ((f i : ℕ) : ZMod prime).val = f i := fun i => by
    rw [ZMod.val_natCast, Nat.mod_eq_of_lt (accepted_lt (getElem_mem _))]
  refine ⟨fun l k => ((f (finProdFinEquiv (l, k)) : ℕ) : ZMod prime), (accepted entropy).drop (limbs * n), ?_⟩
  rw [drawn, ← ofFn_eq_map]
  simp only [coefficients, hval]
  have hgroups : List.ofFn f =
      (List.ofFn fun l : Fin limbs => List.ofFn fun k : Fin n => f (finProdFinEquiv (l, k))).flatten := by
    rw [ofFn_mul]
    congr 2
    funext l
    congr 1
    funext k
    congr 1
    refine Fin.ext ?_
    show l.val * n + k.val = k.val + n * l.val
    rw [add_comm, mul_comm]
  rw [← hgroups, ← htake, take_append_drop]

/-- **The round trip of secret sharing**, in both readings of the arithmetic, so that no word overflows: any `t`
shares with distinct indices give the sampled secret back, every choice of coefficients can be drawn, and recovery
throws exactly on fewer than `t` shares or two of the first `t` for one point. -/
theorem secret_of_any_threshold_shares (o : Overflow) (n t : ℕ) (ht : 1 ≤ t) (htn : t ≤ n)
    (hn : n < 2 ^ 31 - 1) :
    (∀ entropy, limbs * t ≤ (accepted entropy).length → ∃ rawSecret shares rest,
      sampleSecretAndShares o entropy n t = .ok (rawSecret, shares, rest) ∧ shares.length = n ∧
      ∀ picked extra : List Share, picked.length = t → picked ⊆ shares → (picked.map Share.x).Nodup →
        recoverUnauthenticatedSecret o (picked ++ extra) t = .ok rawSecret) ∧
    (∀ P : Fin limbs → Fin t → ZMod prime, ∃ rawSecret shares rest,
      sampleSecretAndShares o (drawn P) n t = .ok (rawSecret, shares, rest) ∧
      ∀ l, (rawSecret.y l).toNat = (P l ⟨0, ht⟩).val) ∧
    (∀ shares : List Share,
      (shares.length < t → recoverUnauthenticatedSecret o shares t =
        .error (.invalidArgument "insufficient input shares")) ∧
      (t ≤ shares.length → Duplicate shares t → recoverUnauthenticatedSecret o shares t =
        .error (.invalidArgument "duplicate input share")) ∧
      (t ≤ shares.length → ¬Duplicate shares t →
        ∃ rawSecret, recoverUnauthenticatedSecret o shares t = .ok rawSecret)) ∧
    ∀ x < 2 ^ 64, ctReduce o x = .ok (x % (2 ^ 31 - 1)) := by
  have hp := prime_eq
  obtain ⟨d, rfl⟩ : ∃ d, t = d + 1 := ⟨t - 1, by omega⟩
  refine ⟨fun entropy hentropy => ?_, fun P => ?_, fun shares => ⟨?_, ?_, ?_⟩, fun x hx => ?_⟩
  · obtain ⟨P, q, hdrawn⟩ := exists_drawn hentropy
    obtain ⟨rest, hsample⟩ := sampleSecretAndShares_eq (o := o) htn (by omega) hdrawn
    refine ⟨_, _, rest, hsample, by rw [length_map, length_range], ?_⟩
    intro picked extra hlen hmem hnodup
    exact recover_shares htn (by omega) hlen hmem hnodup
  · obtain ⟨rest, hsample⟩ := sampleSecretAndShares_eq (o := o) htn (by omega)
      ((accepted_drawn P).trans (append_nil _).symm)
    exact ⟨_, _, rest, hsample, fun l => toNat_ofNat (ZMod.val_lt _)⟩
  · exact recover_insufficient
  · exact recover_duplicate (by omega)
  · intro hlen hdup
    exact ⟨_, recover_eq (by omega) hlen hdup⟩
  · exact ctReduce_mod hx

theorem secret_of_two_of_three_shares :
    (1 ≤ 2 ∧ 2 ≤ 3 ∧ 3 < 2 ^ 31 - 1) ∧ ∃ rawSecret shares rest,
      sampleSecretAndShares .traps (List.replicate 20 5) 3 2 = .ok (rawSecret, shares, rest) ∧
      shares.length = 3 ∧
      ∀ picked extra : List Share, picked.length = 2 → picked ⊆ shares → (picked.map Share.x).Nodup →
        recoverUnauthenticatedSecret .traps (picked ++ extra) 2 = .ok rawSecret :=
  ⟨by decide, (secret_of_any_threshold_shares .traps 3 2 (by decide) (by decide) (by decide)).1 _ (by decide)⟩

end roundTrip

/-! ### Fewer shares than the threshold -/

/-- The values of the shares with numbers in `S`, when the limbs of the secret are drawn as `secret` and
the other coefficients as `c`. -/
def seen (o : Overflow) (n t : ℕ) (S : Finset (Fin n)) (secret : Fin limbs → ZMod prime)
    (c : Fin limbs → Fin (t - 1) → ZMod prime) : Option (S → Fin limbs → ℕ) :=
  let P : Fin limbs → Fin (t - 1 + 1) → ZMod prime := fun l => Fin.cons (secret l) (c l)
  match sampleSecretAndShares o (drawn P) n t with
  | .ok (_, shares, _) => some fun i l => ((shares.getD i.val {}).y l).toNat
  | .error _ => none

section secrecy

variable {t : ℕ} {S : Finset (Fin n)}

/-- The point of share number `i`. -/
def point (i : Fin n) : ZMod prime := ((i.val + 1 : ℕ) : ZMod prime)

/-- What the coalition sees, as elements of the field. -/
def seenValues (S : Finset (Fin n)) (secret : Fin limbs → ZMod prime) (c : Fin limbs → Fin (t - 1) → ZMod prime) :
    S → Fin limbs → ZMod prime :=
  fun i l => evalAt (Fin.cons (secret l) (c l) : Fin (t - 1 + 1) → ZMod prime) (point i.val)

theorem seen_eq (ht : 1 ≤ t) (htn : t ≤ n) (hn : n < prime) (secret : Fin limbs → ZMod prime)
    (c : Fin limbs → Fin (t - 1) → ZMod prime) :
    seen o n t S secret c = some fun i l => (seenValues S secret c i l).val := by
  obtain ⟨d, rfl⟩ : ∃ d, t = d + 1 := ⟨t - 1, by omega⟩
  let P : Fin limbs → Fin (d + 1) → ZMod prime := fun l => Fin.cons (secret l) (c l)
  obtain ⟨rest, hsample⟩ := sampleSecretAndShares_eq (o := o) htn hn
    ((accepted_drawn P).trans (List.append_nil _).symm)
  have hseen : seen o n (d + 1) S secret c =
      some fun i l => ((((List.range n).map (shareOf P)).getD i.val {}).y l).toNat := by
    simp only [seen]
    rw [hsample]
  rw [hseen]
  congr 1
  funext i l
  have hi : i.val.val < ((List.range n).map (shareOf P)).length := by
    rw [List.length_map, List.length_range]
    exact i.val.isLt
  rw [List.getD_eq_getElem _ _ hi, List.getElem_map, List.getElem_range]
  exact toNat_ofNat (ZMod.val_lt _)

variable (hn : n < prime)
include hn

theorem point_injective : Function.Injective (point (n := n)) := by
  intro i j hij
  have hmod := (ZMod.natCast_eq_natCast_iff _ _ _).1 hij
  have heq := Nat.ModEq.eq_of_lt_of_lt hmod (by omega) (by omega)
  exact Fin.ext (by omega)

theorem point_ne_zero (i : Fin n) : point i ≠ 0 := by
  intro hzero
  have hdvd := (ZMod.natCast_eq_zero_iff _ _).1 hzero
  have hle := Nat.le_of_dvd (Nat.succ_pos _) hdvd
  omega

/-- One limb: each tuple of values fits every constant term through one choice of the rest. -/
theorem existsUnique_limb (hS : S.card = t - 1) (s : ZMod prime) (r : S → ZMod prime) :
    ∃! c : Fin (t - 1) → ZMod prime, ∀ i : S,
      evalAt (Fin.cons s c : Fin (t - 1 + 1) → ZMod prime) (point i.val) = r i := by
  let e : S ≃ Fin (t - 1) := S.equivFinOfCardEq hS
  obtain ⟨c, hc, hunique⟩ := existsUnique_coefficients (fun k => point (e.symm k).val)
    (fun i j hij => e.symm.injective (Subtype.ext (point_injective hn hij)))
    (fun k => point_ne_zero hn _) s fun k => r (e.symm k)
  refine ⟨c, fun i => ?_, fun c' hc' => hunique c' fun k => hc' (e.symm k)⟩
  have hi := hc (e i)
  simp only [Equiv.symm_apply_apply] at hi
  exact hi

theorem seenValues_bijective (hS : S.card = t - 1) (secret : Fin limbs → ZMod prime) :
    Function.Bijective (seenValues (t := t) S secret) := by
  rw [Function.bijective_iff_existsUnique]
  intro r
  obtain ⟨f, hf⟩ := forall_existsUnique_iff.1 fun l =>
    existsUnique_limb hn hS (secret l) fun i => r i l
  refine ⟨f, ?_, fun c hc => ?_⟩
  · funext i l
    exact hf.2 rfl i
  · funext l
    refine (hf.1 fun i => ?_).symm
    exact congrFun (congrFun hc i) l

omit hn

/-- **Fewer shares than the threshold hide the secret**: over all choices of the other coefficients the values of `t -
1` shares are seen equally often for any two secrets. -/
theorem shares_below_threshold_hide_secret (o : Overflow) (n t : ℕ) (ht : 1 ≤ t) (htn : t ≤ n)
    (hn : n < 2 ^ 31 - 1) (S : Finset (Fin n)) (hS : S.card = t - 1) :
    (∀ (secret : Fin limbs → ZMod prime) (r : S → Fin limbs → ZMod prime),
      ∃! c : Fin limbs → Fin (t - 1) → ZMod prime, seen o n t S secret c = some fun i l => (r i l).val) ∧
    ∀ secret secret' : Fin limbs → ZMod prime,
      (Finset.univ.val.map (seen o n t S secret)) = Finset.univ.val.map (seen o n t S secret') := by
  have hp : n < prime := by
    have := prime_eq
    omega
  have hinj : ∀ r r' : S → Fin limbs → ZMod prime,
      ((fun i l => (r i l).val) : S → Fin limbs → ℕ) = (fun i l => (r' i l).val) → r = r' := by
    intro r r' h
    funext i l
    exact ZMod.val_injective prime (congrFun (congrFun h i) l)
  have hsame : ∀ secret : Fin limbs → ZMod prime, Finset.univ.val.map (seen o n t S secret) =
      Finset.univ.val.map fun r : S → Fin limbs → ZMod prime => some fun i l => (r i l).val := by
    intro secret
    let e := Equiv.ofBijective _ (seenValues_bijective (t := t) hp hS secret)
    rw [← Multiset.map_univ_val_equiv e, Multiset.map_map]
    refine Multiset.map_congr rfl fun c _ => ?_
    exact seen_eq ht htn hp secret c
  refine ⟨fun secret r => ?_, fun secret secret' => ?_⟩
  · obtain ⟨c, hc, hunique⟩ := (seenValues_bijective (t := t) hp hS secret).existsUnique r
    refine ⟨c, ?_, fun c' hc' => hunique c' (hinj _ _ ?_)⟩
    · simp only [seen_eq ht htn hp, hc]
    · simp only [seen_eq ht htn hp] at hc'
      exact Option.some.inj hc'
  · rw [hsame secret, hsame secret']

/-- One share of two, of a secret shared with threshold two. -/
theorem one_share_of_two_hides_secret :
    (1 ≤ 2 ∧ 2 ≤ 2 ∧ 2 < 2 ^ 31 - 1 ∧ ({0} : Finset (Fin 2)).card = 2 - 1) ∧
    ∀ secret secret' : Fin limbs → ZMod prime,
      Finset.univ.val.map (seen .wraps 2 2 {0} secret) = Finset.univ.val.map (seen .wraps 2 2 {0} secret') :=
  ⟨by decide, (shares_below_threshold_hide_secret .wraps 2 2 (by decide) (by decide) (by decide) {0} rfl).2⟩

end secrecy

end Ccf.Crypto.Sharing
