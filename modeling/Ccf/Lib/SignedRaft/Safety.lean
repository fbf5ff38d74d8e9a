import Ccf.Lib.SignedRaft.System

/-! # Leader completeness, election safety and state machine safety

A candidate with enough support (`Cert`) has all that was committed in earlier terms, whether it is elected or not. By
induction on its term, all leaders between the commit and the candidacy have what was committed; a node that
acknowledged the commit and supports the candidate had it when it did so; and the candidate is at least as far.

Commit and candidacy may have been counted in different configurations. The commit indices `base` of the leader and of
the candidate are both committed, so the two logs agree up to the larger one, and both counted the configuration
there. -/

namespace Ccf.SignedRaft

open List

variable {ι ε : Type*} [DecidableEq ι] {P : Proto ι ε} {m : Mode ι} {s : Sys ι ε} {ℓ : List ε} {i j b : ℕ}

open Proto

omit [DecidableEq ι] in
/-- The terms of a coherent log increase. -/
theorem LogInv.termAt_mono (h : LogInv P s) (hℓ : P.Coherent s.tl ℓ) (hij : i ≤ j)
    (hj : j ≤ ℓ.length) : P.termAt ℓ i ≤ P.termAt ℓ j := by
  rcases Nat.eq_zero_or_pos j with rfl | hpos
  · rw [Nat.le_zero.1 hij]
  · have hp := hℓ j hpos hj
    have hi : i ≤ (ℓ.take j).length := by rw [length_take]; omega
    rw [← termAt_take hij, ← termAt_of_isPrefix hp hi]
    exact termAt_le (h.tl_le _) i

omit [DecidableEq ι] in
/-- Logs that are long enough start with the genesis log. -/
theorem LogInv.genesis_of_le_length (h : LogInv P s) (hℓ : P.Coherent s.tl ℓ)
    (hb : ∀ e ∈ ℓ, P.term e ≤ b) (hlen : P.genesis.length ≤ ℓ.length) : P.first ≤ b ∧ P.genesis <+: ℓ := by
  have hpos := P.genesis_pos.trans_le hlen
  have hp := hℓ ℓ.length hpos le_rfl
  rw [take_length] at hp
  have hne : s.leader (P.termAt ℓ ℓ.length) ≠ none := by
    intro hnone
    rw [h.tl_none _ hnone, prefix_nil] at hp
    simp [hp] at hpos
  obtain ⟨L, hL⟩ := Option.ne_none_iff_exists'.1 hne
  exact ⟨(h.first_le _ _ hL).trans (termAt_le hb _),
    prefix_of_prefix_length_le (h.tl_genesis _ _ hL) hp hlen⟩

/-- A candidate with a quorum of votes. -/
structure Cert (P : Proto ι ε) (s : Sys ι ε) (c : Cand ι ε) (S : Finset ι) : Prop where
  mem : c ∈ s.cands
  supports : s.Supports c.term c.node S
  quorate : P.Quorate c.log c.commit S

namespace Inv

variable {e : Event ι} {T : ℕ} (h : Inv P m s) {q X : ι}
include h

theorem length_committed (he : e ∈ s.events) : (s.committed e).length = e.idx := by
  obtain ⟨-, -, hlast, hlen, -⟩ := h.event_bounds e he
  rw [Sys.committed, length_take]
  omega

theorem sigAt_committed (he : e ∈ s.events) (hp : s.committed e <+: ℓ) :
    P.SigAt ℓ e.idx ∧ P.termAt ℓ e.idx = e.term := by
  obtain ⟨-, -, -, -, hsig, hterm⟩ := h.event_bounds e he
  have hlen := h.length_committed he
  rw [sigAt_of_isPrefix hp hlen.ge, termAt_of_isPrefix hp hlen.ge, Sys.committed, sigAt_take le_rfl, termAt_take le_rfl]
  exact ⟨hsig, hterm⟩

theorem leader_of_length (hlen : 0 < (s.tl T).length) : s.leader T ≠ none := by
  intro hnone
  rw [h.tl_none T hnone] at hlen
  exact absurd hlen (by simp)

theorem leader_of_event (he : e ∈ s.events) : s.leader e.term ≠ none := by
  obtain ⟨-, -, -, -, hsig, -⟩ := h.event_bounds e he
  exact h.leader_of_length (hsig.pos.trans_le hsig.le_length)

omit h

section

variable (hstrict : m.strict) {c : Cand ι ε} {S : Finset ι} (hcert : Cert P s c S)
  (hheld : ∀ e ∈ s.events, e.term < c.term → s.HeldBetween (s.committed e) e.term c.term)

include h hstrict hcert hheld

/-- What the candidate has committed and what a leader has committed are both in one log. -/
theorem exists_common_log (he : e ∈ s.events) (hlt : e.term < c.term) :
    ∃ ℓ, c.log.take c.commit <+: ℓ ∧ s.committed e <+: ℓ := by
  obtain ⟨e₁, he₁, hlt₁, hp⟩ := h.cand_proven hstrict c hcert.mem
  rcases lt_trichotomy e₁.term e.term with hcase | hcase | hcase
  · refine ⟨s.tl e.term, hp.trans ?_, take_prefix _ _⟩
    exact hheld e₁ he₁ hlt₁ e.term hcase hlt (h.leader_of_event he)
  · refine ⟨s.tl e.term, ?_, take_prefix _ _⟩
    rw [← hcase]
    exact hp.trans ( take_prefix _ _)
  · refine ⟨s.tl e₁.term, hp.trans ( take_prefix _ _), ?_⟩
    exact hheld e he hlt e₁.term hcase hlt₁ (h.leader_of_event he₁)

omit hstrict in
/-- A node that acknowledged the commit and supports the candidate carries the commit to it. -/
theorem carry (he : e ∈ s.events) (hlt : e.term < c.term)
    (hother : ∀ L, s.leader c.term = some L → L ≠ c.node → s.committed e <+: s.tl c.term)
    (hq : q ∈ e.quorum) (hS : q ∈ S) : s.committed e <+: c.log.take (P.lastSig c.log) := by
  obtain ⟨-, -, -, -, hsig, -⟩ := h.event_bounds e he
  obtain ⟨a, ha, hnode, hterm, hidx⟩ := h.event_acks e he q hq
  have hlen := h.length_committed he
  have hcommitted : s.committed e = (s.tl a.term).take e.idx := by rw [Sys.committed, hterm]
  have hheld' := hheld e he hlt
  rw [hcommitted] at hheld' hother
  rcases hcert.supports q hS with rfl | ⟨vt, hvt, hvterm, hvoter, hvnode⟩
  · -- the candidate itself
    have hkept := h.cand_kept c hcert.mem a ha hnode (by omega) e.idx hidx (by rw [hterm]; exact hsig)
      (by rw [hterm] at hheld' ⊢; exact hheld')
    rw [← hcommitted] at hkept
    have hle := (h.sigAt_committed he hkept).1.le_lastSig
    exact prefix_take_iff.2 ⟨hkept, by omega⟩
  · have hkept := h.vote_kept vt hvt a ha (by rw [hnode, hvoter]) (by omega) e.idx hidx (by rw [hterm]; exact hsig)
      (by rw [hterm] at hheld' ⊢; rw [hvterm]; exact hheld') (by rw [hvterm, hvnode]; exact hother)
    rw [← hcommitted] at hkept
    obtain ⟨hvsig, hvt_term⟩ := h.sigAt_committed he hkept
    obtain ⟨-, c', hc', hct, hcn, hup⟩ := h.vote_cand vt hvt
    obtain rfl : c' = c := h.cand_unique c' hc' c hcert.mem (hct.trans hvterm) (hcn.trans hvnode)
    -- the voter's last signature is not before the commit
    have hvlast := hvsig.le_lastSig
    have hvmono := h.termAt_mono (h.vote_coherent vt hvt) hvlast (lastSig_le _)
    have hpos : 0 < P.lastSig c'.log := by
      rcases Nat.eq_zero_or_pos (P.lastSig c'.log) with h0 | hpos
      · have := hvsig.pos
        rcases hup with hup | ⟨-, hup⟩
        · rw [h0, termAt] at hup
          omega
        · omega
      · exact hpos
    have hcoh := h.cand_coherent c' hcert.mem _ hpos (lastSig_le _)
    obtain ⟨x, hx, hxt⟩ := termAt_mem (P := P) hpos (lastSig_le c'.log)
    have hxlt := h.cand_lt c' hcert.mem x hx
    rw [← hxt] at hxlt
    have hlenX : (c'.log.take (P.lastSig c'.log)).length = P.lastSig c'.log := by
      rw [length_take, min_eq_left (lastSig_le _)]
    rcases lt_or_ge e.term (P.termAt c'.log (P.lastSig c'.log)) with hgt | hge
    · -- the candidate's last signature is of a later leader, who has the commit
      have hin := hheld e he hlt _ hgt hxlt (h.leader_of_length (by have := hcoh.length_le; omega))
      refine prefix_of_prefix_length_le hin hcoh ?_
      by_contra hcon
      have hback : c'.log.take (P.lastSig c'.log) <+: s.committed e :=
        prefix_of_prefix_length_le hcoh hin (by omega)
      have hterms := termAt_le (P := P) (h.tl_le e.term) (P.lastSig c'.log)
      rw [termAt_of_isPrefix (hback.trans ( take_prefix _ _)) hlenX.ge, termAt_take le_rfl] at hterms
      omega
    · -- the candidate's last signature is of the term of the commit
      have heq : P.termAt c'.log (P.lastSig c'.log) = e.term := by
        rcases hup with hup | ⟨hup, -⟩ <;> omega
      have hle : P.lastSig vt.log ≤ P.lastSig c'.log := by
        rcases hup with hup | ⟨-, hup⟩ <;> omega
      rw [heq] at hcoh
      exact prefix_of_prefix_length_le ( take_prefix _ _) hcoh (by rw [hlen, hlenX]; omega)

/-- A candidate with enough support has what was committed before its term. -/
theorem committed_prefix_cert (hother : ∀ e ∈ s.events, e.term < c.term → ∀ L, s.leader c.term = some L → L ≠ c.node →
      s.committed e <+: s.tl c.term) (he : e ∈ s.events) (hlt : e.term < c.term) :
    s.committed e <+: c.log.take (P.lastSig c.log) := by
  -- induction on the event, earlier terms and then smaller indices first
  suffices main : ∀ T n, ∀ e ∈ s.events, e.term = T → e.idx = n → e.term < c.term →
      s.committed e <+: c.log.take (P.lastSig c.log) from main _ _ e he rfl rfl hlt
  intro T
  induction T using Nat.strong_induction_on with
  | _ T ihT =>
  intro n
  induction n using Nat.strong_induction_on with
  | _ n ihn =>
  intro e he hT hn hlt
  have hlen := h.length_committed he
  obtain ⟨hgen, hcommit⟩ := h.cand_commit c hcert.mem
  obtain ⟨hfirst, hbase, hlast, htl, hsig, -⟩ := h.event_bounds e he
  obtain ⟨ℓ, hcand, hevent⟩ := exists_common_log h hstrict hcert hheld he hlt
  have hlenc : (c.log.take c.commit).length = c.commit := by rw [length_take, min_eq_left hcommit]
  rcases lt_or_ge c.commit e.idx with hshort | hlong
  · -- a position whose configuration was counted by the leader and by the candidate
    have hcommon : ∃ j, e.base ≤ j ∧ j ≤ e.last ∧ c.commit ≤ j ∧ j ≤ c.log.length ∧
        (s.tl e.term).take j = c.log.take j := by
      have hback : c.log.take c.commit <+: s.committed e := prefix_of_prefix_length_le hcand hevent (by omega)
      rcases lt_or_ge c.commit e.base with hcb | hcb
      · rcases h.event_base hstrict e he with hb | ⟨e₀, he₀, hless, hp₀⟩
        · omega
        · have hin : s.committed e₀ <+: c.log.take (P.lastSig c.log) := by
            rcases hless with hless | ⟨hless, hidx⟩
            · exact ihT e₀.term (by omega) e₀.idx e₀ he₀ rfl rfl (by omega)
            · exact ihn e₀.idx (by omega) e₀ he₀ (by omega) rfl (by omega)
          have hpre : (s.tl e.term).take e.base <+: c.log := hp₀.trans (hin.trans ( take_prefix _ _))
          have hlenb : ((s.tl e.term).take e.base).length = e.base := by
            rw [length_take]
            omega
          have hle := hpre.length_le
          refine ⟨e.base, le_rfl, by omega, hcb.le, by omega, ?_⟩
          have := prefix_iff_eq_take.1 hpre
          rwa [hlenb] at this
      · refine ⟨c.commit, hcb, by omega, le_rfl, hcommit, ?_⟩
        have := prefix_iff_eq_take.1 (hback.trans ( take_prefix _ _))
        rw [hlenc] at this
        exact this.symm
    obtain ⟨j, hbj, hjl, hcj, hjc, hagree⟩ := hcommon
    have hmaj := h.event_quorate e he j hbj (by rw [length_take]; omega)
    rw [take_take, min_eq_left hjl, hagree] at hmaj
    obtain ⟨q, hq, hS⟩ := hmaj.exists_common (hcert.quorate j hcj hjc)
    exact carry h hcert hheld he hlt (hother e he hlt) hq hS
  · -- the candidate has committed it itself
    have hin : s.committed e <+: c.log := by
      have : s.committed e <+: c.log.take c.commit := prefix_of_prefix_length_le hevent hcand (by omega)
      exact this.trans ( take_prefix _ _)
    have hle := (h.sigAt_committed he hin).1.le_lastSig
    exact prefix_take_iff.2 ⟨hin, by omega⟩

end

/-- The election of a leader of a later term than the first. -/
theorem exists_cert (h : Inv P m s) (hl : s.leader T = some X) (hT : P.first < T) :
    ∃ c S, Cert P s c S ∧ c.term = T ∧ c.node = X ∧ c.log.take (P.lastSig c.log) <+: s.tl T := by
  rcases h.elected T X hl with rfl | ⟨c, hc, rfl, rfl, S, hsup, hq, hp⟩
  · omega
  · exact ⟨c, S, ⟨hc, hsup, hq⟩, rfl, rfl, hp⟩

section
variable (hstrict : m.strict) {c : Cand ι ε} {S : Finset ι} {e' : Event ι}
include h hstrict

/-- Leaders between a commit and a term have what was committed. -/
theorem heldBetween (T : ℕ) : ∀ e ∈ s.events, e.term < T → s.HeldBetween (s.committed e) e.term T := by
  induction T using Nat.strong_induction_on with
  | _ T ih =>
  intro e he hlt T' hT' hT'T hl
  obtain ⟨X, hX⟩ := Option.ne_none_iff_exists'.1 hl
  have hfirst := (h.event_bounds e he).1
  obtain ⟨c, S, hcert, rfl, rfl, hp⟩ := h.exists_cert hX (by omega)
  refine List.IsPrefix.trans ?_ hp
  refine committed_prefix_cert h hstrict hcert (ih c.term hT'T) ?_ he hT'
  intro e' _ _ L hL hne
  rw [hX, Option.some.injEq] at hL
  exact absurd hL.symm hne

/-- **Leader completeness.**  What was committed in a term is in the log of every leader of a later one. -/
theorem committed_prefix_leader (he : e ∈ s.events)
    (hX : s.leader T = some X) (hT : e.term < T) : s.committed e <+: s.tl T :=
  h.heldBetween hstrict (T + 1) e he (by omega) T hT (Nat.lt_succ_self T) (by simp [hX])

/-- **Leader completeness** for a candidate with enough support. -/
theorem committed_prefix_candidate (hcert : Cert P s c S) (he : e ∈ s.events) (hT : e.term < c.term) :
    s.committed e <+: c.log.take (P.lastSig c.log) :=
  committed_prefix_cert h hstrict hcert (h.heldBetween hstrict c.term)
    (fun _ he' hlt' _ hL _ => h.committed_prefix_leader hstrict he' hL hlt') he hT

/-- **Election safety.**  A candidate with enough support finds no one else elected in its term. -/
theorem leader_of_cert (hunique : m.unique)
    (hcert : Cert P s c S) {L : ι} (hL : s.leader c.term = some L) : L = c.node := by
  by_contra hne
  obtain ⟨e₁, he₁, hlt₁, hp₁⟩ := h.cand_proven hstrict c hcert.mem
  have hfirst := (h.event_bounds e₁ he₁).1
  obtain ⟨d, S', hcert', hdterm, rfl, -⟩ := h.exists_cert hL (by omega)
  obtain ⟨e₂, he₂, hlt₂, hp₂⟩ := h.cand_proven hstrict d hcert'.mem
  -- both candidates have what the other one has committed
  have hcd : c.log.take c.commit <+: d.log :=
    hp₁.trans ((h.committed_prefix_candidate hstrict hcert' he₁ (by omega)).trans ( take_prefix _ _))
  have hdc : d.log.take d.commit <+: c.log :=
    hp₂.trans ((h.committed_prefix_candidate hstrict hcert he₂ (by omega)).trans ( take_prefix _ _))
  have hclen := (h.cand_commit c hcert.mem).2
  have hdlen := (h.cand_commit d hcert'.mem).2
  have hcommon : ∃ j, c.commit ≤ j ∧ j ≤ c.log.length ∧ d.commit ≤ j ∧ j ≤ d.log.length ∧
      c.log.take j = d.log.take j := by
    rcases le_total c.commit d.commit with hle | hle
    · have heq := prefix_iff_eq_take.1 hdc
      have := hdc.length_le
      rw [length_take, min_eq_left hdlen] at heq this
      exact ⟨d.commit, hle, this, le_rfl, hdlen, heq.symm⟩
    · have heq := prefix_iff_eq_take.1 hcd
      have := hcd.length_le
      rw [length_take, min_eq_left hclen] at heq this
      exact ⟨c.commit, le_rfl, hclen, hle, this, heq⟩
  obtain ⟨j, hcj, hjc, hdj, hjd, hagree⟩ := hcommon
  have hmaj := hcert.quorate j hcj hjc
  rw [hagree] at hmaj
  obtain ⟨q, hq, hq'⟩ := hmaj.exists_common (hcert'.quorate j hdj hjd)
  -- a common supporter has voted twice
  rcases hcert.supports q hq with rfl | ⟨vt, hvt, hvterm, rfl, hvnode⟩
  · rcases hcert'.supports c.node hq' with heq | ⟨vt, hvt, hvterm, hvoter, hvnode⟩
    · exact hne heq.symm
    · obtain ⟨L', hL', -, hLn⟩ := h.unique_cand hunique vt hvt c hcert.mem (by omega) hvoter.symm
      rw [hvterm, hdterm, hL, Option.some.injEq] at hL'
      exact hLn (hL'.symm.trans hvnode.symm)
  · rcases hcert'.supports vt.voter hq' with heq | ⟨vt', hvt', hvterm', hvoter', hvnode'⟩
    · obtain ⟨L', hL', hLv, -⟩ := h.unique_cand hunique vt hvt d hcert'.mem (by omega) heq.symm
      rw [hvterm, hL, Option.some.injEq] at hL'
      exact hLv (hL'.symm.trans heq.symm)
    · have := h.unique_vote hunique vt hvt vt' hvt' (by omega) hvoter'.symm
      exact hne (hvnode'.symm.trans (this.symm.trans hvnode))

/-- **State machine safety.**  What two leaders have committed is one the beginning of the other. -/
theorem committed_total (he : e ∈ s.events)
    (he' : e' ∈ s.events) : s.committed e <+: s.committed e' ∨ s.committed e' <+: s.committed e := by
  have hin : ∀ e₁ ∈ s.events, ∀ e₂ ∈ s.events, e₁.term ≤ e₂.term → s.committed e₁ <+: s.tl e₂.term := by
    intro e₁ he₁ e₂ he₂ hle
    rcases eq_or_lt_of_le hle with heq | hlt
    · rw [← heq]
      exact take_prefix _ _
    · obtain ⟨X, hX⟩ := Option.ne_none_iff_exists'.1 (h.leader_of_event he₂)
      exact h.committed_prefix_leader hstrict he₁ hX hlt
  rcases le_total e.term e'.term with hle | hle
  · exact prefix_or_prefix_of_prefix (hin e he e' he' hle) ( take_prefix _ _)
  · exact prefix_or_prefix_of_prefix ( take_prefix _ _) (hin e' he' e he hle)

/-- Whoever has acknowledged a commit still has it. -/
theorem committed_prefix_log (he : e ∈ s.events) (hq : q ∈ e.quorum) : s.committed e <+: s.log q := by
  obtain ⟨a, ha, rfl, hterm, hidx⟩ := h.event_acks e he q hq
  obtain ⟨-, -, -, -, hsig, -⟩ := h.event_bounds e he
  have hview := (h.ack_le a ha).2
  have hheld := h.heldBetween hstrict (s.view a.node + 1) e he (by omega)
  rw [← hterm] at hsig
  rw [Sys.committed, ← hterm] at hheld ⊢
  exact h.ack_kept a ha e.idx hidx (.inr hsig) hheld

end

end Inv

end Ccf.SignedRaft
