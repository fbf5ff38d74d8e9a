import Ccf.Lib.SignedRaft.Growth

/-! # The invariants are preserved

For each step, the invariants of the record it adds and of the log it changes; the rest follows from
`Grows`. `Steps.inv` is the invariant rule for runs from the initial state `Proto.initial`. -/

namespace Ccf.SignedRaft

open Set List

variable {ι ε : Type*} [DecidableEq ι] {P : Proto ι ε} {m : Mode ι} {s s' : Sys ι ε}

open Function Proto

/-! ### One step -/

variable {q L : ι} {c : Cand ι ε} {p ℓ : List ε} {T j : ℕ} {s'' : Sys ι ε}

theorem Step.grows (h : Inv P m s) (hstep : Step P m q s s') : Grows P s s' := by
  cases hstep with
  | bump T hT =>
    refine .of_eq rfl rfl (fun q' => ?_) rfl subset_rfl subset_rfl subset_rfl
    by_cases hq : q' = q
    · subst hq
      simpa using hT
    · simp [hq]
  | candidate hcommit =>
    refine .of_eq rfl rfl (fun q' => ?_) rfl (subset_insert _ _) subset_rfl subset_rfl
    by_cases hq : q' = q
    · subst hq
      simp
    · simp [hq]
  | grant c => exact .of_eq rfl rfl (fun _ => le_rfl) rfl subset_rfl (subset_insert _ _) subset_rfl
  | elect S hc hsup hq hfree hcommit =>
    have hne : ∀ T, s.leader T ≠ none → T ≠ s.view q := fun T hT heq => hT (heq ▸ hfree)
    refine ⟨fun T L hL => ?_, fun T hT => ?_, fun T => ?_, fun _ => le_rfl, fun a ha => .inl ha, subset_rfl,
      subset_rfl, subset_rfl, subset_rfl⟩
    · have := hne T (by simp [hL])
      simp [this, hL]
    · simp [hne T hT]
    · by_cases hT : T = s.view q
      · subst hT
        rw [h.tl_none _ hfree]
        exact nil_prefix
      · simp [hT]
  | append e hl he =>
    refine ⟨fun T L hL => hL, fun T hT => ?_, fun T => ?_, fun _ => le_rfl, fun a ha => .inl ha, subset_rfl,
      subset_rfl, subset_rfl, subset_rfl⟩
    · by_cases hT : T = s.view q
      · subst hT
        exact .inr ⟨e, by simp, he⟩
      · simp [hT]
    · by_cases hT : T = s.view q
      · subst hT
        simp
      · simp [hT]
  | replace | commitFollower => exact .of_eq rfl rfl (fun _ => le_rfl) rfl subset_rfl subset_rfl subset_rfl
  | acked n hn hlog =>
    refine ⟨fun T L hL => hL, fun T _ => .inl rfl, fun T => prefix_rfl, fun _ => le_rfl, fun a ha => ?_,
      subset_insert _ _, subset_rfl, subset_rfl, subset_rfl⟩
    rcases mem_insert_iff.1 ha with rfl | ha
    · exact .inr le_rfl
    · exact .inl ha
  | commitLeader => exact .of_eq rfl rfl (fun _ => le_rfl) rfl subset_rfl subset_rfl (subset_insert _ _)

/-! ### Logs after one step -/

/-- The log of `q`, which is the leader's of its term, becomes `ℓ`. -/
theorem LogInv.lead (h : LogInv P s) (hgrow : ∀ T, s.tl T <+: update s.tl (s.view q) ℓ T)
    (hcoh : P.Coherent (update s.tl (s.view q) ℓ) ℓ) (hle : ∀ e ∈ ℓ, P.term e ≤ s.view q)
    (hboundary : ∀ n, 0 < n → n < ℓ.length → P.termAt ℓ n ≠ P.termAt ℓ (n + 1) → P.SigAt ℓ n)
    (hlast : ℓ ≠ [] → P.SigAt ℓ ℓ.length ∨ P.termAt ℓ ℓ.length = s.view q) (hfirst : P.first ≤ s.view q)
    (hgenesis : P.genesis <+: ℓ) :
    LogInv P { s with
      leader := update s.leader (s.view q) (some q)
      log := update s.log q ℓ
      tl := update s.tl (s.view q) ℓ } := by
  have hled : ∀ {T L}, update s.leader (s.view q) (some q) T = some L →
      T = s.view q ∧ L = q ∨ T ≠ s.view q ∧ s.leader T = some L := by
    intro T L hL
    by_cases hT : T = s.view q
    · subst hT
      exact .inl ⟨rfl, by simpa using hL.symm⟩
    · exact .inr ⟨hT, by simpa [hT] using hL⟩
  have hall : ∀ Q : ℕ → List ε → Prop, Q (s.view q) ℓ → (∀ T, Q T (s.tl T)) →
      ∀ T, Q T (update s.tl (s.view q) ℓ T) := fun Q hq hold =>
    (forall_update_iff s.tl Q).2 ⟨hq, fun T _ => hold T⟩
  exact {
    tl_none := by
      intro T hT
      have hne : T ≠ s.view q := by
        rintro rfl
        simp at hT
      show update s.tl _ _ T = []
      rw [update_of_ne hne]
      exact h.tl_none T (by simpa [hne] using hT)
    tl_coherent := hall (fun _ ℓ' => P.Coherent _ ℓ') hcoh fun T => (h.tl_coherent T).mono hgrow
    tl_le := hall (fun T ℓ => ∀ e ∈ ℓ, P.term e ≤ T) hle h.tl_le
    tl_boundary := hall (fun _ ℓ => ∀ n, 0 < n → n < ℓ.length →
      P.termAt ℓ n ≠ P.termAt ℓ (n + 1) → P.SigAt ℓ n) hboundary h.tl_boundary
    tl_last := hall (fun T ℓ => ℓ ≠ [] → P.SigAt ℓ ℓ.length ∨ P.termAt ℓ ℓ.length = T) hlast h.tl_last
    log_coherent := (forall_update_iff s.log fun _ ℓ' => P.Coherent _ ℓ').2
      ⟨hcoh, fun q' _ => (h.log_coherent q').mono hgrow⟩
    log_le := (forall_update_iff s.log fun q ℓ => ∀ e ∈ ℓ, P.term e ≤ s.view q).2
      ⟨hle, fun q' _ => h.log_le q'⟩
    leader_view := by
      intro T L hL
      rcases hled hL with ⟨rfl, rfl⟩ | ⟨-, hL⟩
      · exact le_rfl
      · exact h.leader_view T L hL
    leader_log := by
      intro L hL
      show update s.log _ _ L = update s.tl _ _ (s.view L)
      rcases hled hL with ⟨hT, rfl⟩ | ⟨hT, hL⟩
      · rw [update_self, update_self]
      · have hne : L ≠ q := fun heq => hT (heq ▸ rfl)
        rw [update_of_ne hT, update_of_ne hne]
        exact h.leader_log L hL
    first_le := by
      intro T L hL
      rcases hled hL with ⟨rfl, -⟩ | ⟨-, hL⟩
      · exact hfirst
      · exact h.first_le T L hL
    tl_genesis := by
      intro T L hL
      rcases hled hL with ⟨rfl, -⟩ | ⟨-, hL⟩
      · show _ <+: update s.tl _ _ (s.view q)
        rwa [update_self]
      · exact (h.tl_genesis T L hL).trans (hgrow T) }

theorem Inv.logInv_elect (h : Inv P m s) (hc : ⟨s.view q, q, s.log q, s.commit q⟩ ∈ s.cands)
    (hcommit : s.commit q ≤ P.lastSig (s.log q))
    (hgrow : ∀ T, s.tl T <+: update s.tl (s.view q) ((s.log q).take (P.lastSig (s.log q))) T) :
    LogInv P { s with
      leader := update s.leader (s.view q) (some q)
      log := update s.log q ((s.log q).take (P.lastSig (s.log q)))
      tl := update s.tl (s.view q) ((s.log q).take (P.lastSig (s.log q))) } := by
  have hcoh := h.log_coherent q
  have hgen : P.genesis.length ≤ s.commit q := (h.cand_commit _ hc).1
  -- the candidate's log is the beginning of a leader's
  obtain ⟨hfirst, hgenesis⟩ := h.genesis_of_le_length hcoh (h.log_le q) (hgen.trans (h.commit_le q))
  refine h.toLogInv.lead hgrow ((hcoh.take _).mono hgrow)
    (fun e he => h.log_le q e (mem_of_mem_take he)) (fun n => h.boundary (hcoh.take _)) (fun hne => .inl ?_) hfirst
    (prefix_take_iff.2 ⟨hgenesis, hgen.trans hcommit⟩)
  have hlen : ((s.log q).take (P.lastSig (s.log q))).length = P.lastSig (s.log q) := by
    rw [length_take, min_eq_left (lastSig_le _)]
  have hpos := length_pos_iff.2 hne
  rw [hlen] at hpos ⊢
  exact (sigAt_take le_rfl).2 (sigAt_lastSig hpos)

theorem LogInv.append {e : ε} (h : LogInv P s) (hl : s.leader (s.view L) = some L) (he : P.term e = s.view L)
    (hgrow : ∀ T, s.tl T <+: update s.tl (s.view L) (s.tl (s.view L) ++ [e]) T) :
    LogInv P { s with
      log := update s.log L (s.log L ++ [e])
      tl := update s.tl (s.view L) (s.tl (s.view L) ++ [e]) } := by
  have hlead := h.lead hgrow (((h.tl_coherent _).mono hgrow).concat (by rw [he, update_self]))
    (fun x hx => ?_) (fun n hpos hn hne => ?_) (fun _ => .inr ?_) (h.first_le _ L hl)
    ((h.tl_genesis _ L hl).trans (prefix_append _ _))
  · rw [h.leader_log L hl]
    rwa [← hl, update_eq_self] at hlead
  · rcases mem_append.1 hx with hx | hx
    · exact h.tl_le _ x hx
    · rw [mem_singleton.1 hx]
      exact he.le
  · have hpre : s.tl (s.view L) <+: s.tl (s.view L) ++ [e] := prefix_append _ _
    rw [length_append, length_singleton] at hn
    rw [sigAt_of_isPrefix hpre (by omega)]
    rw [termAt_of_isPrefix hpre (by omega)] at hne
    rcases lt_or_ge n (s.tl (s.view L)).length with hlt | hge
    · rw [termAt_of_isPrefix hpre hlt] at hne
      exact h.tl_boundary _ n hpos hlt hne
    · obtain rfl : n = (s.tl (s.view L)).length := by omega
      rw [termAt_concat, he] at hne
      exact (h.tl_last _ (length_pos_iff.1 hpos)).resolve_right hne
  · rw [length_append, length_singleton, termAt_concat]
    exact he

theorem LogInv.replace (h : LogInv P s) (hl : s.leader (s.view q) = some L) (hne : L ≠ q) :
    LogInv P { s with log := update s.log q ((s.tl (s.view q)).take j) } :=
  { h with
    log_coherent := (forall_update_iff s.log fun _ ℓ => P.Coherent s.tl ℓ).2
      ⟨(h.tl_coherent _).take j, fun q' _ => h.log_coherent q'⟩
    log_le := (forall_update_iff s.log fun q ℓ => ∀ e ∈ ℓ, P.term e ≤ s.view q).2
      ⟨fun x hx => h.tl_le _ x (mem_of_mem_take hx), fun q' _ => h.log_le q'⟩
    leader_log := by
      intro L' hL'
      have hq : L' ≠ q := by
        rintro rfl
        exact hne (Option.some.inj (hl.symm.trans hL'))
      exact (update_of_ne hq _ _).trans (h.leader_log L' hL') }

section
variable (h : Inv P m s) {i : ℕ} {v : ι}
include h

theorem Step.logInv (hstep : Step P m q s s') : LogInv P s' := by
  have hg := hstep.grows h
  cases hstep with
  | elect S hc hsup hq hfree hcommit => exact h.logInv_elect hc hcommit hg.tl_prefix
  | append e hl he => exact h.toLogInv.append hl he hg.tl_prefix
  | replace L i j hl hne => exact h.toLogInv.replace hl hne
  | bump | candidate => exact { h.of_view_le hg.view_le with }
  | grant | acked | commitLeader | commitFollower => exact { h with }

/-! ### Acknowledgements after one step -/

theorem Inv.ackInv_of_grows (hg : Grows P s s') (hacks : s'.acks = s.acks)
    (hlog : ∀ q, s.log q <+: s'.log q) : AckInv P s' where
  ack_le _ ha := h.ack_le_of_grows hg (hacks ▸ ha)
  ack_kept a ha _ hc := h.ack_kept_of_grows hg (hacks ▸ ha) (hlog a.node) hc

/-- A new leader has what it acknowledged to earlier ones up to a signature. -/
theorem Inv.ackInv_elect {X : ι} (hfree : s.leader (s.view X) = none)
    (hlog : s'.log = update s.log X ((s.log X).take (P.lastSig (s.log X)))) (hview : s'.view = s.view)
    (hacks : s'.acks = s.acks) (hg : Grows P s s') : AckInv P s' where
  ack_le a ha := h.ack_le_of_grows hg (hacks ▸ ha)
  ack_kept a ha c hc hcond hheld := by
    rw [hacks] at ha
    by_cases hX : a.node = X
    · obtain ⟨hlen, hterm⟩ := h.ack_le a ha
      rw [hview] at hcond hheld
      have htake := hg.take_eq (hc.trans hlen)
      rw [htake] at hheld ⊢
      rcases hcond with heq | hsig
      · -- no one was the leader of the term so far
        rw [← heq, hX, h.tl_none _ hfree, take_nil]
        exact nil_prefix
      · rw [sigAt_of_isPrefix (hg.tl_prefix _) (hc.trans hlen)] at hsig
        have hkept := h.ack_kept a ha c hc (.inr hsig) (hg.heldBetween_back (h.term_le_take _ _) hheld)
        rw [hX] at hkept
        have hle : ((s.tl a.term).take c).length = c := by rw [length_take]; omega
        have hsig' := (sigAt_of_isPrefix hkept hle.ge).2 ((sigAt_take le_rfl).2 hsig)
        rw [hlog, hX, update_self]
        exact prefix_take_iff.2 ⟨hkept, by rw [hle]; exact hsig'.le_lastSig⟩
    · refine h.ack_kept_of_grows hg ha ?_ hc hcond hheld
      rw [hlog, update_of_ne hX]

/-- What a follower acknowledged does not conflict with the log of its leader. -/
theorem Inv.ackInv_replace (hl : s.leader (s.view q) = some L) (hij : i ≤ j) (hcut : i = (s.log q).length ∨
      i < (s.tl (s.view q)).length ∧ P.termAt (s.log q) (i + 1) ≠ P.termAt (s.tl (s.view q)) (i + 1)) :
    AckInv P { s with log := update s.log q ((s.tl (s.view q)).take j) } where
  ack_le := h.ack_le
  ack_kept a ha c hc hcond hheld := by
    have hkept := h.ack_kept a ha c hc hcond hheld
    show (s.tl a.term).take c <+: update s.log q _ a.node
    by_cases hq : a.node = q
    · obtain ⟨hlen, hterm⟩ := h.ack_le a ha
      subst hq
      rw [update_self]
      have hpre : (s.tl a.term).take c <+: s.tl (s.view a.node) := by
        rcases eq_or_lt_of_le hterm with heq | hlt
        · rw [heq]
          exact take_prefix _ _
        · exact hheld _ hlt (Nat.lt_succ_self _) (by simp [hl])
      have hclen : ((s.tl a.term).take c).length = c := by rw [length_take]; omega
      have hci : c ≤ i := by
        rcases hcut with rfl | ⟨-, hconf⟩
        · rw [← hclen]
          exact hkept.length_le
        · by_contra hlt
          rw [termAt_of_isPrefix hkept (by omega), termAt_of_isPrefix hpre (by omega)] at hconf
          exact hconf rfl
      exact prefix_take_iff.2 ⟨hpre, (length_take_le _ _).trans (hci.trans hij)⟩
    · rw [update_of_ne hq]
      exact hkept

theorem Step.ackInv (hstep : Step P m q s s') : AckInv P s' := by
  have hg := hstep.grows h
  cases hstep with
  | elect S hc hsup hq hfree hcommit => exact h.ackInv_elect hfree rfl rfl rfl hg
  | append e hl he =>
    refine h.ackInv_of_grows hg rfl fun q' => ?_
    by_cases hq : q' = q
    · subst hq
      simp
    · simp [hq]
  | replace L i j hl hne hi hij hj hag hcut hcommit => exact h.ackInv_replace hl hij hcut
  | acked n hn hlog =>
    refine ⟨fun a ha => ?_, fun a ha c hc hcond hheld => ?_⟩
    · rcases mem_insert_iff.1 ha with rfl | ha
      · exact ⟨hn, le_rfl⟩
      · exact h.ack_le a ha
    · rcases mem_insert_iff.1 ha with rfl | ha
      · exact (take_prefix_take_left hc).trans hlog
      · exact h.ack_kept a ha c hc hcond hheld
  | bump | candidate | grant | commitLeader | commitFollower =>
    exact h.ackInv_of_grows hg rfl fun _ => prefix_rfl

/-! ### Votes after one step -/

/-- What a node has committed is of an event, unless it is nothing. -/
theorem Inv.exists_event (hgen : P.genesis.length ≤ s.commit q) (hstrict : m.strict) :
    ∃ e ∈ s.events, e.term ≤ s.view q ∧ (s.log q).take (s.commit q) <+: s.committed e := by
  refine (h.commit_proven hstrict q).resolve_left fun hnil => ?_
  have hlen := congrArg List.length hnil
  have := h.commit_le q
  have := P.genesis_pos
  rw [length_take, length_nil] at hlen
  omega

theorem Inv.voteInv_candidate (hc : c = ⟨s.view q + 1, q, s.log q, s.commit q⟩)
    (hcommit : P.genesis.length ≤ s.commit q) :
    VoteInv P m { s with view := update s.view q (s.view q + 1), cands := insert c s.cands } := by
  have hview : s.view ≤ update s.view q (s.view q + 1) := le_update_self_iff.2 (Nat.le_succ _)
  have hnew : ∀ c' ∈ s.cands, ¬(c'.term = c.term ∧ c'.node = c.node) := by
    rintro c' hc' ⟨hterm, hnode⟩
    have := h.cand_view c' hc'
    rw [hterm, hnode, hc] at this
    exact absurd this (Nat.not_succ_le_self _)
  exact { h with
    cand_view := forall_mem_insert.2 ⟨by simp [hc], fun c hc => (h.cand_view c hc).trans (hview _)⟩
    cand_unique := forall_mem_insert.2
      ⟨forall_mem_insert.2 ⟨fun _ _ => rfl, fun c' hc' hterm hnode => absurd ⟨hterm.symm, hnode.symm⟩ (hnew c' hc')⟩,
        fun c' hc' => forall_mem_insert.2
          ⟨fun hterm hnode => absurd ⟨hterm, hnode⟩ (hnew c' hc'), h.cand_unique c' hc'⟩⟩
    cand_coherent := forall_mem_insert.2 ⟨hc ▸ h.log_coherent q, h.cand_coherent⟩
    cand_lt := forall_mem_insert.2 ⟨hc ▸ fun e he => Nat.lt_succ_of_le (h.log_le q e he), h.cand_lt⟩
    cand_commit := forall_mem_insert.2 ⟨hc ▸ ⟨hcommit, h.commit_le q⟩, h.cand_commit⟩
    cand_proven := by
      refine fun hstrict => forall_mem_insert.2 ⟨?_, h.cand_proven hstrict⟩
      subst hc
      obtain ⟨e, he, hterm, hp⟩ := h.exists_event hcommit hstrict
      exact ⟨e, he, Nat.lt_succ_of_le hterm, hp⟩
    cand_kept := by
      refine forall_mem_insert.2 ⟨?_, h.cand_kept⟩
      subst hc
      rintro a ha rfl hterm n hn hsig hheld
      exact h.ack_kept a ha n hn (.inr hsig) hheld
    vote_view := fun vt hvt => (h.vote_view vt hvt).trans (hview _)
    vote_cand := by
      intro vt hvt
      obtain ⟨hne, c, hc, hrest⟩ := h.vote_cand vt hvt
      exact ⟨hne, c, mem_insert_of_mem _ hc, hrest⟩
    elected := by
      intro T X hX
      refine (h.elected T X hX).imp_right ?_
      rintro ⟨c, hc, hrest⟩
      exact ⟨c, mem_insert_of_mem _ hc, hrest⟩
    unique_cand := by
      refine fun hunique vt hvt => forall_mem_insert.2 ⟨fun hterm hnode => ?_, h.unique_cand hunique vt hvt⟩
      have := h.vote_view vt hvt
      rw [← hterm, ← hnode, hc] at this
      exact absurd this (Nat.not_succ_le_self _) }

theorem Inv.voteInv_grant (hc : c ∈ s.cands) (hterm : c.term = s.view v)
    (hne : v ≠ c.node) (hfree : s.leader c.term ≠ some c.node) (hup : P.UpToDate c.log (s.log v))
    (hmay : m.unique → s.MayVote v c) :
    VoteInv P m { s with votes := insert ⟨c.term, v, c.node, s.log v⟩ s.votes } := by
  have hg : Grows P s { s with votes := insert ⟨c.term, v, c.node, s.log v⟩ s.votes } :=
    .of_eq rfl rfl (fun _ => le_rfl) rfl subset_rfl (subset_insert _ _) subset_rfl
  exact { h with
    vote_view := forall_mem_insert.2 ⟨hterm.le, h.vote_view⟩
    vote_cand := forall_mem_insert.2 ⟨⟨hne, c, hc, rfl, rfl, hup⟩, h.vote_cand⟩
    vote_coherent := forall_mem_insert.2 ⟨h.log_coherent v, h.vote_coherent⟩
    vote_kept := by
      refine forall_mem_insert.2 ⟨?_, h.vote_kept⟩
      -- a leader of the term is not the candidate, so it has what the voter is to keep
      rintro a ha rfl ht n hn hsig hheld hother
      refine h.ack_kept a ha n hn (.inr hsig) fun T hT hT₁ hl => ?_
      rcases lt_or_ge T (s.view a.node) with hlt | hge
      · exact hheld T hT (by rw [hterm]; exact hlt) hl
      · obtain rfl : T = c.term := by omega
        obtain ⟨L, hL⟩ := Option.ne_none_iff_exists'.1 hl
        refine hother L hL ?_
        rintro rfl
        exact hfree hL
    elected := fun T X hX => h.elected_of_grows hg hX
    unique_vote := fun hunique => forall_mem_insert.2
      ⟨forall_mem_insert.2 ⟨fun _ _ => rfl, fun vt hvt hterm hvoter =>
          ((hmay hunique).1 vt hvt hterm.symm hvoter.symm).symm⟩,
        fun vt hvt => forall_mem_insert.2 ⟨(hmay hunique).1 vt hvt, h.unique_vote hunique vt hvt⟩⟩
    unique_cand := fun hunique => forall_mem_insert.2 ⟨(hmay hunique).2, h.unique_cand hunique⟩ }

theorem Step.voteInv (hstep : Step P m q s s') : VoteInv P m s' := by
  have hg := hstep.grows h
  cases hstep with
  | candidate hcommit => exact h.voteInv_candidate rfl hcommit
  | grant c hc hterm hne hfree hup hmay => exact h.voteInv_grant hc hterm hne hfree hup hmay
  | elect S hc hsup hq hfree hcommit =>
    refine h.voteInv_of_grows hg rfl rfl fun T X hX => ?_
    by_cases hT : T = s.view q
    · subst hT
      obtain rfl : q = X := by simpa using hX
      exact .inr ⟨_, hc, rfl, rfl, S, hsup, hq, by simp⟩
    · exact .inl (by simpa [hT] using hX)
  | bump | append | replace | acked | commitLeader | commitFollower =>
    exact h.voteInv_of_grows hg rfl rfl fun T X hX => .inl hX

/-! ### Commits after one step -/

theorem Inv.commitInv_follower {c : ℕ} (hle : s.commit q ≤ c) (hlen : c ≤ (s.log q).length)
    (hproven : m.strict → s.Committed ((s.log q).take c) (s.view q)) :
    CommitInv P m { s with commit := update s.commit q c } :=
  { h with
    event_leader := fun L hL e he hterm => (h.event_leader L hL e he hterm).trans
      ((le_update_self_iff.2 hle : s.commit ≤ update s.commit q c) L)
    commit_le := (forall_update_iff s.commit fun q n => n ≤ (s.log q).length).2
      ⟨hlen, fun q' _ => h.commit_le q'⟩
    commit_proven := fun hstrict =>
      (forall_update_iff s.commit fun q n => s.Committed ((s.log q).take n) (s.view q)).2
        ⟨hproven hstrict, fun q' _ => h.commit_proven hstrict q'⟩ }

theorem Inv.commitInv_leader {c : ℕ} {Q : Finset ι} (hl : s.leader (s.view L) = some L)
    (hlt : s.commit L < c) (hgen : P.genesis.length ≤ s.commit L) (hsig : P.SigAt (s.log L) c)
    (hterm : P.termAt (s.log L) c = s.view L)
    (hacks : ∀ q ∈ Q, ∃ a ∈ s.acks, a.node = q ∧ a.term = s.view L ∧ c ≤ a.idx)
    (hq : P.Quorate (s.log L) (s.commit L) Q) :
    CommitInv P m { s with
      commit := update s.commit L c
      events := insert ⟨s.view L, c, s.commit L, (s.log L).length, Q⟩ s.events } := by
  have hlog := h.leader_log L hl
  have hc := hsig.le_length
  rw [hlog] at hsig hterm hq hc
  rw [hlog]
  exact {
    event_bounds := forall_mem_insert.2 ⟨⟨h.first_le _ _ hl, hlt.le, hc, le_rfl, hsig, hterm⟩, h.event_bounds⟩
    event_acks := forall_mem_insert.2 ⟨hacks, h.event_acks⟩
    event_quorate := forall_mem_insert.2 ⟨by rwa [take_length], h.event_quorate⟩
    event_base := by
      refine fun hstrict => forall_mem_insert.2 ⟨?_, fun e he => (h.event_base hstrict e he).imp_right ?_⟩
      · -- what the leader had committed is of an earlier event
        obtain ⟨e₀, he₀, hterm₀, hp⟩ := h.exists_event hgen hstrict
        refine .inr ⟨e₀, mem_insert_of_mem _ he₀, ?_, by rw [hlog] at hp; exact hp⟩
        rcases eq_or_lt_of_le hterm₀ with heq | hlt₀
        · exact .inr ⟨heq, (h.event_leader L hl e₀ he₀ heq).trans_lt hlt⟩
        · exact .inl hlt₀
      · rintro ⟨e₀, he₀, hrest⟩
        exact ⟨e₀, mem_insert_of_mem _ he₀, hrest⟩
    event_leader := by
      refine fun L' hL' => forall_mem_insert.2 ⟨fun hterm' => ?_, fun e he hterm' => ?_⟩
      · have hL : s.leader (s.view L') = some L' := hL'
        rw [← show s.view L = s.view L' from hterm', hl, Option.some.injEq] at hL
        show c ≤ update s.commit L c L'
        rw [← hL, update_self]
      · exact (h.event_leader L' hL' e he hterm').trans
          ((le_update_self_iff.2 hlt.le : s.commit ≤ update s.commit L c) L')
    commit_le := (forall_update_iff s.commit fun q n => n ≤ (s.log q).length).2
      ⟨hlog ▸ hc, fun q _ => h.commit_le q⟩
    commit_proven := by
      -- the new event is on record for the leader
      refine fun hstrict => (forall_update_iff s.commit fun q n => Sys.Committed { s with
        events := insert ⟨s.view L, c, s.commit L, (s.tl (s.view L)).length, Q⟩ s.events } ((s.log q).take n)
        (s.view q)).2
        ⟨.inr ⟨_, mem_insert _ _, le_rfl, ?_⟩, fun q _ => (h.commit_proven hstrict q).imp_right ?_⟩
      · rw [hlog]
        exact prefix_rfl
      · rintro ⟨e, he, hrest⟩
        exact ⟨e, mem_insert_of_mem _ he, hrest⟩ }

variable (hstep : Step P m q s s')
include hstep

theorem Step.commitInv : CommitInv P m s' := by
  have hg := hstep.grows h
  have hsame : ∀ L, s'.leader = s.leader → s'.leader (s'.view L) = some L →
      s'.view L = s.view L ∧ s.leader (s.view L) = some L := by
    intro L hleader hL
    rw [hleader] at hL
    have heq : s'.view L = s.view L := le_antisymm (h.leader_view _ _ hL) (hg.view_le L)
    exact ⟨heq, heq ▸ hL⟩
  have hlogs : ∀ {ℓ}, (∀ q', (s.log q').take (s.commit q') <+: update s.log q ℓ q') ↔
      (s.log q).take (s.commit q) <+: ℓ := by
    intro ℓ
    rw [forall_update_iff s.log fun q' ℓ => (s.log q').take (s.commit q') <+: ℓ]
    exact and_iff_left fun q' _ => take_prefix _ _
  cases hstep with
  | elect S hc hsup hq hfree hcommit =>
    refine h.commitInv_of_grows hg rfl rfl (fun L hL => ?_) (hlogs.2 (take_prefix_take_left hcommit))
    by_cases hT : s.view L = s.view q
    · refine .inr fun e he hterm => h.leader_of_event he ?_
      rw [hterm]
      exact hT ▸ hfree
    · exact .inl ⟨rfl, by simpa [hT] using hL⟩
  | append e hl he =>
    exact h.commitInv_of_grows hg rfl rfl (fun L hL => .inl (hsame L rfl hL))
      (hlogs.2 (( take_prefix _ _).trans (prefix_append _ _)))
  | replace L i j hl hne hi hij hj hag hcut hcommit =>
    refine h.commitInv_of_grows hg rfl rfl (fun L hL => .inl (hsame L rfl hL)) (hlogs.2 ?_)
    have hpre : (s.log q).take (s.commit q) <+: (s.log q).take i := take_prefix_take_left hcommit
    rw [hag] at hpre
    exact hpre.trans (take_prefix_take_left hij)
  | bump | candidate | grant | acked =>
    exact h.commitInv_of_grows hg rfl rfl (fun L hL => .inl (hsame L rfl hL)) fun _ => take_prefix _ _
  | commitLeader c Q hl hlt hgen hsig hterm hacks hq => exact h.commitInv_leader hl hlt hgen hsig hterm hacks hq
  | commitFollower c hle hlen hproven => exact h.commitInv_follower hle hlen hproven

theorem Step.leader_elects (T : ℕ) (L : ι) (hL : s'.leader T = some L) : m.elects T L := by
  cases hstep with
  | elect S hc hsup hq hfree hcommit hmay =>
    by_cases hT : T = s.view q
    · subst hT
      simp only [update_self, Option.some.injEq] at hL
      exact hL ▸ hmay
    · simp only [update_of_ne hT] at hL
      exact h.leader_elects T L hL
  | _ => exact h.leader_elects T L hL

/-- **Every step keeps the invariants.** -/
theorem Step.inv : Inv P m s' where
  toLogInv := hstep.logInv h
  toAckInv := hstep.ackInv h
  toVoteInv := hstep.voteInv h
  toCommitInv := hstep.commitInv h
  leader_elects := hstep.leader_elects h

omit hstep

end

/-! ### Runs -/

/-- The first leader `p` alone has the genesis log and has committed it. -/
def Proto.initial (P : Proto ι ε) (p : ι) : Sys ι ε where
  view := update (fun _ => 0) p P.first
  log := update (fun _ => []) p P.genesis
  commit := update (fun _ => 0) p P.genesis.length
  leader := update (fun _ => none) P.first (some p)
  tl := update (fun _ => []) P.first P.genesis
  acks := {⟨p, P.first, P.genesis.length⟩}
  cands := ∅
  votes := ∅
  events := {⟨P.first, P.genesis.length, P.genesis.length, P.genesis.length, {p}⟩}

theorem leader_initial {p : ι} (hL : (P.initial p).leader T = some L) : T = P.first ∧ p = L := by
  by_cases hT : T = P.first
  · exact ⟨hT, by simpa [initial, hT] using hL⟩
  · simp [initial, hT] at hL

section

variable {p : ι} (hterm : ∀ e ∈ P.genesis, P.term e = P.first)

include hterm

/-- The first leader takes the lead of a system without logs. -/
theorem logInv_initial (hsig : P.SigAt P.genesis P.genesis.length) : LogInv P (P.initial p) := by
  let empty : Sys ι ε := { P.initial p with log := fun _ => [], leader := fun _ => none, tl := fun _ => [] }
  have hempty : LogInv P empty := by constructor <;> simp [empty, coherent_nil]
  have hfirst : empty.view p = P.first := by simp [empty, initial]
  have hlead := hempty.lead (q := p) (ℓ := P.genesis) (fun T => nil_prefix)
    (fun n hpos hn => ?_) (fun e he => ?_) (fun n hpos hn hne => ?_) (fun _ => .inl hsig) hfirst.ge prefix_rfl
  · rwa [hfirst] at hlead
  · obtain ⟨e, he, heq⟩ := termAt_mem (P := P) hpos hn
    rw [heq, hterm e he, hfirst, update_self]
    exact take_prefix _ _
  · rw [hfirst]
    exact (hterm e he).le
  · obtain ⟨e, he, heq⟩ := termAt_mem (P := P) hpos hn.le
    obtain ⟨e', he', heq'⟩ := termAt_mem (P := P) (Nat.succ_pos n) hn
    rw [heq, heq', hterm e he, hterm e' he'] at hne
    exact absurd rfl hne

/-- The invariants hold initially when the genesis log was written in the first term, ends with a
signature, and makes the first leader a majority of its own. -/
theorem inv_initial (hsig : P.SigAt P.genesis P.genesis.length) (hconf : Majority {p} (P.conf P.genesis))
    (hmay : m.elects P.first p) : Inv P m (P.initial p) := by
  have htl : (P.initial p).tl P.first = P.genesis := by simp [initial]
  have hlast : P.termAt P.genesis P.genesis.length = P.first := by
    obtain ⟨e, he, heq⟩ := termAt_mem (P := P) P.genesis_pos le_rfl
    rw [heq, hterm e he]
  refine ⟨logInv_initial hterm hsig, ⟨?_, ?_⟩, ?_, ?_, fun T L hL => ?_⟩
  · rintro a rfl
    exact ⟨by rw [htl], by simp [initial]⟩
  · rintro a rfl c hc - -
    simp only [initial, update_self]
    exact take_prefix _ _
  · refine ⟨?_, ?_, ?_, ?_, ?_, ?_, ?_, ?_, ?_, ?_, ?_, fun T X hX => .inl (leader_initial hX).1, ?_, ?_⟩
    all_goals simp [initial]
  · refine ⟨?_, ?_, ?_, ?_, ?_, fun q => ?_, fun _ q => ?_⟩
    · rintro e rfl
      exact ⟨le_rfl, le_rfl, le_rfl, by rw [htl], by rw [htl]; exact hsig, by rw [htl]; exact hlast⟩
    · rintro e rfl q hq
      exact ⟨_, rfl, (Finset.mem_singleton.1 hq).symm, rfl, le_rfl⟩
    · rintro e rfl j hj hlen
      rw [htl] at hlen ⊢
      rw [take_length] at hlen ⊢
      rw [le_antisymm hlen hj, take_length]
      exact hconf
    · rintro - e rfl
      exact .inl le_rfl
    · rintro L hL e rfl -
      obtain ⟨-, rfl⟩ := leader_initial hL
      simp [initial]
    · by_cases hq : q = p <;> simp [initial, hq]
    · by_cases hq : q = p
      · refine .inr ⟨_, rfl, by simp [initial, hq], ?_⟩
        show _ <+: ((P.initial p).tl P.first).take P.genesis.length
        simp [initial, hq]
      · exact .inl (by simp [initial, hq])
  · obtain ⟨rfl, rfl⟩ := leader_initial hL
    exact hmay

end

/-- Any number of steps of one node. -/
abbrev Steps (P : Proto ι ε) (m : Mode ι) (q : ι) : Sys ι ε → Sys ι ε → Prop := Relation.ReflTransGen (Step P m q)

theorem Steps.inv (h : Inv P m s) (hsteps : Steps P m q s s') : Inv P m s' := by
  induction hsteps with
  | refl => exact h
  | tail _ hstep ih => exact hstep.inv ih

/-- What was known at an earlier time. -/
structure Later (s s' : Sys ι ε) : Prop where
  leader_eq : ∀ T L, s.leader T = some L → s'.leader T = some L
  tl_prefix : ∀ T, s.tl T <+: s'.tl T
  acks_sub : s.acks ⊆ s'.acks
  cands_sub : s.cands ⊆ s'.cands
  votes_sub : s.votes ⊆ s'.votes
  events_sub : s.events ⊆ s'.events

/-- What is left alone by the steps of `q`. -/
structure Frame (q : ι) (s s' : Sys ι ε) : Prop where
  view_eq : ∀ v ≠ q, s'.view v = s.view v
  log_eq : ∀ v ≠ q, s'.log v = s.log v
  commit_eq : ∀ v ≠ q, s'.commit v = s.commit v
  leader_new : ∀ T L, s'.leader T = some L → s.leader T = some L ∨ L = q
  cands_new : ∀ c ∈ s'.cands, c ∈ s.cands ∨ c.node = q
  votes_new : ∀ vt ∈ s'.votes, vt ∈ s.votes ∨ vt.voter = q

omit [DecidableEq ι] in
theorem Later.refl (s : Sys ι ε) : Later s s :=
  ⟨fun _ _ h => h, fun _ => prefix_rfl, subset_rfl, subset_rfl, subset_rfl, subset_rfl⟩

omit [DecidableEq ι] in
theorem Later.trans (h : Later s s') (h' : Later s' s'') : Later s s'' where
  leader_eq T L hL := h'.leader_eq T L (h.leader_eq T L hL)
  tl_prefix T := (h.tl_prefix T).trans (h'.tl_prefix T)
  acks_sub := h.acks_sub.trans h'.acks_sub
  cands_sub := h.cands_sub.trans h'.cands_sub
  votes_sub := h.votes_sub.trans h'.votes_sub
  events_sub := h.events_sub.trans h'.events_sub

omit [DecidableEq ι] in
theorem Later.committed (h : Later s s') (hp : s.Committed p T) : s'.Committed p T := by
  refine hp.imp_right ?_
  rintro ⟨e, he, hT, hpre⟩
  exact ⟨e, h.events_sub he, hT, hpre.trans ((h.tl_prefix _).take _)⟩

theorem Cert.later {S : Finset ι} (hc : Cert P s c S) (h : Later s s') : Cert P s' c S := by
  refine ⟨h.cands_sub hc.mem, fun q hq => (hc.supports q hq).imp_right ?_, hc.quorate⟩
  rintro ⟨vt, hvt, hrest⟩
  exact ⟨vt, h.votes_sub hvt, hrest⟩

omit [DecidableEq ι] in
theorem Grows.later (h : Grows P s s') : Later s s' :=
  ⟨h.leader_eq, h.tl_prefix, h.acks_sub, h.cands_sub, h.votes_sub, h.events_sub⟩

omit [DecidableEq ι] in
theorem Frame.refl (q : ι) (s : Sys ι ε) : Frame q s s :=
  ⟨fun _ _ => rfl, fun _ _ => rfl, fun _ _ => rfl, fun _ _ h => .inl h, fun _ h => .inl h, fun _ h => .inl h⟩

omit [DecidableEq ι] in
theorem Frame.trans (h : Frame q s s') (h' : Frame q s' s'') : Frame q s s'' where
  view_eq v hv := (h'.view_eq v hv).trans (h.view_eq v hv)
  log_eq v hv := (h'.log_eq v hv).trans (h.log_eq v hv)
  commit_eq v hv := (h'.commit_eq v hv).trans (h.commit_eq v hv)
  leader_new T L hL := (h'.leader_new T L hL).elim (h.leader_new T L) .inr
  cands_new c hc := (h'.cands_new c hc).elim (h.cands_new c) .inr
  votes_new vt hvt := (h'.votes_new vt hvt).elim (h.votes_new vt) .inr

theorem Step.frame (hstep : Step P m q s s') : Frame q s s' := by
  cases hstep with
  | bump T hT => exact { Frame.refl q s with view_eq := fun v hv => by simp [hv] }
  | candidate hcommit =>
    exact { Frame.refl q s with
      view_eq := fun v hv => by simp [hv]
      cands_new := fun c hc => (mem_insert_iff.1 hc).elim (fun heq => .inr (by rw [heq])) .inl }
  | grant c =>
    exact { Frame.refl q s with
      votes_new := fun vt hvt => (mem_insert_iff.1 hvt).elim (fun heq => .inr (by rw [heq])) .inl }
  | elect S =>
    refine { Frame.refl q s with log_eq := fun v hv => by simp [hv], leader_new := fun T L hL => ?_ }
    by_cases hT : T = s.view q
    · subst hT
      exact .inr (by simpa using hL.symm)
    · exact .inl (by simpa [hT] using hL)
  | append e | replace => exact { Frame.refl q s with log_eq := fun v hv => by simp [hv] }
  | acked n => exact { Frame.refl q s with }
  | commitLeader c | commitFollower c => exact { Frame.refl q s with commit_eq := fun v hv => by simp [hv] }

theorem Steps.later (h : Inv P m s) (hsteps : Steps P m q s s') : Later s s' := by
  induction hsteps with
  | refl => exact Later.refl s
  | tail hsteps hstep ih => exact ih.trans (hstep.grows (Steps.inv h hsteps)).later

theorem Steps.frame (hsteps : Steps P m q s s') : Frame q s s' := by
  induction hsteps with
  | refl => exact Frame.refl q s
  | tail _ hstep ih => exact ih.trans hstep.frame

/-! ### What a node holds while it stays in a term -/

/-- `q` has led term `T` with `p` in its log, or has acknowledged `p` in it. -/
def Sys.Holds (s : Sys ι ε) (q : ι) (T : ℕ) (p : List ε) : Prop :=
  s.leader T = some q ∧ p <+: s.tl T ∨ ∃ n, (⟨q, T, n⟩ : Ack ι) ∈ s.acks ∧ p <+: (s.tl T).take n

omit [DecidableEq ι] in
theorem Sys.Holds.later (h : s.Holds q T p) (hl : Later s s') : s'.Holds q T p := by
  rcases h with ⟨hleader, hp⟩ | ⟨n, hack, hp⟩
  · exact .inl ⟨hl.leader_eq T q hleader, hp.trans (hl.tl_prefix T)⟩
  · exact .inr ⟨n, hl.acks_sub hack, hp.trans ((hl.tl_prefix T).take n)⟩

/-- **What a node holds in its term** is in its log. -/
theorem Sys.Holds.prefix_log (h : s.Holds q (s.view q) p) (hinv : Inv P m s) : p <+: s.log q := by
  rcases h with ⟨hleader, hp⟩ | ⟨n, hack, hp⟩
  · rw [hinv.leader_log q hleader]
    exact hp
  · refine hp.trans (hinv.ack_kept ⟨q, s.view q, n⟩ hack n le_rfl (.inl rfl) ?_)
    intro T hlt hle
    dsimp only at hlt hle
    omega

end Ccf.SignedRaft
