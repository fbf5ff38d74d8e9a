import Ccf.Lib.SignedRaft.Safety

/-! # What all steps have in common

`Grows s s'` is what every step has in common: leaders stay, their logs only grow, by entries of their
term, and nothing that was recorded is forgotten. It is all that is needed to keep what is known about
the old records. -/

namespace Ccf.SignedRaft

variable {ι ε : Type*} {P : Proto ι ε} {m : Mode ι} {s s' : Sys ι ε} {T n : ℕ} {X : ι} {ℓ : List ε}

open Proto

structure Grows (P : Proto ι ε) (s s' : Sys ι ε) : Prop where
  leader_eq : ∀ T L, s.leader T = some L → s'.leader T = some L
  tl_grow : ∀ T, s.leader T ≠ none → s'.tl T = s.tl T ∨ ∃ e, s'.tl T = s.tl T ++ [e] ∧ P.term e = T
  tl_prefix : ∀ T, s.tl T <+: s'.tl T
  view_le : ∀ q, s.view q ≤ s'.view q
  acks_new : ∀ a ∈ s'.acks, a ∈ s.acks ∨ s.view a.node ≤ a.term
  acks_sub : s.acks ⊆ s'.acks
  cands_sub : s.cands ⊆ s'.cands
  votes_sub : s.votes ⊆ s'.votes
  events_sub : s.events ⊆ s'.events

namespace Grows

/-- What changes neither leaders nor acknowledgements. -/
theorem of_eq (hleader : s'.leader = s.leader) (htl : s'.tl = s.tl) (hview : ∀ q, s.view q ≤ s'.view q)
    (hacks : s'.acks = s.acks) (hcands : s.cands ⊆ s'.cands) (hvotes : s.votes ⊆ s'.votes)
    (hevents : s.events ⊆ s'.events) : Grows P s s' where
  leader_eq T L h := by rw [hleader]; exact h
  tl_grow T _ := .inl (by rw [htl])
  tl_prefix T := by rw [htl]
  view_le := hview
  acks_new a ha := .inl (hacks ▸ ha)
  acks_sub := hacks.ge
  cands_sub := hcands
  votes_sub := hvotes
  events_sub := hevents

variable (hg : Grows P s s') {p : List ε} {T₀ : ℕ}

include hg

theorem leader_ne_none (h : s.leader T ≠ none) : s'.leader T ≠ none := by
  obtain ⟨L, hL⟩ := Option.ne_none_iff_exists'.1 h
  simp [hg.leader_eq T L hL]

theorem take_eq (hn : n ≤ (s.tl T).length) : (s'.tl T).take n = (s.tl T).take n :=
  take_eq_of_isPrefix (hg.tl_prefix T) hn

theorem committed_mono (h : s.Committed p T) : s'.Committed p T := by
  refine h.imp_right ?_
  rintro ⟨e, he, hT, hp⟩
  exact ⟨e, hg.events_sub he, hT, hp.trans ((hg.tl_prefix e.term).take e.idx)⟩

theorem supports_mono {S : Finset ι} (h : s.Supports T X S) : s'.Supports T X S := by
  intro q hq
  refine (h q hq).imp_right ?_
  rintro ⟨vt, hvt, hrest⟩
  exact ⟨vt, hg.votes_sub hvt, hrest⟩

/-- A leader does not come to have an earlier log by appending entries of its own term. -/
theorem prefix_back (hp : ∀ e ∈ p, P.term e ≤ T₀) (hT : T₀ < T) (hl : s.leader T ≠ none)
    (h : p <+: s'.tl T) : p <+: s.tl T := by
  rcases hg.tl_grow T hl with heq | ⟨e, heq, he⟩
  · rwa [heq] at h
  · rw [heq] at h
    rcases List.prefix_concat_iff.1 h with rfl | h
    · have := hp e (by simp)
      omega
    · exact h

theorem heldBetween_back {T₁ : ℕ} (hp : ∀ e ∈ p, P.term e ≤ T₀) (h : s'.HeldBetween p T₀ T₁) :
    s.HeldBetween p T₀ T₁ :=
  fun T hT hT₁ hl => hg.prefix_back hp hT hl (h T hT hT₁ (hg.leader_ne_none hl))

end Grows

theorem LogInv.term_le_take (h : LogInv P s) (T n : ℕ) : ∀ e ∈ (s.tl T).take n, P.term e ≤ T :=
  fun e he => h.tl_le T e (List.mem_of_mem_take he)

/-! ### Logs -/

theorem LogInv.of_view_le (h : LogInv P s) {view : ι → ℕ} (hview : ∀ q, s.view q ≤ view q) :
    LogInv P { s with view := view } :=
  { h with
    log_le := fun q e he => (h.log_le q e he).trans (hview q)
    leader_view := fun T L hL => (h.leader_view T L hL).trans (hview L)
    leader_log := by
      intro L hL
      have heq : view L = s.view L := le_antisymm (h.leader_view _ _ hL) (hview L)
      dsimp only at hL ⊢
      rw [heq] at hL ⊢
      exact h.leader_log L hL }

/-- A coherent log changes term only after signatures. -/
theorem LogInv.boundary (h : LogInv P s) (hℓ : P.Coherent s.tl ℓ) (hpos : 0 < n)
    (hn : n < ℓ.length) (hne : P.termAt ℓ n ≠ P.termAt ℓ (n + 1)) : P.SigAt ℓ n := by
  have hp := hℓ (n + 1) (Nat.succ_pos n) hn
  have hlen : (ℓ.take (n + 1)).length = n + 1 := by rw [List.length_take]; omega
  have hle := hp.length_le
  have hterm : ∀ k ≤ n + 1, P.termAt (s.tl (P.termAt ℓ (n + 1))) k = P.termAt ℓ k := by
    intro k hk
    rw [termAt_of_isPrefix hp (by omega), termAt_take hk]
  have hsig := h.tl_boundary (P.termAt ℓ (n + 1)) n hpos (by omega)
    (by rw [hterm n (Nat.le_succ n), hterm (n + 1) le_rfl]; exact hne)
  rw [sigAt_of_isPrefix hp (by omega), sigAt_take (Nat.le_succ n)] at hsig
  exact hsig

/-! ### What the old records keep -/

variable [DecidableEq ι]

namespace Inv

variable (h : Inv P m s) (hg : Grows P s s') {a : Ack ι} {c : Cand ι ε} {e : Event ι}

include h hg

theorem ack_le_of_grows (ha : a ∈ s.acks) : a.idx ≤ (s'.tl a.term).length ∧ a.term ≤ s'.view a.node :=
  ⟨(h.ack_le a ha).1.trans (hg.tl_prefix _).length_le, (h.ack_le a ha).2.trans (hg.view_le _)⟩

/-- An old acknowledgement, when the log of the node has only grown. -/
theorem ack_kept_of_grows (ha : a ∈ s.acks) (hlog : s.log a.node <+: s'.log a.node) {c : ℕ}
    (hc : c ≤ a.idx) (hcond : s'.view a.node = a.term ∨ P.SigAt (s'.tl a.term) c)
    (hheld : s'.HeldBetween ((s'.tl a.term).take c) a.term (s'.view a.node + 1)) :
    (s'.tl a.term).take c <+: s'.log a.node := by
  obtain ⟨hlen, hview⟩ := h.ack_le a ha
  rw [hg.take_eq (hc.trans hlen)] at hheld ⊢
  refine List.IsPrefix.trans ?_ hlog
  refine h.ack_kept a ha c hc ?_ ?_
  · refine hcond.imp (fun heq => ?_) fun hsig => (sigAt_of_isPrefix (hg.tl_prefix _) (hc.trans hlen)).1 hsig
    have := hg.view_le a.node
    omega
  · intro T hT hT₁ hl
    have hle := hg.view_le a.node
    exact hg.heldBetween_back (h.term_le_take _ _) hheld T hT (by omega) hl

theorem cand_proven_of_grows (hstrict : m.strict) (hc : c ∈ s.cands) :
    ∃ e ∈ s'.events, e.term < c.term ∧ c.log.take c.commit <+: s'.committed e := by
  obtain ⟨e, he, hlt, hp⟩ := h.cand_proven hstrict c hc
  exact ⟨e, hg.events_sub he, hlt, hp.trans ((hg.tl_prefix e.term).take e.idx)⟩

theorem cand_kept_of_grows (hc : c ∈ s.cands) (ha : a ∈ s'.acks) (hnode : a.node = c.node)
    (hterm : a.term < c.term) (hn : n ≤ a.idx) (hsig : P.SigAt (s'.tl a.term) n)
    (hheld : s'.HeldBetween ((s'.tl a.term).take n) a.term c.term) : (s'.tl a.term).take n <+: c.log := by
  rcases hg.acks_new a ha with ha | hnew
  · have hlen := (h.ack_le a ha).1
    rw [hg.take_eq (hn.trans hlen)] at hheld ⊢
    rw [sigAt_of_isPrefix (hg.tl_prefix _) (hn.trans hlen)] at hsig
    exact h.cand_kept c hc a ha hnode hterm n hn hsig (hg.heldBetween_back (h.term_le_take _ _) hheld)
  · have := h.cand_view c hc
    rw [hnode] at hnew
    omega

theorem vote_kept_of_grows {vt : Vote ι ε} (hvt : vt ∈ s.votes) (ha : a ∈ s'.acks)
    (hnode : a.node = vt.voter) (hterm : a.term < vt.term) (hn : n ≤ a.idx) (hsig : P.SigAt (s'.tl a.term) n)
    (hheld : s'.HeldBetween ((s'.tl a.term).take n) a.term vt.term)
    (hother : ∀ L, s'.leader vt.term = some L → L ≠ vt.node → (s'.tl a.term).take n <+: s'.tl vt.term) :
    (s'.tl a.term).take n <+: vt.log := by
  rcases hg.acks_new a ha with ha | hnew
  · have hlen := (h.ack_le a ha).1
    rw [hg.take_eq (hn.trans hlen)] at hheld hother ⊢
    rw [sigAt_of_isPrefix (hg.tl_prefix _) (hn.trans hlen)] at hsig
    refine h.vote_kept vt hvt a ha hnode hterm n hn hsig (hg.heldBetween_back (h.term_le_take _ _) hheld) ?_
    intro L hL hne
    exact hg.prefix_back (h.term_le_take _ _) hterm (by simp [hL]) (hother L (hg.leader_eq _ _ hL) hne)
  · have := h.vote_view vt hvt
    rw [hnode] at hnew
    omega

theorem elected_of_grows (hX : s.leader T = some X) : T = P.first ∨ ∃ c ∈ s'.cands, c.term = T ∧
    c.node = X ∧ ∃ S, s'.Supports T X S ∧ P.Quorate c.log c.commit S ∧ c.log.take (P.lastSig c.log) <+: s'.tl T := by
  refine (h.elected T X hX).imp_right ?_
  rintro ⟨c, hc, hterm, hnode, S, hsup, hq, hp⟩
  exact ⟨c, hg.cands_sub hc, hterm, hnode, S, hg.supports_mono hsup, hq, hp.trans (hg.tl_prefix T)⟩

/-- The votes and candidacies of a step that adds none. -/
theorem voteInv_of_grows (hcands : s'.cands = s.cands) (hvotes : s'.votes = s.votes)
    (helected : ∀ T X, s'.leader T = some X → s.leader T = some X ∨ ∃ c ∈ s'.cands, c.term = T ∧ c.node = X ∧
      ∃ S, s'.Supports T X S ∧ P.Quorate c.log c.commit S ∧ c.log.take (P.lastSig c.log) <+: s'.tl T) :
    VoteInv P m s' where
  cand_view c hc := (h.cand_view c (hcands ▸ hc)).trans (hg.view_le _)
  cand_unique c hc c' hc' := h.cand_unique c (hcands ▸ hc) c' (hcands ▸ hc')
  cand_coherent c hc := (h.cand_coherent c (hcands ▸ hc)).mono hg.tl_prefix
  cand_lt c hc := h.cand_lt c (hcands ▸ hc)
  cand_commit c hc := h.cand_commit c (hcands ▸ hc)
  cand_proven hstrict c hc := h.cand_proven_of_grows hg hstrict (hcands ▸ hc)
  cand_kept c hc a ha hnode hterm n hn hsig hheld :=
    h.cand_kept_of_grows hg (hcands ▸ hc) ha hnode hterm hn hsig hheld
  vote_view vt hvt := (h.vote_view vt (hvotes ▸ hvt)).trans (hg.view_le _)
  vote_cand vt hvt := by rw [hcands]; exact h.vote_cand vt (hvotes ▸ hvt)
  vote_coherent vt hvt := (h.vote_coherent vt (hvotes ▸ hvt)).mono hg.tl_prefix
  vote_kept vt hvt a ha hnode hterm n hn hsig hheld hother :=
    h.vote_kept_of_grows hg (hvotes ▸ hvt) ha hnode hterm hn hsig hheld hother
  elected T X hX := by
    rcases helected T X hX with hold | hnew
    · exact h.elected_of_grows hg hold
    · exact .inr hnew
  unique_vote hunique vt hvt vt' hvt' := h.unique_vote hunique vt (hvotes ▸ hvt) vt' (hvotes ▸ hvt')
  unique_cand hunique vt hvt c hc hterm hnode := by
    obtain ⟨L, hL, hrest⟩ := h.unique_cand hunique vt (hvotes ▸ hvt) c (hcands ▸ hc) hterm hnode
    exact ⟨L, hg.leader_eq _ _ hL, hrest⟩

theorem event_of_grows (he : e ∈ s.events) :
    (P.first ≤ e.term ∧ e.base ≤ e.idx ∧ e.idx ≤ e.last ∧ e.last ≤ (s'.tl e.term).length ∧
      P.SigAt (s'.tl e.term) e.idx ∧ P.termAt (s'.tl e.term) e.idx = e.term) ∧
      (∀ q ∈ e.quorum, ∃ a ∈ s'.acks, a.node = q ∧ a.term = e.term ∧ e.idx ≤ a.idx) ∧
      P.Quorate ((s'.tl e.term).take e.last) e.base e.quorum := by
  obtain ⟨hfirst, hbase, hidx, hlen, hsig, hterm⟩ := h.event_bounds e he
  refine ⟨⟨hfirst, hbase, hidx, hlen.trans (hg.tl_prefix _).length_le, ?_, ?_⟩, ?_, ?_⟩
  · exact (sigAt_of_isPrefix (hg.tl_prefix _) (hidx.trans hlen)).2 hsig
  · rw [termAt_of_isPrefix (hg.tl_prefix _) (hidx.trans hlen)]
    exact hterm
  · intro q hq
    obtain ⟨a, ha, hrest⟩ := h.event_acks e he q hq
    exact ⟨a, hg.acks_sub ha, hrest⟩
  · rw [hg.take_eq hlen]
    exact h.event_quorate e he

theorem event_base_of_grows (hstrict : m.strict) (he : e ∈ s.events) : e.base ≤ P.genesis.length ∨
    ∃ e₀ ∈ s'.events, (e₀.term < e.term ∨ e₀.term = e.term ∧ e₀.idx < e.idx) ∧
      (s'.tl e.term).take e.base <+: s'.committed e₀ := by
  obtain ⟨-, hbase, hidx, hlen, -⟩ := h.event_bounds e he
  refine (h.event_base hstrict e he).imp_right ?_
  rintro ⟨e₀, he₀, hless, hp⟩
  refine ⟨e₀, hg.events_sub he₀, hless, ?_⟩
  rw [hg.take_eq (by omega)]
  exact hp.trans ((hg.tl_prefix e₀.term).take e₀.idx)

/-- The commits of a step that commits nothing, when every log keeps what is committed. -/
theorem commitInv_of_grows (hevents : s'.events = s.events) (hcommit : s'.commit = s.commit)
    (hleader : ∀ L, s'.leader (s'.view L) = some L → s'.view L = s.view L ∧ s.leader (s.view L) = some L ∨
      ∀ e ∈ s.events, e.term ≠ s'.view L)
    (hlog : ∀ q, (s.log q).take (s.commit q) <+: s'.log q) : CommitInv P m s' where
  event_bounds e he := (h.event_of_grows hg (hevents ▸ he)).1
  event_acks e he := (h.event_of_grows hg (hevents ▸ he)).2.1
  event_quorate e he := (h.event_of_grows hg (hevents ▸ he)).2.2
  event_base hstrict e he := h.event_base_of_grows hg hstrict (hevents ▸ he)
  event_leader L hL e he hterm := by
    rw [hevents] at he
    rw [hcommit]
    rcases hleader L hL with ⟨hview, hold⟩ | hnone
    · exact h.event_leader L hold e he (by rw [hterm, hview])
    · exact absurd hterm (hnone e he)
  commit_le q := by
    have := (hlog q).length_le
    have hle := h.commit_le q
    rw [List.length_take] at this
    rw [hcommit]
    omega
  commit_proven hstrict q := by
    have hp := List.prefix_iff_eq_take.1 (hlog q)
    have hle := h.commit_le q
    rw [List.length_take, min_eq_left hle] at hp
    rw [hcommit, ← hp]
    refine (hg.committed_mono (h.commit_proven hstrict q)).imp_right ?_
    rintro ⟨e, he, hT, hpre⟩
    exact ⟨e, he, hT.trans (hg.view_le q), hpre⟩

end Inv

end Ccf.SignedRaft
