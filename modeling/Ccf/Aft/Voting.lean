import Ccf.Aft.Moves

/-! # The votes of a node

A node votes for itself when it becomes a candidate, and for another node when it grants a regular vote. Everything
else it does within a view leaves its vote and the votes it has granted alone (`SameVote`). `Ballot` says what an
operation may do: a node that stays in its view keeps its vote, unless it is a candidate that is handed a batch of
that view, and every vote it grants is recorded. -/

namespace Ccf.Aft

open List

variable {a b : Aft}

namespace SameVote

variable {c : Aft}

theorem refl (a : Aft) : SameVote a a := ⟨rfl, rfl, rfl⟩

theorem trans (hab : SameVote a b) (hbc : SameVote b c) : SameVote a c :=
  ⟨hbc.view_eq.trans hab.view_eq, hbc.voted_eq.trans hab.voted_eq, hbc.grants_eq.trans hab.grants_eq⟩

end SameVote

/-! ### Counts -/

theorem lookup_insertVote (idx k : ℕ) (source : NodeId) (l : List (ℕ × Votes)) : (insertVote idx source l).lookup k =
      if k = idx then
        some { (l.lookup idx).getD ⟨0, []⟩ with votes := ((l.lookup idx).getD ⟨0, []⟩).votes.insert source }
      else l.lookup k := by
  induction l with
  | nil =>
    rw [insertVote, Assoc.lookup_cons_eq]
    simp
  | cons v l ih =>
    unfold insertVote
    by_cases hv : v.1 = idx
    · subst hv
      rw [if_pos rfl, Assoc.lookup_cons_eq, Assoc.lookup_cons_eq, Assoc.lookup_cons_eq, if_pos rfl]
      split_ifs <;> simp
    · rw [if_neg hv, Assoc.lookup_cons_eq, Assoc.lookup_cons_eq, Assoc.lookup_cons_eq, ih, if_neg (Ne.symm hv)]
      split_ifs with h1 h2
      · exact absurd (h1.symm.trans h2) hv
      · rfl
      · rfl
      · rfl

/-- The count of a configuration has its quorum, and votes of its nodes that meet `G`. -/
def Counted (G : NodeId → Prop) (c : Configuration) (l : List (ℕ × Votes)) : Prop :=
  ∃ v, l.lookup c.idx = some v ∧ v.quorum = getQuorum c.nodes.length ∧ v.votes.Nodup ∧ ∀ n ∈ v.votes, n ∈ c.nodes ∧ G n

namespace Counted

variable {G G' : NodeId → Prop} {c d : Configuration} {l : List (ℕ × Votes)} {source : NodeId}

theorem mono (h : Counted G c l) (hG : ∀ n, G n → G' n) : Counted G' c l := by
  obtain ⟨v, hv, hquorum, hnodup, hvotes⟩ := h
  exact ⟨v, hv, hquorum, hnodup, fun n hn => ⟨(hvotes n hn).1, hG n (hvotes n hn).2⟩⟩

theorem of_reset {confs : List Configuration} (hc : c ∈ confs) (hone : ∀ d ∈ confs, d.idx = c.idx → d = c) :
    Counted G c (confs.map fun c => (c.idx, { quorum := getQuorum c.nodes.length, votes := [] })) := by
  induction confs with
  | nil => cases hc
  | cons d confs ih =>
    unfold Counted
    rw [map_cons, Assoc.lookup_cons_eq]
    by_cases hd : c.idx = d.idx
    · obtain rfl := hone d mem_cons_self hd.symm
      rw [if_pos rfl]
      exact ⟨_, rfl, rfl, nodup_nil, nofun⟩
    · rw [if_neg hd]
      refine ih ((mem_cons.1 hc).resolve_left fun heq => hd (heq ▸ rfl)) fun d hd => ?_
      exact hone d (mem_cons_of_mem _ hd)

theorem insertVote (h : Counted G c l) (hG : G source) (hd : source ∈ d.nodes)
    (hcd : d.idx = c.idx → d = c) : Counted G c (insertVote d.idx source l) := by
  obtain ⟨v, hv, hquorum, hnodup, hvotes⟩ := h
  unfold Counted
  rw [lookup_insertVote]
  split_ifs with hidx
  · obtain rfl := hcd hidx.symm
    rw [hv, Option.getD_some]
    refine ⟨_, rfl, hquorum, hnodup.insert, fun n hn => ?_⟩
    rcases mem_insert_iff.1 hn with rfl | hn
    · exact ⟨hd, hG⟩
    · exact hvotes n hn
  · exact ⟨v, hv, hquorum, hnodup, hvotes⟩

theorem recordVote (h : Counted G c a.votesForMe) (hG : G source)
    (hone : ∀ d ∈ a.configurations, d.idx = c.idx → d = c) : Counted G c (a.recordVote source).votesForMe := by
  show Counted G c (a.configurations.foldl _ a.votesForMe)
  generalize a.configurations = confs at hone
  generalize a.votesForMe = l at h
  induction confs generalizing l with
  | nil => exact h
  | cons d confs ih =>
    have hrest : ∀ d ∈ confs, d.idx = c.idx → d = c := fun d hd => hone d (mem_cons_of_mem _ hd)
    rw [foldl_cons]
    split_ifs with hin
    · exact ih hrest _ (h.insertVote hG hin (hone d mem_cons_self))
    · exact ih hrest _ h

/-- More than half of the nodes of a configuration have voted for a node that is elected. -/
theorem majority (h : Counted G c a.votesForMe) (helected : a.isElected) :
    ∃ votes : List NodeId, votes.Nodup ∧ (∀ n ∈ votes, n ∈ c.nodes ∧ G n) ∧ c.nodes.length < 2 * votes.length := by
  obtain ⟨v, hv, hquorum, hnodup, hvotes⟩ := h
  have hmany : v.quorum ≤ v.votes.length := helected _ (Assoc.mem_of_lookup hv)
  rw [hquorum, getQuorum] at hmany
  exact ⟨v.votes, hnodup, hvotes, by omega⟩

end Counted

/-! ### Elections -/

theorem sameVote_becomeLeader (a : Aft) : SameVote a a.becomeLeader.state := by
  unfold becomeLeader
  split_ifs
  · exact SameVote.refl a
  · refine SameVote.trans (works_discardUncommittable a).steady.toSameVote
      (SameVote.trans (b := a.discardUncommittable.takeLeadership) ⟨rfl, rfl, rfl⟩ ?_)
    exact (works_startLeadership _).steady.toSameVote

/-! ### What an operation may do -/

/-- How the votes of a node change: `forgets` says when a vote may be lost within a view. -/
structure Ballot (forgets : Prop) (a b : Aft) : Prop where
  view_le : a.state.currentView ≤ b.state.currentView
  kept : b.state.currentView = a.state.currentView → ∀ n, a.votedFor = some n → b.votedFor = some n ∨ forgets
  granted : ∀ p ∈ b.grants, p ∈ a.grants ∨ b.votedFor = some p.1 ∧
    ∃ r : RequestVoteResponse, p.2 = .requestVoteResponse r .regularVote ∧ r.term = b.state.currentView

variable {forgets : Prop}

theorem Ballot.mono {forgets' : Prop} (h : Ballot forgets a b) (himp : forgets → forgets') : Ballot forgets' a b :=
  ⟨h.view_le, fun heq n hn => (h.kept heq n hn).imp_right himp, h.granted⟩

variable {a₀ : Aft} {op : Op}

/-- A move grants no vote, and within a view only the batches of it make the node lose its own. -/
theorem Move.kept (h : Move a₀ op a b) : b.grants = a.grants ∧ (a.state.currentView < b.state.currentView ∨
    b.state.currentView = a.state.currentView ∧ (b.votedFor = a.votedFor ∨ a₀.Forgets op)) := by
  have hsame : ∀ {c d : Aft}, SameVote c d → d.grants = c.grants ∧ (c.state.currentView < d.state.currentView ∨
      d.state.currentView = c.state.currentView ∧ (d.votedFor = c.votedFor ∨ a₀.Forgets op)) :=
    fun hs => ⟨hs.grants_eq, .inr ⟨hs.view_eq, .inl hs.voted_eq⟩⟩
  cases h with
  | works h hrole => exact hsame h.steady.toSameVote
  | talks ht hs => exact hsame hs.toSameVote
  | rollback idx => exact hsame (works_rollback a idx).steady.toSameVote
  | newTerm draw h => exact ⟨rfl, h.imp_right fun h => ⟨h.1.symm, .inr h.2⟩⟩
  | startCandidacy draw => exact ⟨rfl, .inl (Nat.lt_succ_self _)⟩
  | elected hrole helected hconfs => exact hsame (sameVote_becomeLeader a)
  | forced h =>
    have hlead := sameVote_becomeLeader { a with state.currentView := a.state.currentView + startingViewChange }
    refine ⟨hlead.grants_eq, .inl ?_⟩
    rw [hlead.view_eq]
    exact Nat.lt_add_of_pos_right (by decide)
  | wait | stepDown | startPreVote | recordVote => exact hsame ⟨rfl, rfl, rfl⟩

theorem Moves.ballot (h : Moves a₀ op a b) : Ballot (a₀.Forgets op) a b ∧ b.grants = a.grants := by
  induction h with
  | refl => exact ⟨⟨le_rfl, fun _ _ hn => .inl hn, fun _ hp => .inl hp⟩, rfl⟩
  | @tail b c _ hbc ih =>
    obtain ⟨hb, hgrants⟩ := ih
    obtain ⟨hsame, hview⟩ := hbc.kept
    have hle := hb.view_le
    refine ⟨⟨by omega, fun heq n hn => ?_, fun p hp => .inl (hgrants ▸ hsame ▸ hp)⟩, hsame.trans hgrants⟩
    obtain ⟨hstay, hvote⟩ := hview.resolve_left (by omega)
    rcases hvote with hvote | hforgets
    · rw [hvote]
      exact hb.kept (hstay.symm.trans heq) n hn
    · exact .inr hforgets

theorem Course.ballot (h : Course a₀ op a b) : Ballot (a₀.Forgets op) a b := by
  cases h with
  | moves h => exact h.ballot.1
  | @vote b h draw source hfree =>
    obtain ⟨hb, hgrants⟩ := h.ballot
    refine ⟨hb.view_le, fun heq n hn => ?_, fun p hp => ?_⟩
    · refine (hb.kept heq n hn).imp_left fun hn => ?_
      rw [hfree n hn]
      rfl
    · unfold sendRequestVoteResponse at hp
      rw [grants_send, mem_append] at hp
      rcases hp with hp | hp
      · exact .inl (hgrants ▸ hp)
      · obtain rfl := mem_singleton.1 hp
        exact .inr ⟨rfl, _, rfl, rfl⟩

/-- **What an operation may do to the votes of a node.** -/
theorem ballot_step (a : Aft) (op : Op) : Ballot (a.Forgets op) a (a.step op) := (course_step a op).ballot

end Ccf.Aft
