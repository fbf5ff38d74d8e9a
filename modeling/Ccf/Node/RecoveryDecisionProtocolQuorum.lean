import Mathlib.Data.Fintype.Card
import Ccf.Node.RecoveryDecisionProtocolMoves

/-! # The recovery decision protocol does not fork on the quorum path

A node votes for the node it chose when it stopped gossiping, and for no other: a vote on the wire is backed by the
choice of its sender (`Backed`). Two nodes that open the service by quorum have a vote of a common node, so they are
the same node. A node that stops gossiping without a timeout has heard from all nodes and chooses the greatest. -/

namespace Ccf.Node.RecoveryDecisionProtocol

open RecoveryDecisionProtocol.World List

variable {ν : Type*} [LinearOrder ν]

/-! ### The invariant -/

variable (cfg : Config ν)

/-- The vote of `name` for `a` is on the wire. -/
def Voted (wire : List (Msg ν)) (name a : ν) : Prop := ⟨name, a, .vote⟩ ∈ wire

/-- A node has heard what nodes have sent, and its own votes are for the node it has chosen. -/
structure Backed (wire : List (Msg ν)) (name : ν) (s : Tables ν) : Prop where
  timeoutState : s.timeoutState ≠ .joining
  gossips : ∀ p ∈ s.gossips, p.1 ∈ cfg.expectedLocations ∧ p.2 = cfg.lastRecoveredSignedTxid p.1
  nodup : (s.gossips.map Prod.fst).Nodup
  votes : ∀ v ∈ s.votes, Voted wire v name
  choice : ∀ a, Voted wire name a → s.smState ≠ .gossiping ∧ (s.smState ≠ .joining → s.chosen = some a)

structure Inv (w : World ν) : Prop where
  backed : ∀ name, Backed cfg w.wire name (w.nodes name)
  sources : ∀ m ∈ w.wire, m.source ∈ cfg.expectedLocations
  txids : ∀ m ∈ w.wire, ∀ txid, m.body = .gossip txid → txid = cfg.lastRecoveredSignedTxid m.source
  unique : ∀ v a b, Voted w.wire v a → Voted w.wire v b → a = b
  quorum : ∀ name, (name, .quorum) ∈ w.opened → ∃ votes : Finset ν,
    cfg.expectedLocations.length / 2 + 1 ≤ votes.card ∧ ∀ v ∈ votes, Voted w.wire v name
  state : ∀ p ∈ w.opened, (w.nodes p.1).smState = .opening ∨ (w.nodes p.1).smState = .open
  once : (w.opened.map Prod.fst).Nodup

omit [LinearOrder ν] in
theorem inv_start : Inv cfg start where
  backed _ := ⟨by rintro ⟨⟩, by rintro p ⟨⟩, nodup_nil, by rintro v ⟨⟩, by rintro a ⟨⟩⟩
  sources := by rintro m ⟨⟩
  txids := by rintro m ⟨⟩
  unique := by rintro v a b ⟨⟩
  quorum := by rintro name ⟨⟩
  state := by rintro p ⟨⟩
  once := nodup_nil

variable {cfg} {w : World ν} {source : ν} {body : Body} {s' s : Tables ν}

section
variable {name : ν} (h : Inv cfg w) {x : Event ν}
include h

/-- New tables of a node that does not open the service. -/
theorem Inv.set (hbacked : Backed cfg w.wire name s)
    (hstate : (w.nodes name).smState = .opening ∨ (w.nodes name).smState = .open →
      s.smState = .opening ∨ s.smState = .open) :
    Inv cfg (w.set name s) := by
  refine ⟨fun j => ?_, h.sources, h.txids, h.unique, h.quorum, fun p hp => ?_, h.once⟩
  · by_cases hj : j = name
    · subst hj
      rw [nodes_set_self]
      exact hbacked
    · rw [nodes_set_of_ne w hj]
      exact h.backed j
  · by_cases hj : p.1 = name
    · rw [hj, nodes_set_self]
      exact hstate (hj ▸ h.state p hp)
    · rw [nodes_set_of_ne w hj]
      exact h.state p hp

theorem Inv.opens {kind : OpenKind} (hbacked : Backed cfg w.wire name s) (hstate : (w.nodes name).smState = .voting)
    (hopening : s.smState = .opening)
    (hquorum : kind = .quorum → cfg.expectedLocations.length / 2 + 1 ≤ s.votes.card) :
    Inv cfg ((w.set name s).open name kind) := by
  have hset := h.set hbacked (by rw [hstate]; rintro (⟨⟨⟩⟩ | ⟨⟨⟩⟩))
  refine ⟨hset.backed, h.sources, h.txids, h.unique, fun j hj => ?_,
    forall_mem_append.2 ⟨hset.state, forall_mem_singleton.2
      (.inl (hopening ▸ congrArg Tables.smState (w.nodes_set_self name s)))⟩, ?_⟩
  · rcases mem_append.1 hj with hj | hj
    · exact h.quorum j hj
    · cases mem_singleton.1 hj
      exact ⟨s.votes, hquorum rfl, hbacked.votes⟩
  · show ((w.opened ++ [(name, kind)]).map Prod.fst).Nodup
    rw [map_append]
    refine nodup_append.2 ⟨h.once, nodup_singleton _, ?_⟩
    rintro a ha _ hb rfl
    obtain ⟨p, hp, rfl⟩ := mem_map.1 ha
    have hp' := h.state p hp
    rw [mem_singleton.1 hb, hstate] at hp'
    rcases hp' with ⟨⟨⟩⟩ | ⟨⟨⟩⟩

theorem Inv.advance (name : ν) (timeout : Bool) :
    Inv cfg (w.commit name (advance cfg.expectedLocations.length (w.nodes name) timeout)) := by
  have hb := h.backed name
  cases hadvance : RecoveryDecisionProtocol.advance cfg.expectedLocations.length (w.nodes name) timeout with
  | error e => exact h
  | ok result =>
    obtain ⟨s, kind⟩ := result
    cases advances_of_advance hb.timeoutState hadvance with
    | stay t ht =>
      exact h.set ⟨ht, hb.gossips, hb.nodup, hb.votes, hb.choice⟩ id
    | choose t ht r hstate hgreatest hcause =>
      refine h.set ⟨ht, hb.gossips, hb.nodup, hb.votes, fun a ha => ?_⟩ (by rw [hstate]; rintro (⟨⟨⟩⟩ | ⟨⟨⟩⟩))
      exact absurd hstate (hb.choice a ha).1
    | opens t ht kind hstate hquorum =>
      refine h.opens ⟨ht, hb.gossips, hb.nodup, hb.votes, fun a ha => ⟨by rintro ⟨⟩, fun _ => ?_⟩⟩ hstate rfl hquorum
      exact (hb.choice a ha).2 (by rw [hstate]; rintro ⟨⟩)
    | complete t ht hstate =>
      refine h.set ⟨ht, hb.gossips, hb.nodup, hb.votes, fun a ha => ⟨by rintro ⟨⟩, fun _ => ?_⟩⟩ fun _ => .inr rfl
      exact (hb.choice a ha).2 (by rw [hstate]; rintro ⟨⟩)

/-- The callback of an endpoint runs on a message that was sent. -/
theorem Inv.handle (hmsg : ⟨source, name, body⟩ ∈ w.wire)
    (hs : handle { w.nodes name with nodes := insert source (w.nodes name).nodes } source body = .ok s) :
    Inv cfg (w.set name s) := by
  have hb := h.backed name
  cases body with
  | gossip txid =>
    cases hchosen : (w.nodes name).chosen with
    | some a => simp [handle, hchosen] at hs
    | none =>
      have hchoice := hb.choice
      rw [hchosen] at hchoice
      simp only [handle, hchosen] at hs
      split_ifs at hs with hmem
      · cases hs
        exact h.set ⟨hb.timeoutState, hb.gossips, hb.nodup, hb.votes, hchoice⟩ id
      · cases hs
        refine h.set ⟨hb.timeoutState, forall_mem_append.2 ⟨hb.gossips, forall_mem_singleton.2
          ⟨h.sources _ hmsg, h.txids _ hmsg txid rfl⟩⟩, ?_, hb.votes, hchoice⟩ id
        · rw [map_append]
          refine nodup_append.2 ⟨hb.nodup, nodup_singleton _, ?_⟩
          rintro a ha _ ha' rfl
          rw [mem_singleton.1 ha'] at ha
          exact hmem ha
  | vote =>
    cases hs
    refine h.set ⟨hb.timeoutState, hb.gossips, hb.nodup, fun v hv => ?_, hb.choice⟩ id
    rcases Finset.mem_insert.1 hv with rfl | hv
    · exact hmsg
    · exact hb.votes v hv
  | iamopen =>
    simp only [handle] at hs
    split_ifs at hs with hopen
    cases hs
    refine h.set ⟨hb.timeoutState, hb.gossips, hb.nodup, hb.votes, fun a ha => ⟨by rintro ⟨⟩, fun hjoin => ?_⟩⟩
      fun hopen' => absurd hopen' hopen
    exact absurd rfl hjoin

theorem Inv.prepared {timeout : Bool} (hs : Prepared w x name timeout s) : Inv cfg (w.set name s) := by
  cases hs with
  | receive msg s hmsg hs => exact h.handle hmsg hs
  | timeout => exact h.set (h.backed name) id

theorem Inv.retry (hname : name ∈ cfg.expectedLocations) :
    Inv cfg { w with wire := w.wire ++ retry cfg name (w.nodes name) } := by
  have hvoted : ∀ v a, Voted (w.wire ++ RecoveryDecisionProtocol.retry cfg name (w.nodes name)) v a →
      Voted w.wire v a ∨ v = name ∧ (w.nodes name).smState = .voting ∧ (w.nodes name).chosen = some a := by
    intro v a hv
    rcases mem_append.1 hv with hv | hv
    · exact .inl hv
    · obtain ⟨hsource, ⟨⟨⟩⟩ | ⟨⟨⟩⟩ | ⟨-, hchoice⟩⟩ := mem_retry hv
      exact .inr ⟨hsource, hchoice⟩
  -- what a voting node sends is the choice that backs its earlier votes
  have hchoice : ∀ v a, Voted (w.wire ++ RecoveryDecisionProtocol.retry cfg name (w.nodes name)) v a →
      (w.nodes v).smState ≠ .gossiping ∧ ((w.nodes v).smState ≠ .joining → (w.nodes v).chosen = some a) := by
    intro v a hv
    rcases hvoted v a hv with hv | ⟨rfl, hstate, hchosen⟩
    · exact (h.backed v).choice a hv
    · rw [hstate]
      exact ⟨by rintro ⟨⟩, fun _ => hchosen⟩
  refine ⟨fun j => ?_, fun m hm => ?_, fun m hm => ?_, fun v a b ha hb => ?_, fun j hj => ?_, h.state, h.once⟩
  · have hb := h.backed j
    exact ⟨hb.timeoutState, hb.gossips, hb.nodup, fun v hv => mem_append_left _ (hb.votes v hv), hchoice j⟩
  · rcases mem_append.1 hm with hm | hm
    · exact h.sources m hm
    · rw [(mem_retry hm).1]
      exact hname
  · rcases mem_append.1 hm with hm | hm
    · exact h.txids m hm
    · obtain ⟨hsource, hbody | hbody | ⟨hbody, -⟩⟩ := mem_retry hm
      · rintro txid htxid
        rw [hbody] at htxid
        rw [hsource]
        exact (Body.gossip.inj htxid).symm
      · rintro txid htxid
        rw [hbody] at htxid
        cases htxid
      · rintro txid htxid
        rw [hbody] at htxid
        cases htxid
  · rcases hvoted v a ha with ha' | ⟨rfl, hstate, hchosen⟩
    · rcases hvoted v b hb with hb' | ⟨rfl, hstate, hchosen⟩
      · exact h.unique v a b ha' hb'
      · have := (hchoice v a ha).2 (by rw [hstate]; rintro ⟨⟩)
        exact Option.some.inj (this.symm.trans hchosen)
    · have := (hchoice v b hb).2 (by rw [hstate]; rintro ⟨⟩)
      exact Option.some.inj (hchosen.symm.trans this)
  · obtain ⟨votes, hcard, hvotes⟩ := h.quorum j hj
    exact ⟨votes, hcard, fun v hv => mem_append_left _ (hvotes v hv)⟩

theorem Inv.next (x : Event ν) : Inv cfg (step cfg w x) := by
  rcases step_cases cfg w x with hstep | ⟨name, hname, hstep⟩ | ⟨name, timeout, s, s', kind, hs, hadvance, hstep⟩
  · rw [hstep]
    exact h
  · rw [hstep]
    exact h.retry hname
  · have hnext := (h.prepared hs).advance name timeout
    rw [nodes_set_self, hadvance, commit_set] at hnext
    rw [hstep]
    exact hnext

end

/-! ### The greatest node -/

section
variable (cfg)

/-- `a` has the greatest rank of all nodes. -/
def Best (a : ν) : Prop :=
  a ∈ cfg.expectedLocations ∧ ∀ j ∈ cfg.expectedLocations,
    rank j (cfg.lastRecoveredSignedTxid j) ≤ rank a (cfg.lastRecoveredSignedTxid a)

/-- The step is a timeout that makes a node leave its gossiping before it has heard from all nodes. -/
def GossipTimeout (w : World ν) : Event ν → Prop
  | .timeout name => (w.nodes name).smState = .gossiping ∧ (w.nodes name).timeoutState = .gossiping ∧
      (w.nodes name).gossips ≠ [] ∧ (w.nodes name).gossips.length < cfg.expectedLocations.length
  | _ => False

/-- Votes are for the greatest node. -/
structure VotesBest (w : World ν) : Prop where
  choice : ∀ name, (w.nodes name).smState = .voting → ∀ a ∈ (w.nodes name).chosen, Best cfg a
  votes : ∀ v a, Voted w.wire v a → Best cfg a

end

section
variable {name : ν} {r : ℕ ×ₗ ℕ ×ₗ ν}

/-- A node that has heard from all nodes chooses the greatest. -/
theorem Backed.best_of_full (h : Backed cfg w.wire name s) (hfull : cfg.expectedLocations.length ≤ s.gossips.length)
    (hr : Greatest s.gossips r) : Best cfg (nameOf r) := by
  have hsubset : s.gossips.map Prod.fst ⊆ cfg.expectedLocations := by
    intro a ha
    obtain ⟨p, hp, rfl⟩ := mem_map.1 ha
    exact (h.gossips p hp).1
  have hperm := (h.nodup.subperm hsubset).perm_of_length_le (by rwa [length_map])
  obtain ⟨⟨p, hp, rfl⟩, hle⟩ := hr
  obtain ⟨hname, htxid⟩ := h.gossips p hp
  refine ⟨hname, fun j hj => ?_⟩
  obtain ⟨q, hq, rfl⟩ := mem_map.1 (hperm.mem_iff.2 hj)
  have hq' := hle q hq
  rw [htxid, (h.gossips q hq).2] at hq'
  exact hq'

/-- The callbacks of the endpoints make no choice. -/
theorem voting_of_handle (hs : handle s source body = .ok s')
    (hstate : s'.smState = .voting) : s.smState = .voting ∧ s'.chosen = s.chosen := by
  cases body with
  | gossip txid =>
    cases hchosen : s.chosen with
    | some a => simp [handle, hchosen] at hs
    | none =>
      simp only [handle, hchosen] at hs
      split_ifs at hs
      · cases hs
        exact ⟨hstate, hchosen⟩
      · cases hs
        exact ⟨hstate, rfl⟩
  | vote =>
    cases hs
    exact ⟨hstate, rfl⟩
  | iamopen =>
    simp only [handle] at hs
    split_ifs at hs
    cases hs
    cases hstate

theorem VotesBest.next (hbest : VotesBest cfg w) (h : Inv cfg w) (x : Event ν) (hx : ¬GossipTimeout cfg w x) :
    VotesBest cfg (step cfg w x) := by
  rcases step_cases cfg w x with hstep | ⟨name, hname, hstep⟩ | ⟨name, timeout, s, s', kind, hs, hadvance, hstep⟩
  · rw [hstep]
    exact hbest
  · rw [hstep]
    refine ⟨hbest.choice, fun v a hv => ?_⟩
    rcases mem_append.1 hv with hv | hv
    · exact hbest.votes v a hv
    · obtain ⟨-, ⟨⟨⟩⟩ | ⟨⟨⟩⟩ | ⟨-, hstate, hchosen⟩⟩ := mem_retry hv
      exact hbest.choice name hstate a hchosen
  · have hbacked := (h.prepared hs).backed name
    rw [nodes_set_self] at hbacked
    have hprepared : s.smState = .voting → ∀ a ∈ s.chosen, Best cfg a := by
      cases hs with
      | receive msg s hmsg hs =>
        intro hstate a ha
        obtain ⟨hstate', hchosen⟩ := voting_of_handle hs hstate
        exact hbest.choice _ hstate' a (hchosen ▸ ha)
      | timeout => exact hbest.choice name
    rw [hstep]
    refine ⟨fun j hj a ha => ?_, fun v a hv => hbest.votes v a (by rwa [wire_commit] at hv)⟩
    by_cases hne : j = name
    · subst hne
      rw [nodes_commit_self] at hj ha
      cases advances_of_advance hbacked.timeoutState hadvance with
      | stay t ht => exact hprepared hj a ha
      | choose t ht r hstate hgreatest hcause =>
        cases ha
        refine hbacked.best_of_full ?_ hgreatest
        rcases hcause with hfull | ⟨htimeout, htimeoutState⟩
        · exact hfull
        · -- the timeout was not used, so all nodes have been heard
          cases hs with
          | receive msg s hmsg hs => cases htimeout
          | timeout =>
            by_contra hlt
            obtain ⟨⟨p, hp, -⟩, -⟩ := hgreatest
            exact hx ⟨hstate, htimeoutState, ne_nil_of_mem hp, not_le.1 hlt⟩
      | opens t ht kind hstate hquorum => cases hj
      | complete t ht hstate => cases hj
    · rw [nodes_commit_of_ne hne] at hj ha
      exact hbest.choice j hj a ha

end

/-! ### Joining nodes -/

theorem joining_of_handle (hs : handle s source body = .ok s')
    (hstate : s.smState = .joining) : s'.smState = .joining := by
  cases body with
  | gossip txid =>
    simp only [handle] at hs
    cases hchosen : s.chosen with
    | some a => simp [hchosen] at hs
    | none =>
      simp only [hchosen] at hs
      split_ifs at hs
      · cases hs
        exact hstate
      · cases hs
        exact hstate
  | vote =>
    cases hs
    exact hstate
  | iamopen =>
    simp only [handle] at hs
    split_ifs at hs
    cases hs
    rfl

/-- How a node opened the service, if it did. -/
def World.openings (w : World ν) (name : ν) : List (ν × OpenKind) := w.opened.filter (·.1 = name)

theorem joining_next (h : Inv cfg w) {name : ν} (hjoining : (w.nodes name).smState = .joining)
    (x : Event ν) : ((step cfg w x).nodes name).smState = .joining ∧
      (step cfg w x).openings name = w.openings name := by
  rcases step_cases cfg w x with hstep | ⟨j, hj, hstep⟩ | ⟨j, timeout, s, s', kind, hs, hadvance, hstep⟩
  · rw [hstep]
    exact ⟨hjoining, rfl⟩
  · rw [hstep]
    exact ⟨hjoining, rfl⟩
  · rw [hstep]
    by_cases hne : name = j
    · subst hne
      have hbacked := (h.prepared hs).backed name
      rw [nodes_set_self] at hbacked
      have hstate : s.smState = .joining := by
        cases hs with
        | receive msg s hmsg hs => exact joining_of_handle hs hjoining
        | timeout => exact hjoining
      rw [nodes_commit_self]
      cases advances_of_advance hbacked.timeoutState hadvance with
      | stay t ht => exact ⟨hstate, rfl⟩
      | choose t ht r hstate' | opens t ht kind hstate' | complete t ht hstate' => rw [hstate] at hstate'; cases hstate'
    · rw [nodes_commit_of_ne hne]
      refine ⟨hjoining, ?_⟩
      cases kind with
      | none => rfl
      | some kind => simp [World.openings, World.commit, World.open, World.set, Ne.symm hne]

/-! ### The contract -/

variable (cfg) {i j : ν}

theorem inv_run (events : List (Event ν)) : Inv cfg (run cfg events) :=
  Runs.exec_induction (I := Inv cfg) (fun _ x h _ => h.next x) (inv_start cfg) (Runs.along_true _ _)

/-- Two nodes that have majorities of votes are the same. -/
theorem Inv.quorum_unique (h : Inv cfg w) (hi : (i, .quorum) ∈ w.opened)
    (hj : (j, .quorum) ∈ w.opened) : i = j := by
  obtain ⟨votes, hcard, hvotes⟩ := h.quorum i hi
  obtain ⟨votes', hcard', hvotes'⟩ := h.quorum j hj
  have hsubset : votes ⊆ cfg.expectedLocations.toFinset := fun v hv => mem_toFinset.2 (h.sources _ (hvotes v hv))
  have hsubset' : votes' ⊆ cfg.expectedLocations.toFinset :=
    fun v hv => mem_toFinset.2 (h.sources _ (hvotes' v hv))
  have hlocations := toFinset_card_of_nodup cfg.nodup
  obtain ⟨v, hv⟩ := Finset.inter_nonempty_of_card_lt_card_add_card hsubset hsubset' (by omega)
  obtain ⟨hv, hv'⟩ := Finset.mem_inter.1 hv
  exact h.unique v i j (hvotes v hv) (hvotes' v hv')

theorem Inv.quorum_once (h : Inv cfg w) : (w.opened.filter (·.2 = .quorum)).length ≤ 1 := by
  have hnodup : ((w.opened.filter (·.2 = .quorum)).map Prod.fst).Nodup :=
    h.once.sublist (filter_sublist.map Prod.fst)
  have hmem : ∀ p ∈ w.opened.filter (·.2 = .quorum), (p.1, OpenKind.quorum) ∈ w.opened := by
    rintro ⟨name, kind⟩ hp
    obtain ⟨hp, hkind⟩ := mem_filter.1 hp
    obtain rfl := of_decide_eq_true hkind
    exact hp
  rcases hl : w.opened.filter (·.2 = .quorum) with _ | ⟨p, _ | ⟨q, rest⟩⟩
  · rw [hl]
    exact Nat.zero_le 1
  · rw [hl]
    exact Nat.le_refl 1
  · rw [hl] at hnodup hmem
    have heq := h.quorum_unique cfg (hmem p mem_cons_self) (hmem q (by simp))
    simp [heq] at hnodup

/-- **Nodes vote once**, no vote or gossip is made up, and no node opens the service twice. -/
theorem votes_once (events : List (Event ν)) :
    let w := run cfg events
    (∀ m ∈ w.wire, ∀ m' ∈ w.wire, m.body = .vote → m'.body = .vote → m.source = m'.source → m.target = m'.target) ∧
      (w.opened.map Prod.fst).Nodup ∧ ∀ name, (∀ v ∈ (w.nodes name).votes, ⟨v, name, .vote⟩ ∈ w.wire) ∧
        ∀ p ∈ (w.nodes name).gossips, p.1 ∈ cfg.expectedLocations ∧ p.2 = cfg.lastRecoveredSignedTxid p.1 := by
  have h := inv_run cfg events
  refine ⟨?_, h.once, fun name => ⟨(h.backed name).votes, (h.backed name).gossips⟩⟩
  rintro ⟨v, a, _⟩ hm ⟨_, b, _⟩ hm' rfl rfl rfl
  exact h.unique v a b hm hm'

/-- **The protocol does not fork on the quorum path**: at most one node opens by quorum, a joining node never opens,
and if no timeout ends gossiping, the node that opens by quorum is the greatest. -/
theorem opens_once_by_quorum (events : List (Event ν)) :
    ((run cfg events).opened.filter (·.2 = .quorum)).length ≤ 1 ∧
      (∀ name, ((run cfg events).nodes name).smState = .joining → ∀ later,
        ((run cfg (events ++ later)).nodes name).smState = .joining ∧
          (run cfg (events ++ later)).openings name = (run cfg events).openings name) ∧
      (Runs.Along (step cfg) (fun w x => ¬GossipTimeout cfg w x) .start events →
        ∀ name, (name, .quorum) ∈ (run cfg events).opened → Best cfg name) := by
  have hinv := inv_run cfg events
  refine ⟨hinv.quorum_once cfg, fun name hjoining later => ?_, fun hgossip name hname => ?_⟩
  · induction later using List.reverseRecOn with
    | nil => simpa using hjoining
    | append_singleton later x ih =>
      obtain ⟨hstate, hopenings⟩ := joining_next (inv_run cfg (events ++ later)) ih.1 x
      rw [← append_assoc, run, Runs.exec_concat]
      exact ⟨hstate, hopenings.trans ih.2⟩
  · have hbest : Inv cfg (run cfg events) ∧ VotesBest cfg (run cfg events) :=
      Runs.exec_induction (I := fun w => Inv cfg w ∧ VotesBest cfg w)
        (fun _ x h hx => ⟨h.1.next x, h.2.next h.1 x hx⟩)
        ⟨inv_start cfg, by rintro name ⟨⟩, by rintro v a ⟨⟩⟩ hgossip
    obtain ⟨votes, hcard, hvotes⟩ := hinv.quorum name hname
    obtain ⟨v, hv⟩ := Finset.card_pos.1 (by omega : 0 < votes.card)
    exact hbest.2.votes v name (hvotes v hv)

instance (w : World ν) (x : Event ν) : Decidable (GossipTimeout cfg w x) := by
  cases x <;> unfold GossipTimeout <;> infer_instance

/-- Three nodes, of which the second one has recovered the greatest transaction. -/
def threeNodes : Config ℕ where
  expectedLocations := [0, 1, 2]
  nodup := by decide
  lastRecoveredSignedTxid := fun name => if name = 1 then ⟨2, 12⟩ else if name = 0 then ⟨2, 10⟩ else ⟨1, 40⟩

/-- All nodes gossip, two of them vote, the second node opens the service and the first one joins it. -/
def threeNodesEvents : List (Event ℕ) :=
  [.retry 0, .retry 1, .retry 2] ++
    (([0, 1, 2].product [0, 1]).map fun p => .deliver ⟨p.1, p.2, .gossip (threeNodes.lastRecoveredSignedTxid p.1)⟩) ++
    [.retry 0, .retry 1, .deliver ⟨0, 1, .vote⟩, .deliver ⟨0, 1, .vote⟩, .deliver ⟨1, 1, .vote⟩, .retry 1,
      .deliver ⟨1, 0, .iamopen⟩, .timeout 0]

theorem opens_once_by_quorum_threeNodes :
    (run threeNodes threeNodesEvents).opened = [(1, .quorum)] ∧ Best threeNodes 1 ∧
      ∀ later, ((run threeNodes (threeNodesEvents ++ later)).nodes 0).smState = .joining := by
  have hopened : (run threeNodes threeNodesEvents).opened = [(1, .quorum)] := by decide +kernel
  obtain ⟨-, hjoining, hbest⟩ := opens_once_by_quorum threeNodes threeNodesEvents
  refine ⟨hopened, hbest (by decide +kernel) 1 (by rw [hopened]; simp), fun later => ?_⟩
  exact (hjoining 0 (by decide +kernel) later).1

end Ccf.Node.RecoveryDecisionProtocol
