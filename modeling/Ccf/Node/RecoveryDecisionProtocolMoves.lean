import Ccf.Node.RecoveryDecisionProtocol

/-! # The moves of the recovery decision protocol

The loop over the gossips finds the greatest (`greatest_of_maximum`). `advance` makes one of four moves
(`advances_of_advance`), and a step of the system changes nothing, sends what `retry` gives, or commits a move
(`step_cases`). -/

namespace Ccf.Node.RecoveryDecisionProtocol

open List

open Kv (TxID)

variable {ν : Type*} [LinearOrder ν]

/-! ### The greatest gossip -/

section
variable {gossips : List (ν × TxID)} {r : ℕ ×ₗ ℕ ×ₗ ν}

/-- `r` is the rank of one of the gossips and is not below another. -/
def Greatest (gossips : List (ν × TxID)) (r : ℕ ×ₗ ℕ ×ₗ ν) : Prop :=
  (∃ p ∈ gossips, r = rank p.1 p.2) ∧ ∀ p ∈ gossips, rank p.1 p.2 ≤ r

theorem maximum_concat (gossips : List (ν × TxID)) (p : ν × TxID) : maximum (gossips ++ [p]) =
    some (match maximum gossips with
      | none => rank p.1 p.2
      | some r => if r < rank p.1 p.2 then rank p.1 p.2 else r) := by
  unfold maximum
  rw [foldl_append, foldl_cons, foldl_nil]
  cases List.foldl _ none gossips with
  | none => rfl
  | some r =>
    simp only
    split_ifs <;> rfl

theorem maximum_eq_none (h : maximum gossips = none) : gossips = [] := by
  rcases eq_nil_or_concat gossips with rfl | ⟨l, p, rfl⟩
  · rfl
  · rw [concat_eq_append, maximum_concat] at h
    cases h

theorem greatest_of_maximum (h : maximum gossips = some r) : Greatest gossips r := by
  induction gossips using List.reverseRecOn generalizing r with
  | nil => cases h
  | append_singleton l p ih =>
    rw [maximum_concat, Option.some.injEq] at h
    cases hl : maximum l with
    | none =>
      rw [hl] at h
      obtain rfl := maximum_eq_none hl
      subst h
      exact ⟨⟨p, by simp, rfl⟩, by simp⟩
    | some r' =>
      obtain ⟨⟨q, hq, hrank⟩, hle⟩ := ih hl
      simp only [hl] at h
      split_ifs at h with hlt
      · subst h
        refine ⟨⟨p, by simp, rfl⟩, fun x hx => ?_⟩
        rcases mem_append.1 hx with hx | hx
        · exact (hle x hx).trans hlt.le
        · rw [mem_singleton.1 hx]
      · subst h
        refine ⟨⟨q, mem_append_left _ hq, hrank⟩, fun x hx => ?_⟩
        rcases mem_append.1 hx with hx | hx
        · exact hle x hx
        · rw [mem_singleton.1 hx]
          exact not_lt.1 hlt

end

/-! ### What `advance` does -/

/-- The four moves of a node. The timeout state machine is never joining. -/
inductive Advances (n : ℕ) (s : Tables ν) (timeout : Bool) : Tables ν → Option OpenKind → Prop
  | stay (t : StateMachine) (ht : t ≠ .joining) : Advances n s timeout { s with timeoutState := t } none
  | choose (t : StateMachine) (ht : t ≠ .joining) (r : ℕ ×ₗ ℕ ×ₗ ν) (state : s.smState = .gossiping)
      (greatest : Greatest s.gossips r)
      (cause : n ≤ s.gossips.length ∨ timeout = true ∧ s.timeoutState = .gossiping) :
      Advances n s timeout { s with timeoutState := t, chosen := some (nameOf r), smState := .voting } none
  | opens (t : StateMachine) (ht : t ≠ .joining) (kind : OpenKind) (state : s.smState = .voting)
      (quorum : kind = .quorum → n / 2 + 1 ≤ s.votes.card) :
      Advances n s timeout { s with timeoutState := t, openKind := some kind, smState := .opening } (some kind)
  | complete (t : StateMachine) (ht : t ≠ .joining) (state : s.smState = .opening) :
      Advances n s timeout { s with timeoutState := t, smState := .open } none

section
variable {n : ℕ} {s s' : Tables ν} {timeout : Bool} {kind : Option OpenKind} {t : StateMachine}

omit [LinearOrder ν] in
theorem exists_advanceTimeout (timeout : Bool) (ht : t ≠ .joining) :
    ∃ t' ≠ StateMachine.joining, ∀ s : Tables ν, s.timeoutState = t →
      advanceTimeout timeout s = { s with timeoutState := t' } := by
  cases timeout with
  | false => exact ⟨t, ht, by rintro s rfl; rfl⟩
  | true =>
    cases t with
    | gossiping => exact ⟨.voting, by decide, fun s hs => by simp [advanceTimeout, hs]⟩
    | voting => exact ⟨.opening, by decide, fun s hs => by simp [advanceTimeout, hs]⟩
    | opening => exact ⟨.opening, by decide, by rintro ⟨⟩ ⟨⟩; rfl⟩
    | joining => exact absurd rfl ht
    | «open» => exact ⟨.open, by decide, by rintro ⟨⟩ ⟨⟩; rfl⟩

theorem advances_of_advance (ht : s.timeoutState ≠ .joining) (h : advance n s timeout = .ok (s', kind)) :
    Advances n s timeout s' kind := by
  obtain ⟨t, ht', hadvance⟩ := exists_advanceTimeout (ν := ν) timeout ht
  have hstay : Except.ok (advanceTimeout timeout s, none) = (.ok (s', kind) : Except (Error ν) _) →
      Advances n s timeout s' kind := by
    rw [hadvance s rfl]
    rintro ⟨⟩
    exact .stay t ht'
  unfold advance at h
  cases hstate : s.smState with
  | gossiping =>
    simp only [hstate] at h
    split_ifs at h with hcause
    · cases hmax : maximum s.gossips with
      | none =>
        rw [hmax] at h
        cases h
      | some r =>
        simp only [hmax, hadvance { s with chosen := some (nameOf r), smState := .voting } rfl] at h
        cases h
        refine .choose t ht' r hstate (greatest_of_maximum hmax) (hcause.imp id fun hvalid => ?_)
        simp only [Bool.and_eq_true, decide_eq_true_eq] at hvalid
        exact ⟨hvalid.1, hvalid.2.symm⟩
    · exact hstay h
  | voting =>
    simp only [hstate] at h
    split_ifs at h with hcause hnone hkind
    · cases h
      exact .stay _ ht
    · simp only [hadvance { s with openKind := some .failover, smState := .opening } rfl] at h
      cases h
      exact .opens t ht' .failover hstate (by rintro ⟨⟩)
    · simp only [hadvance { s with openKind := some .quorum, smState := .opening } rfl] at h
      cases h
      refine .opens t ht' .quorum hstate fun _ => ?_
      by_contra hquorum
      exact hkind ⟨hcause.resolve_left (by simpa using hquorum), by simpa using hquorum⟩
    · exact hstay h
  | joining =>
    -- the state machines differ, so the timeout is not valid
    have hvalid : (timeout && decide (StateMachine.joining = s.timeoutState)) = false := by
      simp [ht.symm]
    simp only [hstate, hvalid, Bool.false_eq_true, if_false] at h
    cases hchosen : s.chosen with
    | none =>
      rw [hchosen] at h
      cases h
    | some name =>
      simp only [hchosen] at h
      split_ifs at h
      exact hstay h
  | opening =>
    simp only [hstate] at h
    split_ifs at h
    · simp only [hadvance { s with smState := .open } rfl] at h
      cases h
      exact .complete t ht' hstate
    · exact hstay h
  | «open» =>
    simp only [hstate] at h
    exact hstay h

end

/-! ### What a step does -/

section
variable (cfg : Config ν) (w : World ν)

/-- The tables a node advances from: those its callback leaves, or its own on a timeout. -/
inductive Prepared : Event ν → ν → Bool → Tables ν → Prop
  | receive (msg : Msg ν) (s : Tables ν) (sent : msg ∈ w.wire)
      (handled : handle { w.nodes msg.target with nodes := insert msg.source (w.nodes msg.target).nodes } msg.source
        msg.body = .ok s) : Prepared (.deliver msg) msg.target false s
  | timeout (name : ν) : Prepared (.timeout name) name true (w.nodes name)

/-- A step changes nothing, sends, or commits what a node does. -/
theorem step_cases (x : Event ν) : step cfg w x = w ∨
    (∃ name ∈ cfg.expectedLocations, step cfg w x = { w with wire := w.wire ++ retry cfg name (w.nodes name) }) ∨
    ∃ name timeout s s' kind, Prepared w x name timeout s ∧
      advance cfg.expectedLocations.length s timeout = .ok (s', kind) ∧
        step cfg w x = w.commit name (.ok (s', kind)) := by
  cases x with
  | retry name =>
    by_cases hname : name ∈ cfg.expectedLocations
    · exact .inr (.inl ⟨name, hname, by simp only [step, if_pos hname]⟩)
    · exact .inl (by simp only [step, if_neg hname])
  | deliver msg =>
    by_cases hmsg : msg ∈ w.wire
    · simp only [step, if_pos hmsg, receive]
      cases hs : handle { w.nodes msg.target with nodes := insert msg.source (w.nodes msg.target).nodes } msg.source
          msg.body with
      | error e => exact .inl rfl
      | ok s =>
        cases hadvance : advance cfg.expectedLocations.length s false with
        | error e =>
          refine .inl ?_
          show w.commit msg.target (advance cfg.expectedLocations.length s false) = w
          rw [hadvance]
          rfl
        | ok result =>
          refine .inr (.inr ⟨_, _, s, result.1, result.2, .receive msg s hmsg hs, hadvance, ?_⟩)
          show w.commit msg.target (advance cfg.expectedLocations.length s false) = _
          rw [hadvance]
    · exact .inl (by simp only [step, if_neg hmsg])
  | timeout name =>
    by_cases hname : name ∈ cfg.expectedLocations
    · simp only [step, if_pos hname]
      cases hadvance : advance cfg.expectedLocations.length (w.nodes name) true with
      | error e => exact .inl rfl
      | ok result => exact .inr (.inr ⟨_, _, _, result.1, result.2, .timeout name, hadvance, rfl⟩)
    · exact .inl (by simp only [step, if_neg hname])

variable {w} {name j : ν} {m : Msg ν}

theorem commit_set (s s' : Tables ν) (kind : Option OpenKind) :
    (w.set name s).commit name (.ok (s', kind)) = w.commit name (.ok (s', kind)) := by
  cases kind with
  | none | some kind => simp [World.commit, World.set]

theorem nodes_commit_self (s : Tables ν) (kind : Option OpenKind) :
    (w.commit name (.ok (s, kind))).nodes name = s := by
  cases kind <;> exact w.nodes_set_self name s

theorem nodes_commit_of_ne (hj : j ≠ name) (s : Tables ν) (kind : Option OpenKind) :
    (w.commit name (.ok (s, kind))).nodes j = w.nodes j := by
  cases kind <;> exact w.nodes_set_of_ne hj s

theorem wire_commit (s : Tables ν) (kind : Option OpenKind) : (w.commit name (.ok (s, kind))).wire = w.wire := by
  cases kind <;> rfl

variable {cfg} in
theorem mem_retry {s : Tables ν} (hm : m ∈ retry cfg name s) : m.source = name ∧
    (m.body = .gossip (cfg.lastRecoveredSignedTxid name) ∨ m.body = .iamopen ∨
      m.body = .vote ∧ s.smState = .voting ∧ s.chosen = some m.target) := by
  have hgossip : m ∈ gossipTo cfg name → m.source = name ∧ m.body = .gossip (cfg.lastRecoveredSignedTxid name) := by
    intro hm
    obtain ⟨target, -, rfl⟩ := mem_map.1 hm
    exact ⟨rfl, rfl⟩
  unfold retry at hm
  cases hstate : s.smState with
  | gossiping =>
    rw [hstate] at hm
    exact ⟨(hgossip hm).1, .inl (hgossip hm).2⟩
  | voting =>
    cases hchosen : s.chosen with
    | none => simp [hstate, hchosen] at hm
    | some chosen =>
      simp only [hstate, hchosen] at hm
      split_ifs at hm
      · rcases mem_cons.1 hm with rfl | hm
        · exact ⟨rfl, .inr (.inr ⟨rfl, rfl, rfl⟩)⟩
        · exact ⟨(hgossip hm).1, .inl (hgossip hm).2⟩
      · cases hm
  | opening =>
    rw [hstate] at hm
    obtain ⟨target, -, rfl⟩ := mem_map.1 hm
    exact ⟨rfl, .inr (.inl rfl)⟩
  | joining =>
    rw [hstate] at hm
    cases hm
  | «open» =>
    rw [hstate] at hm
    cases hm

end

end Ccf.Node.RecoveryDecisionProtocol
