import Ccf.Network.Safety

/-! # Election safety

A node that has granted a regular vote in its view has recorded it, and does not grant it to anyone else as long as it
does not forget it. Candidates forget their vote when they are handed a batch of their own view, and the vote is then
theirs to give again when the batch is rejected: the run `revoting` has two leaders in one view. -/

namespace Ccf

open SignedRaft ViewHistory

set_option maxRecDepth 10000

variable {w : World} {i : NodeId} {x : Action}

namespace World

/-! ### One action -/

/-- How the votes of the nodes change, where `forgets` says which nodes may forget theirs. -/
structure Polls (forgets : NodeId → Prop) (w w' : World) : Prop where
  view_le : ∀ i, (w.nodes i).state.currentView ≤ (w'.nodes i).state.currentView
  kept : ∀ i, (w'.nodes i).state.currentView = (w.nodes i).state.currentView → ∀ n, (w.nodes i).votedFor = some n →
    (w'.nodes i).votedFor = some n ∨ forgets i
  granted : ∀ p ∈ w'.sent, p ∈ w.sent ∨ (Aft.isGrant p.msg = true → (w'.nodes p.src).votedFor = some p.dst ∧
    ∃ r : RequestVoteResponse, p.msg = .requestVoteResponse r .regularVote ∧
      r.term = (w'.nodes p.src).state.currentView)

/-- The node is handed a batch that makes it lose its vote. -/
def Unvotes (w : World) (x : Action) (i : NodeId) : Prop :=
  ∃ src k draw faults r data, x = .deliver src i k draw faults ∧
    (w.channels src i)[k]? = some (.appendEntries r data) ∧ (w.nodes i).Unvotes r

theorem polls_refl (forgets : NodeId → Prop) (w : World) : Polls forgets w w :=
  ⟨fun _ => le_rfl, fun _ _ _ hn => .inl hn, fun _ hp => .inl hp⟩

section
variable (hempty : ∀ i, (w.nodes i).outbox = [])
include hempty

theorem polls_act {op : Aft.Op}
    {forgets : NodeId → Prop} (hforgets : (w.nodes i).Forgets op → forgets i) : Polls forgets w (w.act i op) := by
  have h := (Aft.ballot_step (w.nodes i) op).mono hforgets
  refine ⟨fun j => ?_, fun j hview n hn => ?_, fun p hp => ?_⟩
  · by_cases hj : j = i
    · subst hj
      rw [nodes_act]
      exact h.view_le
    · rw [nodes_act_of_ne _ hj]
  · by_cases hj : j = i
    · subst hj
      rw [nodes_act] at hview ⊢
      exact h.kept hview n hn
    · rw [nodes_act_of_ne _ hj]
      exact .inl hn
  · refine (List.mem_append.1 hp).imp_right fun hp hgrant => ?_
    obtain ⟨q, hq, rfl⟩ := List.mem_map.1 hp
    have hmem : q ∈ ((w.nodes i).step op).grants := List.mem_filter.2 ⟨hq, hgrant⟩
    have hnone : (w.nodes i).grants = [] := by
      unfold Aft.grants
      rw [hempty i]
      rfl
    have hnew := (h.granted q hmem).resolve_left (by simp [hnone])
    rw [nodes_act]
    exact hnew

theorem polls_step (x : Action) : Polls (w.Unvotes x) w (w.step x) := by
  cases x with
  | deliver src dst k draw faults =>
    cases hmsg : (w.channels src dst)[k]? with
    | none =>
      rw [step_deliver_none hmsg]
      exact polls_refl _ w
    | some msg =>
      rw [step_deliver hmsg]
      have hforgets : (w.nodes dst).Forgets (.recvMessage draw faults src msg) →
          w.Unvotes (.deliver src dst k draw faults) dst := by
        cases msg with
        | appendEntries r data => exact fun hu => ⟨src, k, draw, faults, r, data, rfl, hmsg, hu⟩
        | _ => exact fun hu => hu.elim
      have hact := polls_act (w := w.take src dst k) hempty hforgets
      exact ⟨hact.view_le, hact.kept, hact.granted⟩
  | drop src dst k => exact ⟨fun _ => le_rfl, fun _ _ _ hn => .inl hn, fun _ hp => .inl hp⟩
  | _ => exact polls_act hempty fun hu => hu.elim

theorem outbox_step (x : Action) (i : NodeId) : ((w.step x).nodes i).outbox = [] := by
  rcases nodes_step w x i with heq | ⟨-, op, heq⟩
  · rw [heq, hempty i]
  · rw [heq]

end

/-! ### Runs -/

/-- The granted regular votes of every node are recorded. -/
structure Polled (w : World) : Prop where
  outbox : ∀ i, (w.nodes i).outbox = []
  granted : ∀ p ∈ w.sent, ∀ r : RequestVoteResponse, p.msg = .requestVoteResponse r .regularVote →
    r.voteGranted = true → r.term ≤ (w.nodes p.src).state.currentView ∧
      (r.term = (w.nodes p.src).state.currentView → (w.nodes p.src).votedFor = some p.dst)
  unique : ∀ p ∈ w.sent, ∀ q ∈ w.sent, ∀ r r' : RequestVoteResponse, p.src = q.src →
    p.msg = .requestVoteResponse r .regularVote → q.msg = .requestVoteResponse r' .regularVote →
    r.voteGranted = true → r'.voteGranted = true → r.term = r'.term → p.dst = q.dst

/-- **A step that forgets no vote for another node keeps the records.** -/
theorem Polled.step (h : w.Polled)
    (hkeeps : ∀ i n, w.Unvotes x i → (w.nodes i).votedFor = some n → n = i) (hsent : ∀ p ∈ w.sent, p.src ≠ p.dst) :
    (w.step x).Polled := by
  have hpolls := polls_step h.outbox x
  have hnew : ∀ p ∈ (w.step x).sent, ∀ r : RequestVoteResponse, p.msg = .requestVoteResponse r .regularVote →
      r.voteGranted = true → p ∈ w.sent ∨
        r.term = ((w.step x).nodes p.src).state.currentView ∧ ((w.step x).nodes p.src).votedFor = some p.dst := by
    intro p hp r hmsg hgrant
    refine (hpolls.granted p hp).imp_right fun hnew => ?_
    obtain ⟨hvoted, r', hmsg', hterm⟩ := hnew (by rw [hmsg]; exact hgrant)
    rw [hmsg] at hmsg'
    cases hmsg'
    exact ⟨hterm, hvoted⟩
  have hgranted : ∀ p ∈ (w.step x).sent, ∀ r : RequestVoteResponse, p.msg = .requestVoteResponse r .regularVote →
      r.voteGranted = true → r.term ≤ ((w.step x).nodes p.src).state.currentView ∧
        (r.term = ((w.step x).nodes p.src).state.currentView → ((w.step x).nodes p.src).votedFor = some p.dst) := by
    intro p hp r hmsg hgrant
    rcases hnew p hp r hmsg hgrant with hold | ⟨hterm, hvoted⟩
    · obtain ⟨hle, heq⟩ := h.granted p hold r hmsg hgrant
      refine ⟨hle.trans (hpolls.view_le _), fun hterm => ?_⟩
      have hbefore := hpolls.view_le p.src
      have hvoted := heq (by omega)
      refine (hpolls.kept p.src (by omega) _ hvoted).resolve_right fun hforgets => ?_
      exact hsent p hold (hkeeps _ _ hforgets hvoted).symm
    · exact ⟨hterm.le, fun _ => hvoted⟩
  refine ⟨outbox_step h.outbox x, hgranted, fun p hp q hq r r' hsrc hmsg hmsg' hgrant hgrant' hterm => ?_⟩
  -- two old votes are known to agree, and a new one is the vote the node has now
  rcases hnew p hp r hmsg hgrant with hpold | ⟨hview, hvoted⟩
  · rcases hnew q hq r' hmsg' hgrant' with hqold | ⟨hview, hvoted⟩
    · exact h.unique p hpold q hqold r r' hsrc hmsg hmsg' hgrant hgrant' hterm
    · have hp' := (hgranted p hp r hmsg hgrant).2 (by rw [hterm, hview, hsrc])
      rw [hsrc, hvoted] at hp'
      exact (Option.some.inj hp').symm
  · have hq' := (hgranted q hq r' hmsg' hgrant').2 (by rw [← hterm, hview, hsrc])
    rw [← hsrc, hvoted] at hq'
    exact Option.some.inj hq'

theorem Polled.start (g : Genesis) (c : Setup) : (g.start c).Polled := by
  refine ⟨fun i => ?_, nofun, nofun⟩
  by_cases hi : i = g.primary
  · subst hi
    obtain ⟨size, count, batchSize, window, -, hnode⟩ := g.nodes_start c
    rw [hnode]
    rfl
  · have hnode : (g.start c).nodes i = c.init i := Function.update_of_ne hi _ _
    rw [hnode]
    rfl

/-- A node that voted for itself in `T` has granted no vote in `T`. -/
structure Selfish (i : NodeId) (T : ℕ) (w : World) : Prop where
  voted : T < (w.nodes i).state.currentView ∨
    T = (w.nodes i).state.currentView ∧ (w.nodes i).votedFor = some i
  ungranted : ∀ p ∈ w.sent, p.src = i → ∀ r : RequestVoteResponse, p.msg = .requestVoteResponse r .regularVote →
    r.voteGranted = true → r.term ≠ T

theorem Selfish.step {T : ℕ} (h : w.Selfish i T) (hw : w.Polled)
    (hkeeps : w.Unvotes x i → (w.nodes i).votedFor = none) (hsent : ∀ p ∈ (w.step x).sent, p.src ≠ p.dst) :
    (w.step x).Selfish i T := by
  have hpolls := polls_step hw.outbox x
  have hle := hpolls.view_le i
  have hvoted : T < ((w.step x).nodes i).state.currentView ∨
      T = ((w.step x).nodes i).state.currentView ∧ ((w.step x).nodes i).votedFor = some i := by
    rcases h.voted with hlt | ⟨heq, hself⟩
    · exact .inl (by omega)
    · rcases eq_or_lt_of_le hle with hsame | hlt
      · refine .inr ⟨by omega, (hpolls.kept i hsame.symm i hself).resolve_right fun hu => ?_⟩
        rw [hkeeps hu] at hself
        cases hself
      · exact .inl (by omega)
  refine ⟨hvoted, fun p hp hsrc r hmsg hgrant hterm => ?_⟩
  rcases hpolls.granted p hp with hold | hnew
  · exact h.ungranted p hold hsrc r hmsg hgrant hterm
  · obtain ⟨hdst, r', hmsg', hview⟩ := hnew (by rw [hmsg]; exact hgrant)
    rw [hmsg] at hmsg'
    cases hmsg'
    rw [hsrc] at hdst hview
    have hself := (hvoted.resolve_left (by omega)).2
    rw [hself] at hdst
    exact hsent p hp (hsrc.trans (Option.some.inj hdst))

/-- No candidate that has voted is handed a batch of its own view. -/
def KeepsOwnVotes : World → Action → Prop := OnBatch fun a _ r _ => ¬(a.Unvotes r ∧ a.votedFor ≠ none)

theorem Unvotes.of_onBatch (h : w.Unvotes x i)
    {P : Aft → (ℕ → Fault) → AppendEntries → List Entry → Prop} (hP : w.OnBatch P x) :
    ∃ faults r data, (w.nodes i).Unvotes r ∧ P (w.nodes i) faults r data := by
  obtain ⟨src, k, draw, faults, r, data, rfl, hmsg, hu⟩ := h
  exact ⟨faults, r, data, hu, hP r data hmsg⟩

end World

variable {g : Genesis} {c : Setup} {xs : List Action}

/-- A world that follows the protocol, with all votes on record. -/
def OnRecord (g : Genesis) (w : World) : Prop := w.Polled ∧ ∃ s, Follows g faithfulMode s w

theorem OnRecord.step (h : OnRecord g w) (hp : w.Permitted faithfulMode x) : OnRecord g (w.step x) := by
  obtain ⟨hpolled, s, hs⟩ := h
  obtain ⟨s', -, hs'⟩ := hs.step hp
  refine ⟨hpolled.step (fun i n hu hn => ?_) fun p hp => (hs.sent p hp).1, s', hs'⟩
  obtain ⟨-, r, -, ⟨hterm, hrole⟩, hkeeps⟩ := hu.of_onBatch (hp.votes trivial)
  by_contra hne
  refine hkeeps ⟨hterm, hrole, n, hn, ?_⟩
  rw [(hs.nodes i).nodeId_eq]
  exact hne

theorem onRecord_start (g : Genesis) (c : Setup) : OnRecord g (g.start c) :=
  ⟨World.Polled.start g c, _, .start trivial⟩

theorem OnRecord.run (h : OnRecord g w) (hp : Runs.Along World.step (World.Permitted faithfulMode) w xs) :
    OnRecord g (w.run xs) :=
  Runs.exec_induction (fun _ _ hw hx => hw.step hx) h hp

/-- A node that has voted for itself in its view never grants a vote in it. -/
theorem OnRecord.selfish (h : OnRecord g w)
    (hp : Runs.Along World.step (fun w x => w.Permitted faithfulMode x ∧ w.KeepsOwnVotes x) w xs)
    (hself : (w.nodes i).votedFor = some i) : (w.run xs).Selfish i (w.nodes i).state.currentView := by
  have hstart : w.Selfish i (w.nodes i).state.currentView := by
    obtain ⟨hpolled, s, hs⟩ := h
    refine ⟨.inr ⟨rfl, hself⟩, fun p hp hsrc r hmsg hgrant hterm => ?_⟩
    have hvoted := (hpolled.granted p hp r hmsg hgrant).2 (hsrc ▸ hterm)
    rw [hsrc, hself] at hvoted
    exact (hs.sent p hp).1 (hsrc.trans (Option.some.inj hvoted))
  refine (Runs.exec_induction (I := fun w' => OnRecord g w' ∧ w'.Selfish i (w.nodes i).state.currentView)
    (fun w' x hw hx => ?_) ⟨h, hstart⟩ hp).2
  obtain ⟨hrec, hselfish⟩ := hw
  have hrec' := hrec.step hx.1
  refine ⟨hrec', hselfish.step hrec.1 (fun hu => ?_) fun p hp => (hrec'.2.choose_spec.sent p hp).1⟩
  obtain ⟨-, r, -, hu', hkeeps⟩ := hu.of_onBatch hx.2
  by_contra hne
  exact hkeeps ⟨hu', hne⟩

/-- **Election safety.**  In a run in which no node forgets its vote for another node, commits entries behind a batch
or is left with a view history behind its log, no view has two leaders and no node grants a regular vote to two
candidates in one view, nor beside its own if no candidate is handed a batch of a view it has voted in. -/
theorem election_safety (g : Genesis) (c : Setup) (xs : List Action)
    (hrun : Runs.Along World.step (fun w x => w.Fits x ∧ w.KeepsVotes x ∧ w.CommitsWithinBatch x ∧ w.KeepsViews x)
      (g.start c) xs) :
    (g.start c).OneLeader xs ∧
    (∀ p ∈ ((g.start c).run xs).sent, ∀ q ∈ ((g.start c).run xs).sent, ∀ r r' : RequestVoteResponse, p.src = q.src →
      p.msg = .requestVoteResponse r .regularVote → q.msg = .requestVoteResponse r' .regularVote →
      r.voteGranted = true → r'.voteGranted = true → r.term = r'.term → p.dst = q.dst) ∧
    (Runs.Along World.step World.KeepsOwnVotes (g.start c) xs →
      ∀ p ∈ ((g.start c).run xs).sent, ∀ r : RequestVoteResponse, p.msg = .requestVoteResponse r .regularVote →
        r.voteGranted = true → ∀ n,
        ¬((((g.start c).run (xs.take n)).nodes p.src).votedFor = some p.src ∧
          (((g.start c).run (xs.take n)).nodes p.src).state.currentView = r.term)) := by
  have hp := World.permitted_faithful hrun
  have hstart : Follows g faithfulMode (g.proto.initial g.primary) (g.start c) := .start trivial
  refine ⟨?_, ((onRecord_start g c).run hp).1.unique, fun hown p hmem r hmsg hgrant n => ?_⟩
  · have hfixed : ∀ n k L L', n ≤ k → (((g.start c).run (xs.take n)).nodes L).isLeader →
        (((g.start c).run (xs.take k)).nodes L').isLeader →
        (((g.start c).run (xs.take n)).nodes L).state.currentView =
          (((g.start c).run (xs.take k)).nodes L').state.currentView → L = L' := by
      intro n k L L' hnk hlead hlead' hview
      obtain ⟨s₁, s₂, hl, h₁, h₂⟩ := hstart.points hp hnk
      have hL := hl.leader_eq _ _ ((h₁.nodes L).tells.speaks hlead).leader_eq
      have hL' := ((h₂.nodes L').tells.speaks hlead').leader_eq
      rw [hview, hL'] at hL
      exact (Option.some.inj hL).symm
    rintro T L L' ⟨n, hlead, rfl⟩ ⟨k, hlead', hview⟩
    rcases le_total n k with hnk | hkn
    · exact hfixed n k L L' hnk hlead hlead' hview.symm
    · exact (hfixed k n L' L hkn hlead' hlead hview).symm
  · rintro ⟨hself, hview⟩
    have hboth : Runs.Along World.step (fun w x => w.Permitted faithfulMode x ∧ w.KeepsOwnVotes x) (g.start c) xs := by
      rw [Runs.along_iff] at hp hown ⊢
      exact fun n x hx => ⟨hp n x hx, hown n x hx⟩
    rw [← List.take_append_drop n xs, Runs.along_append] at hboth
    have hrec := (onRecord_start g c).run (hp.take n)
    have hselfish := hrec.selfish hboth.2 hself
    rw [← List.take_append_drop n xs, World.run, Runs.exec_append] at hmem
    exact hselfish.ungranted p hmem rfl r hmsg hgrant hview.symm

theorem election_safety_electing :
    (((service.start (timeouts [])).run (electing.map Move.action)).nodes 1).isLeader ∧
      (service.start (timeouts [])).OneLeader (electing.map Move.action) :=
  ⟨by decide +kernel, (election_safety service (timeouts []) (electing.map Move.action) (by decide +kernel)).1⟩

section

open Move

/-- Node 2 votes for node 0 in view 3, becomes a pre-vote candidate, rejects the first batch of node 0 and votes
for node 1 in the same view. -/
def revoting : List Move :=
  joining ++
    [write 0 [(5, dataTx 1000 1), (6, signTx)] 2, tick 0 100, tick 0 100, drop 0 1, drop 0 1, drop 0 1,
      drop 0 2, drop 0 2,
      tick 1 100, deliver 0 2, deliver 2 0, tick 2 100, drop 1 0, deliver 0 2, deliver 1 2, drop 2 1, deliver 2 1]

end

theorem not_election_safety :
    ¬∀ (g : Genesis) (c : Setup) (xs : List Action), (∀ x ∈ xs, x.Fifo ∧ x.Applies) →
      Runs.Along World.step World.Fits (g.start c) xs → (g.start c).OneLeader xs := by
  intro h
  have heq := h service (timeouts [2]) (revoting.map Move.action) (Move.fifo_applies _) (by decide +kernel) 3 0 1
    ⟨100, by decide +kernel, by decide +kernel⟩ ⟨100, by decide +kernel, by decide +kernel⟩
  cases heq

end Ccf
