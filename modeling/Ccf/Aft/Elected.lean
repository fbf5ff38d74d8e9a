import Mathlib.Data.List.Perm.Subperm
import Ccf.Aft.Voting

/-! # Elections need a quorum in every configuration

A candidate counts the votes of its view, each in the configurations of the voter (`Counted`). `Fair` says that an
operation keeps the counts right, and that a node that becomes leader has a majority in every configuration that was
active. -/

namespace Ccf.Aft

open List

/-- The nodes that have voted for node `i` in view `T`, itself included. -/
def votedForIn (i : NodeId) (ops : List Op) (T : ℕ) (n : NodeId) : Bool := n = i || ops.any (grantsVote T n)

/-- More than half of the nodes of a configuration meet `G`. -/
def MajorityOf (G : NodeId → Bool) (c : Configuration) : Prop := c.nodes.length < 2 * (c.nodes.filter G).length

/-! ### Counts -/

variable {l : List (ℕ × Votes)} {v : ℕ × Votes} {a : Aft}

theorem mem_insertVote_of_ne {idx : ℕ} (source : NodeId) (hv : v ∈ l)
    (hne : v.1 ≠ idx) : v ∈ insertVote idx source l := by
  induction l with
  | nil => cases hv
  | cons w l ih =>
    unfold insertVote
    split_ifs with hw
    · rcases mem_cons.1 hv with rfl | hv
      · exact absurd hw hne
      · exact mem_cons_of_mem _ hv
    · rcases mem_cons.1 hv with rfl | hv
      · exact mem_cons_self
      · exact mem_cons_of_mem _ (ih hv)

/-- Two counts have one index: the second gets no votes. -/
def Stuck : List (ℕ × Votes) → Prop
  | [] => False
  | v :: l => (∃ w ∈ l, w.1 = v.1 ∧ w.2.votes = [] ∧ 0 < w.2.quorum) ∨ Stuck l

theorem Stuck.insertVote (h : Stuck l) (idx : ℕ) (source : NodeId) : Stuck (insertVote idx source l) := by
  induction l with
  | nil => cases h
  | cons v l ih =>
    unfold Aft.insertVote
    split_ifs with hv
    · exact h
    · rcases h with ⟨w, hw, heq, hrest⟩ | h
      · exact .inl ⟨w, mem_insertVote_of_ne source hw fun hidx => hv (heq.symm.trans hidx), heq, hrest⟩
      · exact .inr (ih h)

theorem Stuck.exists_empty (h : Stuck l) : ∃ v ∈ l, v.2.votes = [] ∧ 0 < v.2.quorum := by
  induction l with
  | nil => cases h
  | cons v l ih =>
    rcases h with ⟨w, hw, -, hrest⟩ | h
    · exact ⟨w, mem_cons_of_mem _ hw, hrest⟩
    · obtain ⟨w, hw, hrest⟩ := ih h
      exact ⟨w, mem_cons_of_mem _ hw, hrest⟩

theorem stuck_reset {l : List Configuration} (h : ¬(l.map (·.idx)).Nodup) :
    Stuck (l.map fun c => (c.idx, { quorum := getQuorum c.nodes.length, votes := [] })) := by
  induction l with
  | nil => exact h nodup_nil
  | cons d l ih =>
    by_cases hd : d.idx ∈ l.map (·.idx)
    · obtain ⟨c, hc, heq⟩ := mem_map.1 hd
      exact .inl ⟨_, mem_map_of_mem hc, heq, rfl, Nat.succ_pos _⟩
    · exact .inr (ih fun hnodup => h (nodup_cons.2 ⟨hd, hnodup⟩))

/-- The votes of a candidate are counted rightly. No candidate with two configurations of one index is elected. -/
def Campaign (G : NodeId → Bool) (a : Aft) : Prop :=
  Stuck a.votesForMe ∨
    (a.configurations.map (·.idx)).Nodup ∧ ∀ c ∈ a.configurations, Counted (fun n => G n = true) c a.votesForMe

namespace Campaign

variable {G G' : NodeId → Bool} {b : Aft} {c : Configuration}

theorem mono (h : Campaign G a) (hG : ∀ n, G n = true → G' n = true) : Campaign G' a :=
  h.imp_right fun ⟨hnodup, hall⟩ => ⟨hnodup, fun c hc => (hall c hc).mono hG⟩

theorem sublist (h : Campaign G a) (hvotes : b.votesForMe = a.votesForMe)
    (hconfs : b.configurations.Sublist a.configurations) : Campaign G b := by
  unfold Campaign
  rw [hvotes]
  exact h.imp_right fun ⟨hnodup, hall⟩ => ⟨hnodup.sublist (hconfs.map _), fun c hc => hall c (hconfs.subset hc)⟩

theorem of_reset (hvotes : a.votesForMe =
    a.configurations.map fun c => (c.idx, { quorum := getQuorum c.nodes.length, votes := [] })) : Campaign G a := by
  unfold Campaign
  rw [hvotes]
  by_cases hnodup : (a.configurations.map (·.idx)).Nodup
  · exact .inr ⟨hnodup, fun c hc => .of_reset hc fun d hd => inj_on_of_nodup_map hnodup hd hc⟩
  · exact .inl (stuck_reset hnodup)

theorem recordVote (h : Campaign G a) {source : NodeId} (hG : G source = true) : Campaign G (a.recordVote source) := by
  rcases h with hstuck | ⟨hnodup, hall⟩
  · refine .inl ?_
    show Stuck (a.configurations.foldl _ a.votesForMe)
    generalize a.configurations = l
    generalize a.votesForMe = v at hstuck
    induction l generalizing v with
    | nil => exact hstuck
    | cons c l ih =>
      rw [foldl_cons]
      split_ifs
      · exact ih _ (hstuck.insertVote c.idx source)
      · exact ih _ hstuck
  · exact .inr ⟨hnodup, fun c hc => (hall c hc).recordVote hG fun d hd => inj_on_of_nodup_map hnodup hd hc⟩

/-- A candidate that is elected has a majority in every configuration. -/
theorem majority (h : Campaign G a) (helected : a.isElected) (hc : c ∈ a.configurations) :
    MajorityOf G c := by
  rcases h with hstuck | ⟨-, hall⟩
  · obtain ⟨v, hv, hempty, hquorum⟩ := hstuck.exists_empty
    have hmany := helected v hv
    rw [hempty, length_nil] at hmany
    omega
  · obtain ⟨votes, hnodup, hvotes, hmany⟩ := (hall c hc).majority helected
    have hsub : votes ⊆ c.nodes.filter G := fun n hn => mem_filter.2 (hvotes n hn)
    have hle := (subperm_of_subset hnodup hsub).length_le
    unfold MajorityOf
    omega

end Campaign

/-! ### What an operation may do -/

/-- The counts of a candidate are right, and a leader had a majority in all of `confs`, unless `led`. A node whose
retirement is committed is not elected. -/
structure Fair (G : ℕ → NodeId → Bool) (led : Prop) (confs : List Configuration) (a : Aft) : Prop where
  self : ∀ T, G T a.state.nodeId = true
  candidate : a.state.leadershipState = .candidate → ¬a.isRetiredCommitted → Campaign (G a.state.currentView) a
  leader : a.isLeader → led ∨ ∀ c ∈ confs, MajorityOf (G a.state.currentView) c

section

variable {G : ℕ → NodeId → Bool} {led : Prop} {confs : List Configuration} {b a₀ : Aft} {op : Op}

theorem Fair.of_talks (h : Fair G led confs a) (ht : Talks a b) : Fair G led confs b := by
  have hstate := ht.state_eq
  have hvotes : b.votesForMe = a.votesForMe := by
    have hcore := congrArg Aft.votesForMe ht
    exact hcore
  refine ⟨hstate ▸ h.self, fun hcand hret => ?_, fun hlead => ?_⟩
  · rw [isRetiredCommitted, hstate] at hret
    rw [hstate] at hcand ⊢
    exact (h.candidate hcand hret).sublist hvotes (ht.configurations_eq ▸ List.Sublist.refl _)
  · rw [isLeader, hstate] at hlead
    rw [hstate]
    exact h.leader hlead

/-- What works within a view elects nobody. -/
theorem Fair.steady (h : Fair G led confs a) (hs : Steady a b) (hcand : a.state.leadershipState ≠ .candidate) :
    Fair G led confs b := by
  refine ⟨hs.nodeId_eq ▸ h.self, fun hc => ?_, fun hl => ?_⟩
  · rcases hs.role with hr | hr
    · exact absurd (hr.symm.trans hc) hcand
    · cases hr.symm.trans hc
  · rw [hs.view_eq]
    rcases hs.role with hr | hr
    · exact h.leader (hr.symm.trans hl)
    · cases hr.symm.trans hl

/-- A candidate that is elected becomes leader, or retires at once. -/
theorem fair_becomeLeader (hself : ∀ T, G T a.state.nodeId = true)
    (hretired : a.isRetiredCommitted → Fair G led confs a)
    (hmajority : ¬a.isRetiredCommitted → led ∨ ∀ c ∈ confs, MajorityOf (G a.state.currentView) c) :
    Fair G led confs a.becomeLeader.state := by
  unfold becomeLeader
  split_ifs with hret
  · exact hretired hret
  · have hsteady := (works_discardUncommittable a).steady
    refine Fair.steady (a := a.discardUncommittable.takeLeadership) ⟨fun T => ?_, nofun, fun _ => ?_⟩
      (works_startLeadership _).steady nofun
    · show G T a.discardUncommittable.state.nodeId = true
      rw [hsteady.nodeId_eq]
      exact hself T
    · show led ∨ ∀ c ∈ confs, MajorityOf (G a.discardUncommittable.state.currentView) c
      rw [hsteady.view_eq]
      exact hmajority hret

theorem fair_rollback (h : Fair G led confs a) (idx : ℕ) : Fair G led confs (a.rollback idx) := by
  unfold rollback
  split_ifs
  · exact h
  · generalize hs : { a.state with
        lastIdx := idx
        viewHistory := a.state.viewHistory.rollback idx
        committableIndices := a.state.committableIndices.rdropWhile (· > idx) } = s
    obtain ⟨hview, -, -, -, -, hrole, hnode⟩ := rollbackRetirement_log s idx
    have hcut : Fair G led confs { a with
        ledger := a.ledger.take idx
        state := rollbackRetirement s idx
        configurations := a.configurations.rdropWhile (·.idx > idx) } := by
      subst hs
      refine ⟨hnode ▸ h.self, fun hcand hret => ?_, fun hlead => ?_⟩
      · rw [hview]
        refine (h.candidate (hrole.symm.trans hcand) fun hold => hret ?_).sublist rfl ( rdropWhile_prefix _ _).sublist
        simp [isRetiredCommitted, rollbackRetirement, hold]
      · rw [hview]
        exact h.leader (hrole.symm.trans hlead)
    unfold rollbackConfigurations
    dsimp only
    split_ifs
    · exact hcut.of_talks (talks_createAndRemoveNodeState _)
    · exact hcut

/-- **One move.**  The votes of a candidate are counted rightly, and a node that becomes leader, other than by force,
has a majority in every configuration that was active before the operation. -/
theorem Fair.move (h : Fair G led a₀.configurations a) (hm : Move a₀ op a b)
    (hforce : op = .forceBecomePrimary → led) (hgrant : ∀ T n, grantsVote T n op = true → G T n = true) :
    Fair G led a₀.configurations b := by
  cases hm with
  | works hw hrole => exact h.steady hw.steady hrole
  | talks ht hs => exact h.of_talks ht
  | rollback idx => exact fair_rollback h idx
  | wait elapsed => exact ⟨h.self, h.candidate, h.leader⟩
  | newTerm | stepDown | startPreVote => exact ⟨h.self, nofun, nofun⟩
  | startCandidacy draw => exact ⟨h.self, fun _ _ => .of_reset rfl, nofun⟩
  | @recordVote source hvote =>
    refine ⟨h.self, fun hc hret => (h.candidate hc hret).recordVote ?_, h.leader⟩
    rcases hvote hc with rfl | hg
    · exact h.self _
    · exact hgrant _ _ hg
  | elected hrole helected hconfs =>
    exact fair_becomeLeader h.self (fun _ => h) fun hret => .inr fun c hc =>
      (h.candidate hrole hret).majority helected (hconfs ▸ hc)
  | forced hop =>
    exact fair_becomeLeader h.self (fun hret => ⟨h.self, fun _ hnot => absurd hret hnot, fun _ => .inl (hforce hop)⟩)
      fun _ => .inl (hforce hop)

theorem fair_step (h : Fair G led a.configurations a) (hforce : op = .forceBecomePrimary → led)
    (hgrant : ∀ T n, grantsVote T n op = true → G T n = true) : Fair G led a.configurations (a.step op) := by
  have hmoves : ∀ {b}, Moves a op a b → Fair G led a.configurations b := by
    intro b hb
    induction hb with
    | refl => exact h
    | tail _ hm ih => exact ih.move hm hforce hgrant
  have hcourse : ∀ {b}, Course a op a b → Fair G led a.configurations b := by
    intro b hb
    cases hb with
    | moves hb => exact hmoves hb
    | @vote c hc draw source hfree =>
      have hb := hmoves hc
      exact Fair.of_talks (a := c.voteFor draw source) ⟨hb.self, hb.candidate, hb.leader⟩ (talks_send _ _ _)
  exact hcourse (course_step a op)

theorem Fair.mono {G' : ℕ → NodeId → Bool} (h : Fair G True confs a) (hG : ∀ T n, G T n = true → G' T n = true) :
    Fair G' (a.isLeader ∨ led) a.configurations a :=
  ⟨fun T => hG T _ (h.self T), fun hc hret => (h.candidate hc hret).mono (hG _), fun hl => .inl (.inl hl)⟩

end

/-! ### Runs -/

theorem votedForIn_concat (i : NodeId) (ops : List Op) (op : Op) (T : ℕ) (n : NodeId) :
    votedForIn i (ops ++ [op]) T n = (votedForIn i ops T n || grantsVote T n op) := by
  simp [votedForIn, Bool.or_assoc]

/-- What an operation after a run may do. -/
theorem fair_run_step {nodeId : NodeId} {ops : List Op} {led : Prop} {confs : List Configuration}
    (h : Fair (votedForIn nodeId ops) True confs a) {op : Op} (hforce : op = .forceBecomePrimary → led) :
    Fair (votedForIn nodeId (ops ++ [op])) (a.isLeader ∨ led) a.configurations (a.step op) := by
  refine fair_step (h.mono fun T n hn => ?_) (fun heq => .inr (hforce heq)) fun T n hn => ?_
  · rw [votedForIn_concat, hn, Bool.true_or]
  · rw [votedForIn_concat, hn, Bool.or_true]

theorem fair_run (nodeId : NodeId) (preVoteEnabled : Bool) (requestTimeout electionTimeout : ℕ) (ops : List Op) :
    Fair (votedForIn nodeId ops) True []
      (Runs.exec step (init nodeId preVoteEnabled requestTimeout electionTimeout) ops) := by
  induction ops using List.reverseRecOn with
  | nil => exact ⟨fun T => by simp [votedForIn, init], nofun, fun _ => .inl trivial⟩
  | append_singleton ops op ih =>
    rw [Runs.exec_concat]
    have hstep := fair_run_step ih (fun _ : op = .forceBecomePrimary => trivial)
    exact ⟨hstep.self, hstep.candidate, fun _ => .inl trivial⟩

/-- **Elections need a quorum everywhere.**  A node that becomes leader, other than by force, has been granted regular
votes in the view it then leads by more than half of the nodes of each active configuration. -/
theorem elected_by_majorities (nodeId : NodeId) (preVoteEnabled : Bool) (requestTimeout electionTimeout : ℕ)
    (ops : List Op) (op : Op) :
    let a := Runs.exec step (init nodeId preVoteEnabled requestTimeout electionTimeout) ops
    let b := a.step op
    ¬a.isLeader → b.isLeader → op ≠ .forceBecomePrimary →
      ∀ c ∈ a.configurations, MajorityOf (votedForIn nodeId (ops ++ [op]) b.state.currentView) c := by
  intro a b hnot hlead hforce
  have hrun := fair_run nodeId preVoteEnabled requestTimeout electionTimeout ops
  have hnever : op = .forceBecomePrimary → False := hforce
  rcases (fair_run_step hrun hnever).leader hlead with (h | h) | h
  · exact absurd h hnot
  · exact h.elim
  · exact h

/-- Node 1 learns of the configuration of nodes 0, 1 and 2 and becomes a candidate. -/
def candidacy : List Op :=
  [.recvMessage 0 (fun _ => .none) 0 (.appendEntries ⟨2, 0, 2, 0, 2, 2⟩
      [⟨2, ⟨100, false, [0, 1, 2].map fun n => (n, some ⟨.trusted, false⟩), 0, by decide⟩⟩,
        ⟨2, ⟨100, true, [], 0, nodup_nil⟩⟩]),
    .periodic 0 100]

theorem elected_by_majorities_candidacy :
    let a := Runs.exec step (init 1 false 10 100) candidacy
    let vote := Op.recvMessage 0 (fun _ => .none) 2 (.requestVoteResponse ⟨3, true⟩ .regularVote)
    a.state.leadershipState = .candidate ∧ (a.step vote).isLeader ∧ ∀ c ∈ a.configurations,
      MajorityOf (votedForIn 1 (candidacy ++ [vote]) (a.step vote).state.currentView) c :=
  ⟨by decide +kernel, by decide +kernel, elected_by_majorities 1 false 10 100 candidacy _ (by decide +kernel)
    (by decide +kernel) (by rintro ⟨⟩)⟩

end Ccf.Aft
