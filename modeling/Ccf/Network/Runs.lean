import Ccf.Network.Founding

/-! # Runs of the network

`Follows s w` says that every node of the world is related to the state `s` of the protocol, and that every message
under way is justified by it. Each action that is `Permitted` is a number of steps of the protocol (`Follows.step`,
`Follows.run`). -/

namespace Ccf

open List Function SignedRaft ViewHistory

/-! ### What actions do -/

variable {faults : ℕ → Fault} {r : AppendEntries} {data : List Entry} {i src dst : NodeId} {x : Action}

namespace World

variable {w : World}

theorem step_deliver {k : ℕ} {draw : ℕ} {msg : Msg} (h : (w.channels src dst)[k]? = some msg) :
    w.step (.deliver src dst k draw faults) = (w.take src dst k).act dst (.recvMessage draw faults src msg) := by
  simp only [step, h]

theorem step_deliver_none {k : ℕ} {draw : ℕ}
    (h : (w.channels src dst)[k]? = none) : w.step (.deliver src dst k draw faults) = w := by
  simp only [step, h]

variable (w : World) {j : NodeId}

@[simp] theorem nodes_act (i : NodeId) (op : Aft.Op) :
    (w.act i op).nodes i = { (w.nodes i).step op with outbox := [] } :=
  update_self _ _ _

theorem nodes_act_of_ne (h : j ≠ i) (op : Aft.Op) : (w.act i op).nodes j = w.nodes j :=
  update_of_ne h _ _

theorem nodes_step (x : Action) (i : NodeId) : (w.step x).nodes i = w.nodes i ∨
    x.actor = some i ∧ ∃ op, (w.step x).nodes i = { (w.nodes i).step op with outbox := [] } := by
  have hact : ∀ (w : World) (j : NodeId) (op : Aft.Op), (w.act j op).nodes i = w.nodes i ∨
      some j = some i ∧ ∃ op', (w.act j op).nodes i = { (w.nodes i).step op' with outbox := [] } := by
    intro w j op
    by_cases hij : i = j
    · subst hij
      exact .inr ⟨rfl, op, nodes_act w i op⟩
    · exact .inl (nodes_act_of_ne w hij op)
  cases x with
  | deliver src dst k draw faults =>
    cases hmsg : (w.channels src dst)[k]? with
    | none => exact .inl (by rw [step_deliver_none hmsg])
    | some msg =>
      rw [step_deliver hmsg]
      exact hact (w.take src dst k) dst _
  | drop src dst k => exact .inl rfl
  | _ => exact hact w _ _

theorem nodes_step_of_idle {w : World} (h : x.actor ≠ some j) :
    (w.step x).nodes j = w.nodes j :=
  (nodes_step w x j).resolve_right fun hact => h hact.1

theorem advances_step (x : Action) (i : NodeId) : Aft.Advances (w.nodes i) ((w.step x).nodes i) := by
  intro h
  rcases nodes_step w x i with heq | ⟨-, op, heq⟩
  · rw [heq]
    exact ⟨h, .refl _⟩
  · rw [heq]
    obtain ⟨hinv, hevolves⟩ := Aft.advances_step (w.nodes i) op h
    exact ⟨hinv, hevolves.view_le, hevolves.commit_le, hevolves.committed_kept⟩

theorem channels_act (i dst : NodeId) (op : Aft.Op) : (w.act i op).channels i dst = w.channels i dst ++
      ((w.nodes i).step op).outbox.filterMap fun p => if p.1 = dst then some p.2 else none := by
  simp [act, post]

theorem channels_act_of_ne (h : src ≠ i) (dst : NodeId) (op : Aft.Op) :
    (w.act i op).channels src dst = w.channels src dst := by
  simp [act, post, h]

/-- The entries that are replicated keep the log of the leader well formed. -/
def Fits (w : World) : Action → Prop
  | .replicate i entries _ => (w.nodes i).isLeader →
      WellFormed ((w.nodes i).ledger ++ Aft.newEntries (w.nodes i).state.currentView entries)
  | _ => True

/-- A node that is handed a batch meets `P`. -/
def OnBatch (P : Aft → (ℕ → Fault) → AppendEntries → List Entry → Prop) (w : World) : Action → Prop
  | .deliver src dst k _ faults => ∀ r data, (w.channels src dst)[k]? = some (.appendEntries r data) →
      P (w.nodes dst) faults r data
  | _ => True

instance (w : World) (x : Action) : Decidable (w.Fits x) := by cases x <;> unfold Fits <;> infer_instance

/-- The batch at position `k` of a channel. -/
def batchAt? (w : World) (src dst : NodeId) (k : ℕ) : Option (AppendEntries × List Entry) :=
  match (w.channels src dst)[k]? with
  | some (.appendEntries r data) => some (r, data)
  | _ => none

theorem batchAt?_eq_some {w : World} {k : ℕ} :
    w.batchAt? src dst k = some (r, data) ↔ (w.channels src dst)[k]? = some (.appendEntries r data) := by
  unfold batchAt?
  split <;> simp_all

instance {P : Aft → (ℕ → Fault) → AppendEntries → List Entry → Prop} [∀ a f r d, Decidable (P a f r d)] (w : World)
    (x : Action) : Decidable (w.OnBatch P x) :=
  match x with
  | .deliver src dst k draw faults =>
    decidable_of_iff (∀ b ∈ w.batchAt? src dst k, P (w.nodes dst) faults b.1 b.2) (by
      simp only [OnBatch, ← batchAt?_eq_some]
      exact ⟨fun h r data => h (r, data), fun h b => h b.1 b.2⟩)
  | .replicate .. | .periodic .. | .nominateSuccessor .. | .drop .. => isTrue trivial

def KeepsVotes : World → Action → Prop := OnBatch fun a _ r _ => ¬a.ForgetsVote r

def CommitsWithinBatch : World → Action → Prop := OnBatch fun a _ r _ => ¬a.CommitsPastBatch r

def KeepsViews : World → Action → Prop := OnBatch fun a faults r data => ¬a.LosesView faults r data

instance (w : World) (x : Action) : Decidable (w.KeepsVotes x) := inferInstanceAs (Decidable (w.OnBatch _ x))

instance (w : World) (x : Action) : Decidable (w.CommitsWithinBatch x) := inferInstanceAs (Decidable (w.OnBatch _ x))

instance (w : World) (x : Action) : Decidable (w.KeepsViews x) := inferInstanceAs (Decidable (w.OnBatch _ x))

/-- What the nodes need to follow the protocol in mode `m`. -/
structure Permitted (m : Mode NodeId) (w : World) (x : Action) : Prop where
  fits : w.Fits x
  may : ∀ i, MayLead m i ((w.step x).nodes i)
  votes : m.unique → w.KeepsVotes x
  commits : m.strict → w.CommitsWithinBatch x
  views : w.KeepsViews x

end World

/-- The nodes and the messages of the world are in accordance with the protocol. -/
structure Follows (g : Genesis) (m : Mode NodeId) (s : Sys NodeId Entry) (w : World) : Prop where
  inv : Inv g.proto m s
  nodes : ∀ i, Sim g m s i (w.nodes i)
  channels : ∀ src dst, ∀ msg ∈ w.channels src dst, src ≠ dst ∧ Justified g m s src dst msg
  sent : ∀ p ∈ w.sent, p.src ≠ p.dst ∧ Justified g m s p.src p.dst p.msg

variable {g : Genesis} {m : Mode NodeId} {s s' : Sys NodeId Entry} {w : World} {c : Setup}

theorem World.indexInv_start (i : NodeId) : Aft.IndexInv ((g.start c).nodes i).state := by
  by_cases hi : i = g.primary
  · subst hi
    have hnode : (g.start c).nodes g.primary = Runs.exec Aft.step (c.init g.primary) g.ops :=
      update_self _ _ _
    rw [hnode]
    exact Runs.exec_induction (P := fun _ _ => True) (I := fun a : Aft => Aft.IndexInv a.state)
      (fun a op h _ => (Aft.advances_step a op h).1) (Aft.indexInv_init _ _ _ _) (Runs.along_true _ _)
  · have hnode : (g.start c).nodes i = c.init i := update_of_ne hi _ _
    rw [hnode]
    exact Aft.indexInv_init _ _ _ _

/-! ### One action -/

theorem Sim.emptied {a : Aft} (h : Sim g m s i a) : Sim g m s i { a with outbox := [] } :=
  h.of_tells (h.tells.adjust rfl rfl (nil_subset _) rfl h.tells.batch_pos fun hlead _ => h.tells.nodeOk hlead)
    rfl rfl rfl rfl rfl rfl rfl

namespace Follows

section
variable (h : Follows g m s w) {xs : List Action}
include h

theorem take (src dst : NodeId) (k : ℕ) : Follows g m s (w.take src dst k) := by
  refine ⟨h.inv, h.nodes, fun src' dst' msg hmsg => h.channels src' dst' msg ?_, h.sent⟩
  unfold World.take at hmsg
  by_cases hsrc : src' = src
  · subst hsrc
    by_cases hdst : dst' = dst
    · subst hdst
      simp only [update_self] at hmsg
      exact mem_of_mem_eraseIdx hmsg
    · simpa only [update_self, update_of_ne hdst] using hmsg
  · simpa only [update_of_ne hsrc] using hmsg

/-- A node that performs steps of the protocol keeps the world in accordance with it. -/
theorem act {op : Aft.Op} (hreach : Reaches g m s i ((w.nodes i).step op)) :
    ∃ s', Later s s' ∧ Follows g m s' (w.act i op) := by
  obtain ⟨s', hsteps, hsim⟩ := hreach
  have hl := Steps.later h.inv hsteps
  have hinv := hsteps.inv h.inv
  refine ⟨s', hl, hinv, fun j => ?_, fun src dst msg hmsg => ?_, fun p hp => ?_⟩
  · by_cases hj : j = i
    · subst hj
      rw [World.nodes_act]
      exact hsim.emptied
    · rw [World.nodes_act_of_ne _ hj]
      exact (h.nodes j).frame hinv hl hsteps.frame hj
  · by_cases hsrc : src = i
    · subst hsrc
      rw [World.channels_act, mem_append] at hmsg
      rcases hmsg with hmsg | hmsg
      · exact ⟨(h.channels src dst msg hmsg).1, (h.channels src dst msg hmsg).2.later hl⟩
      · obtain ⟨p, hp, hdst⟩ := mem_filterMap.1 hmsg
        split_ifs at hdst with heq
        cases hdst
        exact heq ▸ hsim.tells.outbox p hp
    · rw [World.channels_act_of_ne _ hsrc] at hmsg
      exact ⟨(h.channels src dst msg hmsg).1, (h.channels src dst msg hmsg).2.later hl⟩
  · rcases mem_append.1 hp with hp | hp
    · exact ⟨(h.sent p hp).1, (h.sent p hp).2.later hl⟩
    · obtain ⟨q, hq, rfl⟩ := mem_map.1 hp
      exact hsim.tells.outbox q hq

/-- A batch from a channel is handled safely. -/
theorem safe_deliver {k : ℕ} {draw : ℕ} (hp : w.Permitted m (.deliver src dst k draw faults))
    (hmsg : (w.channels src dst)[k]? = some (.appendEntries r data)) :
    Safe g m s dst ((w.nodes dst).recvAppendEntries draw faults src r data) := by
  obtain ⟨hne, hgood⟩ := h.channels src dst _ (mem_of_getElem? hmsg)
  exact (h.nodes dst).safe_recvAppendEntries hgood h.inv (Ne.symm hne) draw (fun hu => hp.votes hu r data hmsg)
    (fun hs => hp.commits hs r data hmsg) (hp.views r data hmsg)

theorem deliver {k : ℕ} {draw : ℕ}
    (hp : w.Permitted m (.deliver src dst k draw faults)) {msg : Msg} (hmsg : (w.channels src dst)[k]? = some msg) :
    Reaches g m s dst ((w.nodes dst).step (.recvMessage draw faults src msg)) := by
  obtain ⟨hne, hjust⟩ := h.channels src dst _ (mem_of_getElem? hmsg)
  have hmay : MayLead m dst ((w.nodes dst).step (.recvMessage draw faults src msg)) := by
    have hmay := hp.may dst
    rw [World.step_deliver hmsg, World.nodes_act] at hmay
    exact hmay
  cases msg with
  | appendEntries r data => exact (h.safe_deliver hp hmsg).1
  | appendEntriesResponse r => exact (h.nodes dst).recvAppendEntriesResponse h.inv draw hjust
  | requestVote r electionType => exact (h.nodes dst).recvRequestVoteUnsafe h.inv draw (Ne.symm hne) hjust
  | requestVoteResponse r electionType => exact (h.nodes dst).recvRequestVoteResponse h.inv hjust hmay
  | proposeRequestVote r => exact (h.nodes dst).recvProposeRequestVote h.inv hmay

/-- **A permitted action** is a number of steps of the protocol. -/
theorem step (hp : w.Permitted m x) : ∃ s', Later s s' ∧ Follows g m s' (w.step x) := by
  cases x with
  | replicate i entries term => exact h.act ((h.nodes i).replicate h.inv term hp.fits)
  | periodic i draw elapsed =>
    refine h.act ((h.nodes i).periodic h.inv ?_)
    have hmay : MayLead m i ((w.act i (.periodic draw elapsed)).nodes i) := hp.may i
    rw [World.nodes_act] at hmay
    exact hmay
  | nominateSuccessor i => exact h.act (h.nodes i).nominateSuccessor.reaches
  | deliver src dst k draw faults =>
    cases hmsg : (w.channels src dst)[k]? with
    | none =>
      rw [World.step_deliver_none hmsg]
      exact ⟨s, Later.refl s, h⟩
    | some msg =>
      rw [World.step_deliver hmsg]
      exact (h.take src dst k).act (h.deliver hp hmsg)
  | drop src dst k => exact ⟨s, Later.refl s, h.take src dst k⟩

/-! ### Runs -/

variable (hp : Runs.Along World.step (World.Permitted m) w xs) {n : ℕ}
include hp

/-- **Runs of permitted actions** follow the protocol. -/
theorem run : ∃ s', Later s s' ∧ Follows g m s' (w.run xs) := by
  induction xs generalizing s w with
  | nil => exact ⟨s, Later.refl s, h⟩
  | cons x xs ih =>
    obtain ⟨s₁, hl₁, h₁⟩ := h.step hp.1
    obtain ⟨s₂, hl₂, h₂⟩ := ih h₁ hp.2
    exact ⟨s₂, hl₁.trans hl₂, h₂⟩

/-- Two points of a run follow two points of a run of the protocol. -/
theorem points {k : ℕ}
    (hnk : n ≤ k) : ∃ s₁ s₂, Later s₁ s₂ ∧ Follows g m s₁ (w.run (xs.take n)) ∧ Follows g m s₂ (w.run (xs.take k)) := by
  have hsplit : xs.take k = xs.take n ++ (xs.take k).drop n := by
    have htake : (xs.take k).take n = xs.take n := by rw [take_take, min_eq_left hnk]
    rw [← htake, take_append_drop]
  have hk := hp.take k
  rw [hsplit, Runs.along_append] at hk
  obtain ⟨s₁, -, h₁⟩ := h.run hk.1
  obtain ⟨s₂, hl, h₂⟩ := h₁.run hk.2
  refine ⟨s₁, s₂, hl, h₁, ?_⟩
  rw [hsplit]
  unfold World.run
  rw [Runs.exec_append]
  exact h₂

omit hp

end

theorem start (hmay : m.elects startingViewChange g.primary) : Follows g m (g.proto.initial g.primary) (g.start c) :=
  ⟨Genesis.inv_start hmay, Genesis.sim_start, nofun, nofun⟩

end Follows

end Ccf
