import Ccf.Network.Runs

/-! # Safety of the network

The properties of the protocol, read off the nodes at any two points of a run. Runs are limited to the actions whose
batches neither make a node forget its vote (`World.KeepsVotes`), nor commit entries behind the batch
(`World.CommitsWithinBatch`), nor leave a view history behind its log (`World.KeepsViews`). For each of the
properties there is a run that breaks it without the condition. -/

namespace Ccf

open World List SignedRaft ViewHistory

variable {g : Genesis} {c : Setup}

set_option maxRecDepth 10000

/-! ### Runs as runs of the protocol -/

/-- The mode of runs in which nodes keep their votes and commit within batches. -/
def faithfulMode : Mode NodeId := ⟨True, True, fun _ _ => True, .inl ⟨trivial, trivial⟩⟩

namespace World

/-- `L` leads view `T` at some point of the run. -/
def Elects (w : World) (xs : List Action) (T : ℕ) (L : NodeId) : Prop :=
  ∃ n, ((w.run (xs.take n)).nodes L).isLeader ∧ ((w.run (xs.take n)).nodes L).state.currentView = T

/-- No view ever has two leaders. -/
def OneLeader (w : World) (xs : List Action) : Prop := ∀ T L L', w.Elects xs T L → w.Elects xs T L' → L = L'

/-- The mode of a run in which no view has two leaders. -/
def ledMode (strict : Prop) {w : World} {xs : List Action} (h : w.OneLeader xs) : Mode NodeId :=
  ⟨strict, False, w.Elects xs, .inr h⟩

variable {w : World} {x : Action}

theorem keepsViews_of_applies (h : x.Applies) : w.KeepsViews x := by
  cases x with
  | deliver src dst k draw faults =>
    rintro r data - ⟨-, -, n, -, -, hfault, -⟩
    rw [h] at hfault
    cases hfault
  | _ => trivial

variable {xs : List Action} {i j : NodeId} {n : ℕ}

theorem along_keepsViews {P : World → Action → Prop} (happly : ∀ x ∈ xs, x.Applies)
    (h : Runs.Along step P w xs) : Runs.Along step (fun w x => P w x ∧ w.KeepsViews x) w xs := by
  rw [Runs.along_iff] at h ⊢
  exact fun n x hx => ⟨h n x hx, keepsViews_of_applies (happly x (mem_of_getElem? hx))⟩

theorem permitted_faithful
    (h : Runs.Along step (fun w x => w.Fits x ∧ w.KeepsVotes x ∧ w.CommitsWithinBatch x ∧ w.KeepsViews x)
      (g.start c) xs) :
    Runs.Along step (Permitted faithfulMode) (g.start c) xs :=
  h.imp fun _ _ ⟨hfits, hvotes, hcommits, hviews⟩ =>
    ⟨hfits, fun _ _ => trivial, fun _ => hvotes, fun _ => hcommits, hviews⟩

theorem permitted_led (strict : Prop) (hone : (g.start c).OneLeader xs)
    (h : Runs.Along step (fun w x => w.Fits x ∧ (strict → w.CommitsWithinBatch x) ∧ w.KeepsViews x) (g.start c) xs) :
    Runs.Along step (Permitted (ledMode strict hone)) (g.start c) xs := by
  rw [Runs.along_iff] at h ⊢
  intro n x hx
  obtain ⟨hfits, hcommits, hviews⟩ := h n x hx
  refine ⟨hfits, fun i hlead => ⟨n + 1, ?_⟩, False.elim, hcommits, hviews⟩
  rw [take_add_one, hx, Option.toList_some, run, Runs.exec_concat]
  exact ⟨hlead, rfl⟩

theorem elects_primary (g : Genesis) (c : Setup) (xs : List Action) :
    (g.start c).Elects xs startingViewChange g.primary := by
  obtain ⟨size, count, batchSize, window, -, hnode⟩ := g.nodes_start c
  refine ⟨0, ?_⟩
  rw [take_zero, run, Runs.exec_nil, hnode]
  exact ⟨rfl, rfl⟩

theorem follows_faithful (g : Genesis) (c : Setup) :
    Follows g faithfulMode (g.proto.initial g.primary) (g.start c) := .start trivial

theorem follows_led (strict : Prop) (hone : (g.start c).OneLeader xs) :
    Follows g (ledMode strict hone) (g.proto.initial g.primary) (g.start c) := .start (elects_primary g c xs)

/-! ### Checking that no view has two leaders -/

/-- The views that are led by one of `nodes`. -/
def leaderships (nodes : List NodeId) (w : World) : List (ℕ × NodeId) :=
  (nodes.filter fun i => (w.nodes i).isLeader).map fun i => ((w.nodes i).state.currentView, i)

def leadershipsAlong (nodes : List NodeId) : World → List Action → List (ℕ × NodeId)
  | w, [] => w.leaderships nodes
  | w, x :: xs => w.leaderships nodes ++ leadershipsAlong nodes (w.step x) xs

theorem mem_leadershipsAlong {nodes : List NodeId} (hi : i ∈ nodes)
    (hlead : ((w.run (xs.take n)).nodes i).isLeader) :
    (((w.run (xs.take n)).nodes i).state.currentView, i) ∈ leadershipsAlong nodes w xs := by
  have hhere : ∀ w : World, (w.nodes i).isLeader → ((w.nodes i).state.currentView, i) ∈ w.leaderships nodes := by
    intro w hw
    exact mem_map.2 ⟨i, mem_filter.2 ⟨hi, by simpa using hw⟩, rfl⟩
  induction xs generalizing w n with
  | nil =>
    rw [take_nil] at hlead ⊢
    exact hhere w hlead
  | cons x xs ih =>
    cases n with
    | zero => exact mem_append_left _ (hhere w hlead)
    | succ n => exact mem_append_right _ (ih hlead)

theorem nodes_run_of_idle (h : ∀ x ∈ xs, x.actor ≠ some j) : (w.run xs).nodes j = w.nodes j := by
  induction xs generalizing w with
  | nil => rfl
  | cons x xs ih =>
    exact (ih fun y hy => h y (mem_cons_of_mem _ hy)).trans (nodes_step_of_idle (h x mem_cons_self))

theorem oneLeader_of_check (nodes : List NodeId) (hprimary : g.primary ∈ nodes)
    (hactors : ∀ x ∈ xs, ∀ i ∈ x.actor, i ∈ nodes)
    (hcheck : ∀ p ∈ leadershipsAlong nodes (g.start c) xs, ∀ q ∈ leadershipsAlong nodes (g.start c) xs,
      p.1 = q.1 → p.2 = q.2) : (g.start c).OneLeader xs := by
  have hmem : ∀ T L, (g.start c).Elects xs T L → (T, L) ∈ leadershipsAlong nodes (g.start c) xs := by
    rintro T L ⟨n, hlead, rfl⟩
    by_cases hL : L ∈ nodes
    · exact mem_leadershipsAlong hL hlead
    · have hidle : ∀ x ∈ xs.take n, x.actor ≠ some L := fun x hx heq => hL (hactors x (mem_of_mem_take hx) L heq)
      have hne : L ≠ g.primary := fun heq => hL (heq ▸ hprimary)
      have hnode : (g.start c).nodes L = c.init L := Function.update_of_ne hne _ _
      rw [nodes_run_of_idle hidle, hnode] at hlead
      cases hlead
  exact fun T L L' h h' => hcheck _ (hmem T L h) _ (hmem T L' h') rfl

end World

/-! ### Three nodes -/

/-- What happens over channels that keep the order, when all entries can be applied. -/
inductive Move where
  | write (i : NodeId) (entries : List (ℕ × Tx)) (term : ℕ)
  | tick (i : NodeId) (elapsed : ℕ)
  | deliver (src dst : NodeId)
  | drop (src dst : NodeId)

def Move.action : Move → Action
  | .write i entries term => .replicate i entries term
  | .tick i elapsed => .periodic i 0 elapsed
  | .deliver src dst => .deliver src dst 0 0 fun _ => .none
  | .drop src dst => .drop src dst 0

theorem Move.fifo_applies (moves : List Move) : ∀ x ∈ moves.map action, x.Fifo ∧ x.Applies := by
  intro x hx
  obtain ⟨m, -, rfl⟩ := mem_map.1 hx
  cases m with
  | deliver src dst => exact ⟨rfl, fun _ => rfl⟩
  | _ => exact ⟨trivial, trivial⟩

def nodesTx (status : NodeStatus) (l : List NodeId) (h : l.Nodup) : Tx where
  size := 1000
  committable := false
  nodes := l.map fun n => (n, some ⟨status, false⟩)
  payload := 0
  nodup := by simpa [map_map, Function.comp_def] using h

def dataTx (size payload : ℕ) : Tx :=
  { size := size, committable := false, nodes := [], payload := payload, nodup := nodup_nil }

def signTx : Tx := { size := 1000, committable := true, nodes := [], payload := 0, nodup := nodup_nil }

theorem nodup_one : [1].Nodup := by decide

/-- A service that is started by node 0. -/
def service : Genesis where
  primary := 0
  create := nodesTx .trusted [0] (nodup_singleton 0)
  signature := signTx
  create_unsigned := rfl
  create_delta := rfl
  create_marks := rfl
  signature_signed := rfl
  signature_delta := rfl
  signature_marks := rfl

/-- Pre-vote is enabled on the given nodes. -/
def timeouts (preVote : List NodeId) : Setup := ⟨fun i => i ∈ preVote, fun _ => 10, fun _ => 100⟩

section

open Move

/-- Nodes 1 and 2 join, and all three nodes commit the new configuration. -/
def joining : List Move :=
  [write 0 [(3, nodesTx .trusted [1, 2] (by decide)), (4, signTx)] 2, deliver 0 1, deliver 0 2, deliver 1 0,
    deliver 2 0, tick 0 10] ++
    .replicate 4 (deliver 0 1) ++ .replicate 4 (deliver 0 2) ++ .replicate 4 (deliver 1 0) ++ .replicate 4 (drop 2 0) ++
    [tick 0 10, deliver 0 1, deliver 0 2, drop 1 0, drop 2 0]

/-- Node 1 is elected in view 3, while node 0 goes on writing in view 2. -/
def electing : List Move :=
  joining ++ [write 0 [(5, dataTx 1000 1)] 2, tick 1 100, deliver 1 2, deliver 2 1,
    write 1 [(5, dataTx 10 2), (6, dataTx 10 3)] 3, tick 1 10, drop 1 2]

/-- Node 2 is elected in view 3 and removes the others; node 0 is elected in view 4 and commits other entries
at the same indices. Then a batch of old entries makes node 2 commit its own. -/
def overtaking : List Move :=
  joining ++
    [write 0 [(5, dataTx 1000 1), (6, signTx)] 2, tick 0 10, deliver 0 1, deliver 0 1, drop 0 2, deliver 0 2, tick 0 10,
      drop 0 1, deliver 0 2, deliver 2 0, tick 0 10, drop 0 1, deliver 0 2, deliver 0 2] ++
    [tick 2 100, deliver 2 1, deliver 1 2, write 2 [(7, nodesTx .retired [0, 1] (by decide)), (8, signTx)] 3] ++
    [tick 0 100, tick 0 100, tick 0 100, drop 0 1, drop 0 1, deliver 0 1, drop 1 0, drop 1 0, deliver 1 0] ++
    [write 0 [(7, dataTx 1000 3), (8, signTx)] 4, tick 0 10, deliver 0 1, deliver 0 1, deliver 0 1, deliver 1 0,
      deliver 1 0, deliver 1 0, deliver 2 0, tick 0 10] ++
    .replicate 6 (drop 0 2) ++ [deliver 0 2]

end

/-! ### What is committed -/

variable {m : Mode NodeId} {s s₁ : Sys NodeId Entry} {xs : List Action} {w : World} {p q : List Entry}
  {T T' : ℕ}

theorem Follows.committed (h : Follows g m s w) (hs : m.strict) (i : NodeId) :
    s.Committed ((w.nodes i).ledger.take (w.nodes i).state.commitIdx) (w.nodes i).state.currentView := by
  have hi := h.nodes i
  rw [← hi.log_eq, ← hi.commit_eq, ← hi.view_eq]
  exact h.inv.commit_proven hs i

theorem comparable_of_committed (hinv : Inv g.proto m s) (hs : m.strict)
    (hp : s.Committed p T) (hq : s.Committed q T') : p <+: q ∨ q <+: p := by
  rcases hp with rfl | ⟨e, he, -, hp⟩
  · exact .inl nil_prefix
  rcases hq with rfl | ⟨e', he', -, hq⟩
  · exact .inr nil_prefix
  rcases hinv.committed_total hs he he' with hle | hle
  · exact prefix_or_prefix_of_prefix (hp.trans hle) hq
  · exact prefix_or_prefix_of_prefix hp (hq.trans hle)

/-- What is committed in an earlier term is in the log a leader was elected with. -/
theorem prefix_of_leader (hinv₁ : Inv g.proto m s₁) (hinv : Inv g.proto m s)
    (hs : m.strict) (hl₁ : Later s₁ s) {X : NodeId} (hX : s₁.leader T' = some X)
    (hp : s.Committed p T) (hT : T < T') : p <+: s₁.tl T' := by
  rcases hp with rfl | ⟨e, he, hle, hp⟩
  · exact nil_prefix
  have hfirst := (hinv.event_bounds e he).1
  obtain ⟨d, S, hcert, rfl, -, hd⟩ := hinv₁.exists_cert hX (by omega)
  exact (hp.trans (hinv.committed_prefix_candidate hs (hcert.later hl₁) he (by omega))).trans hd

/-- The committed prefixes of any two nodes at any two points of the run are comparable. -/
def World.StateMachineSafe (w : World) (xs : List Action) : Prop :=
  ∀ (n k : ℕ) (i j : NodeId),
    let a := (w.run (xs.take n)).nodes i
    let b := (w.run (xs.take k)).nodes j
    a.ledger.take a.state.commitIdx <+: b.ledger.take b.state.commitIdx ∨
      b.ledger.take b.state.commitIdx <+: a.ledger.take a.state.commitIdx

/-- The view history of every node gives the view of each of its entries, and none before the first. -/
def World.ViewsRecorded (w : World) (xs : List Action) : Prop :=
  ∀ (n : ℕ) (i : NodeId), ((w.run (xs.take n)).nodes i).state.viewHistory.viewAt 0 = invalidView ∧
    ∀ q, 0 < q → q ≤ ((w.run (xs.take n)).nodes i).state.lastIdx →
      ∃ e, entryAt ((w.run (xs.take n)).nodes i).ledger q = some e ∧
        ((w.run (xs.take n)).nodes i).state.viewHistory.viewAt q = e.view

variable (hp : Runs.Along World.step (World.Permitted faithfulMode) (g.start c) xs)
include hp

theorem World.stateMachineSafe_of_permitted :
    (g.start c).StateMachineSafe xs := by
  intro n k i j a b
  rcases le_total n k with hnk | hkn
  · obtain ⟨s₁, s₂, hl, h₁, h₂⟩ := (follows_faithful g c).points hp hnk
    exact comparable_of_committed h₂.inv trivial (hl.committed (h₁.committed trivial i)) (h₂.committed trivial j)
  · obtain ⟨s₁, s₂, hl, h₁, h₂⟩ := (follows_faithful g c).points hp hkn
    exact comparable_of_committed h₂.inv trivial (h₂.committed trivial i) (hl.committed (h₁.committed trivial j))

theorem World.viewsRecorded_of_permitted :
    (g.start c).ViewsRecorded xs := by
  intro n i
  obtain ⟨s, -, h⟩ := (follows_faithful g c).run (hp.take n)
  have hrecorded := (h.nodes i).recorded
  refine ⟨hrecorded.viewAt_eq (g := g) (Nat.zero_le _), fun q hpos hq => ?_⟩
  have hq' := (h.nodes i).tracks.last_eq ▸ hq
  obtain ⟨q, rfl⟩ := Nat.exists_eq_succ_of_ne_zero hpos.ne'
  refine ⟨_, getElem?_eq_getElem hq', ?_⟩
  rw [hrecorded.viewAt_eq (g := g) hq', termAt_eq_viewOf, viewOf_succ,
    getD_eq_getElem _ _ (by rw [length_map]; exact hq'), getElem_map]

omit hp

variable (g c xs)

/-- **State machine safety.**  The committed prefixes of any two nodes at any two points of a run in which no
node forgets its vote or commits entries behind a batch are prefixes one of the other. -/
theorem committed_prefixes_comparable (happly : ∀ x ∈ xs, x.Applies)
    (hrun : Runs.Along step (fun w x => w.Fits x ∧ w.KeepsVotes x ∧ w.CommitsWithinBatch x) (g.start c) xs)
    (n k : ℕ) (i j : NodeId) :
    let a := ((g.start c).run (xs.take n)).nodes i
    let b := ((g.start c).run (xs.take k)).nodes j
    a.ledger.take a.state.commitIdx <+: b.ledger.take b.state.commitIdx ∨
      b.ledger.take b.state.commitIdx <+: a.ledger.take a.state.commitIdx :=
  stateMachineSafe_of_permitted
    (permitted_faithful ((along_keepsViews happly hrun).imp fun _ _ h => ⟨h.1.1, h.1.2.1, h.1.2.2, h.2⟩))
    n k i j

theorem committed_prefixes_comparable_joining :
    let a := ((service.start (timeouts [])).run ((joining.map Move.action).take 19)).nodes 0
    let b := ((service.start (timeouts [])).run ((joining.map Move.action).take 30)).nodes 2
    a.state.commitIdx = 4 ∧ b.state.commitIdx = 4 ∧
      (a.ledger.take a.state.commitIdx <+: b.ledger.take b.state.commitIdx ∨
        b.ledger.take b.state.commitIdx <+: a.ledger.take a.state.commitIdx) :=
  ⟨by decide +kernel, by decide +kernel, committed_prefixes_comparable service (timeouts []) (joining.map Move.action)
    (fun x hx => (Move.fifo_applies _ x hx).2) (by decide +kernel) 19 30 0 2⟩

/-- A short batch with a large commit index makes a follower commit a suffix of its own. -/
theorem not_committed_prefixes_comparable :
    ¬∀ (g : Genesis) (c : Setup) (xs : List Action), (∀ x ∈ xs, x.Fifo ∧ x.Applies) →
      Runs.Along step World.Fits (g.start c) xs → ∀ (n k : ℕ) (i j : NodeId),
        let a := ((g.start c).run (xs.take n)).nodes i
        let b := ((g.start c).run (xs.take k)).nodes j
        a.ledger.take a.state.commitIdx <+: b.ledger.take b.state.commitIdx ∨
          b.ledger.take b.state.commitIdx <+: a.ledger.take a.state.commitIdx := by
  intro h
  have hend := h service (timeouts []) (overtaking.map Move.action) (Move.fifo_applies _)
      (by decide +kernel) 100 100 0 2
  revert hend
  decide +kernel

/-! ### Leader completeness -/

/-- **Leader completeness.**  In a run in which no view has two leaders and no node commits entries behind a
batch, whatever a node has committed in its view is in the log of the leader of every later view. -/
theorem leader_completeness (happly : ∀ x ∈ xs, x.Applies)
    (hrun : Runs.Along step (fun w x => w.Fits x ∧ w.CommitsWithinBatch x) (g.start c) xs)
    (hone : (g.start c).OneLeader xs) (n k : ℕ) (L X : NodeId) :
    let a := ((g.start c).run (xs.take n)).nodes L
    let b := ((g.start c).run (xs.take k)).nodes X
    b.isLeader → a.state.currentView < b.state.currentView →
      a.state.commitIdx ≤ b.ledger.length ∧
        b.ledger.take a.state.commitIdx = a.ledger.take a.state.commitIdx := by
  intro a b hlead hview
  have hp := permitted_led True hone
    ((along_keepsViews happly hrun).imp fun _ _ h => ⟨h.1.1, fun _ => h.1.2, h.2⟩)
  have hstart := follows_led True hone
  have hprefix : a.ledger.take a.state.commitIdx <+: b.ledger ∧ a.state.commitIdx ≤ a.ledger.length := by
    rcases le_total n k with hnk | hkn
    · obtain ⟨s₁, s₂, hl, h₁, h₂⟩ := hstart.points hp hnk
      have hs := (h₂.nodes X).tells.speaks hlead
      rw [← hs.tl_eq]
      refine ⟨prefix_of_leader h₂.inv h₂.inv trivial (Later.refl s₂) hs.leader_eq
        (hl.committed (h₁.committed trivial L)) hview, (h₁.nodes L).tracks.commit_le⟩
    · obtain ⟨s₁, s₂, hl, h₁, h₂⟩ := hstart.points hp hkn
      have hs := (h₁.nodes X).tells.speaks hlead
      rw [← hs.tl_eq]
      exact ⟨prefix_of_leader h₁.inv h₂.inv trivial hl hs.leader_eq (h₂.committed trivial L) hview,
        (h₂.nodes L).tracks.commit_le⟩
  obtain ⟨hpre, hle⟩ := hprefix
  have hlen : (a.ledger.take a.state.commitIdx).length = a.state.commitIdx := length_take_of_le hle
  refine ⟨hlen ▸ hpre.length_le, ?_⟩
  rw [prefix_iff_eq_take.1 hpre, hlen]

theorem leader_completeness_electing :
    let w := service.start (timeouts [])
    let xs := electing.map Move.action
    ((w.run (xs.take 27)).nodes 0).state.commitIdx = 4 ∧ ((w.run (xs.take 100)).nodes 1).isLeader ∧
      ((w.run (xs.take 100)).nodes 1).ledger.take 4 = ((w.run (xs.take 27)).nodes 0).ledger.take 4 :=
  ⟨by decide +kernel, by decide +kernel, (leader_completeness service (timeouts []) (electing.map Move.action)
    (fun x hx => (Move.fifo_applies _ x hx).2) (by decide +kernel)
    (oneLeader_of_check [0, 1, 2] (by decide) (by decide +kernel) (by decide +kernel)) 27 100 0 1
    (by decide +kernel) (by decide +kernel)).2⟩

/-- A node that has committed a suffix of its own may elect itself. -/
theorem not_leader_completeness :
    ¬∀ (g : Genesis) (c : Setup) (xs : List Action), (∀ x ∈ xs, x.Fifo ∧ x.Applies) →
      Runs.Along step World.Fits (g.start c) xs → (g.start c).OneLeader xs →
      ∀ (n k : ℕ) (L X : NodeId),
        let a₀ := ((g.start c).run (xs.take n)).nodes L
        let a := ((g.start c).run (xs.take (n + 1))).nodes L
        let b₀ := ((g.start c).run (xs.take k)).nodes X
        let b := ((g.start c).run (xs.take (k + 1))).nodes X
        a₀.isLeader → a.isLeader → a.state.currentView = a₀.state.currentView → a₀.state.commitIdx < a.state.commitIdx →
        ¬b₀.isLeader → b.isLeader → a.state.currentView < b.state.currentView →
        b.ledger.take a.state.commitIdx = a.ledger.take a.state.commitIdx := by
  intro h
  have hend := h service (timeouts []) ((overtaking ++ [Move.tick 2 100]).map Move.action) (Move.fifo_applies _)
    (by decide +kernel) (oneLeader_of_check [0, 1, 2] (by decide) (by decide +kernel) (by decide +kernel)) 61 71 0 2
    (by decide +kernel) (by decide +kernel) (by decide +kernel) (by decide +kernel) (by decide +kernel)
    (by decide +kernel) (by decide +kernel)
  revert hend
  decide +kernel

/-! ### Log matching -/

/-- **Log matching.**  In a run in which no view has two leaders and no view history is left behind its log, two
logs whose view histories agree at an index are the same up to it, and a node has what the leader of its view
believes it to have. -/
theorem log_matching (hrun : Runs.Along step (fun w x => w.Fits x ∧ w.KeepsViews x) (g.start c) xs)
    (hone : (g.start c).OneLeader xs) (k : ℕ) :
    let w := (g.start c).run (xs.take k)
    (∀ i j n, 0 < n → n ≤ (w.nodes i).state.lastIdx → n ≤ (w.nodes j).state.lastIdx →
      (w.nodes i).state.viewHistory.viewAt n = (w.nodes j).state.viewHistory.viewAt n →
      (w.nodes i).ledger.take n = (w.nodes j).ledger.take n) ∧
    ∀ L F ns, (w.nodes L).isLeader → (F, ns) ∈ (w.nodes L).allOtherNodes →
      (w.nodes F).state.currentView = (w.nodes L).state.currentView →
      ns.matchIdx ≤ (w.nodes L).ledger.length ∧ (w.nodes L).ledger.take ns.matchIdx <+: (w.nodes F).ledger := by
  intro w
  have hp := permitted_led False hone (hrun.imp fun _ _ h => ⟨h.1, False.elim, h.2⟩)
  have hstart := follows_led False hone
  obtain ⟨s, -, h⟩ := hstart.run (hp.take k)
  refine ⟨fun i j n hpos hi hj heq => ?_, fun L F ns hlead hmem hview => ?_⟩
  · have hi' := (h.nodes i).tracks.last_eq ▸ hi
    have hj' := (h.nodes j).tracks.last_eq ▸ hj
    rw [(h.nodes i).recorded.viewAt_eq (g := g) hi', (h.nodes j).recorded.viewAt_eq (g := g) hj'] at heq
    exact ((h.nodes i).coherent h.inv).take_eq ((h.nodes j).coherent h.inv) hi' hj' heq
  · have hs := (h.nodes L).tells.speaks hlead
    rcases Nat.eq_zero_or_pos ns.matchIdx with hzero | hpos
    · rw [hzero]
      exact ⟨Nat.zero_le _, nil_prefix⟩
    · have hack := hs.acks _ hmem hpos
      have hle := (h.inv.ack_le _ hack).1
      have hF : s.view F = (w.nodes L).state.currentView := (h.nodes F).view_eq.trans hview
      have hkept := h.inv.ack_kept _ hack ns.matchIdx le_rfl (.inl hF) fun T hlow hhigh => by
        rw [hF] at hhigh
        exact absurd (Nat.le_of_lt_succ hhigh) (not_le.2 hlow)
      rw [hs.tl_eq] at hle hkept
      exact ⟨hle, (h.nodes F).log_eq ▸ hkept⟩

theorem log_matching_electing :
    let w := (service.start (timeouts [])).run ((electing.map Move.action).take 100)
    (w.nodes 1).state.viewHistory.viewAt 4 = (w.nodes 2).state.viewHistory.viewAt 4 ∧
      (w.nodes 1).ledger.take 4 = (w.nodes 2).ledger.take 4 :=
  ⟨by decide +kernel, (log_matching service (timeouts []) (electing.map Move.action) (by decide +kernel)
    (oneLeader_of_check [0, 1, 2] (by decide) (by decide +kernel) (by decide +kernel)) 100).1 1 2 4 (by decide)
    (by decide +kernel) (by decide +kernel) (by decide +kernel)⟩

/-- The second of two entries of a new view fails to apply on node 2, which then takes the first one for an
entry of the view before. -/
def halfApplying : List Action :=
  electing.map Move.action ++ [.deliver 1 2 0 0 fun i => if i = 6 then .apply else .none]

theorem halfApplying_fifo : ∀ x ∈ halfApplying, x.Fifo := by
  intro x hx
  rcases mem_append.1 hx with hx | hx
  · exact (Move.fifo_applies _ x hx).1
  · rw [mem_singleton.1 hx]
    rfl

theorem not_log_matching :
    ¬∀ (g : Genesis) (c : Setup) (xs : List Action), (∀ x ∈ xs, x.Fifo) →
      Runs.Along step World.Fits (g.start c) xs → (g.start c).OneLeader xs → ∀ k,
        let w := (g.start c).run (xs.take k)
        ∀ i j n, 0 < n → n ≤ (w.nodes i).state.lastIdx → n ≤ (w.nodes j).state.lastIdx →
          (w.nodes i).state.viewHistory.viewAt n = (w.nodes j).state.viewHistory.viewAt n →
          (w.nodes i).ledger.take n = (w.nodes j).ledger.take n := by
  intro h
  have hend := h service (timeouts []) halfApplying halfApplying_fifo (by decide +kernel)
    (oneLeader_of_check [0, 1, 2] (by decide) (by decide +kernel) (by decide +kernel)) 100 0 2 5 (by decide)
    (by decide +kernel) (by decide +kernel) (by decide +kernel)
  revert hend
  decide +kernel

/-! ### View histories -/

/-- **View histories** give the view of each entry, and no batch makes them go back, in a run in which no node forgets
its vote, commits entries behind a batch or is left with a view history behind its log. -/
theorem viewHistory_faithful
    (hrun : Runs.Along step (fun w x => w.Fits x ∧ w.KeepsVotes x ∧ w.CommitsWithinBatch x ∧ w.KeepsViews x)
      (g.start c) xs) (n : ℕ) :
    let w := (g.start c).run (xs.take n)
    (∀ i q, 0 < q → q ≤ (w.nodes i).state.lastIdx → ∃ e, entryAt (w.nodes i).ledger q = some e ∧
      (w.nodes i).state.viewHistory.viewAt q = e.view) ∧
    ∀ src dst k draw faults r data, xs[n]? = some (.deliver src dst k draw faults) →
      (w.channels src dst)[k]? = some (.appendEntries r data) →
      ((w.nodes dst).recvAppendEntries draw faults src r data).error? ≠ some .viewHistoryBackwards := by
  intro w
  have hp := permitted_faithful hrun
  obtain ⟨s, -, h⟩ := (follows_faithful g c).run (hp.take n)
  refine ⟨fun i => (viewsRecorded_of_permitted hp n i).2, fun src dst k draw faults r data hx hmsg => ?_⟩
  exact (h.safe_deliver (Runs.along_iff.1 hp n _ hx) hmsg).2

theorem viewHistory_faithful_electing :
    let w := (service.start (timeouts [])).run ((electing.map Move.action).take 100)
    6 ≤ (w.nodes 1).state.lastIdx ∧
      ∃ e, entryAt (w.nodes 1).ledger 6 = some e ∧ (w.nodes 1).state.viewHistory.viewAt 6 = e.view :=
  ⟨by decide +kernel, (viewHistory_faithful service (timeouts []) (electing.map Move.action) (by decide +kernel) 100).1
    1 6 (by decide) (by decide +kernel)⟩

theorem not_viewHistory_faithful :
    ¬∀ (g : Genesis) (c : Setup) (xs : List Action), (∀ x ∈ xs, x.Fifo) →
      Runs.Along step World.Fits (g.start c) xs → ∀ n,
        let w := (g.start c).run (xs.take n)
        ∀ i q, 0 < q → q ≤ (w.nodes i).state.lastIdx → ∃ e, entryAt (w.nodes i).ledger q = some e ∧
          (w.nodes i).state.viewHistory.viewAt q = e.view := by
  intro h
  obtain ⟨e, he, hview⟩ := h service (timeouts []) halfApplying halfApplying_fifo (by decide +kernel) 100 2 5
    (by decide) (by decide +kernel)
  have hentry : entryAt (((service.start (timeouts [])).run (halfApplying.take 100)).nodes 2).ledger 5 =
      some ⟨3, dataTx 10 2⟩ := by decide +kernel
  have hhistory :
      (((service.start (timeouts [])).run (halfApplying.take 100)).nodes 2).state.viewHistory.viewAt 5 = 2 := by
    decide +kernel
  rw [hhistory, ← Option.some.inj he] at hview
  cases hview

/-! ### Leaders write, majorities keep -/

/-- **The log of a view is that of its leader.**  In a run in which no view has two leaders, the log of a leader only
grows, and whatever any node has of the view is part of it. -/
theorem leader_log_grows (hrun : Runs.Along step (fun w x => w.Fits x ∧ w.KeepsViews x) (g.start c) xs)
    (hone : (g.start c).OneLeader xs) (n k : ℕ) (hnk : n ≤ k) (X : NodeId) :
    let w := (g.start c).run (xs.take n)
    let b := ((g.start c).run (xs.take k)).nodes X
    b.isLeader →
      (∀ L, (w.nodes L).isLeader → (w.nodes L).state.currentView = b.state.currentView →
        (w.nodes L).ledger <+: b.ledger) ∧
      ∀ i j, 0 < j → j ≤ (w.nodes i).ledger.length →
        (w.nodes i).state.viewHistory.viewAt j = b.state.currentView → (w.nodes i).ledger.take j <+: b.ledger := by
  intro w b hlead
  have hp := permitted_led False hone (hrun.imp fun _ _ h => ⟨h.1, False.elim, h.2⟩)
  have hstart := follows_led False hone
  obtain ⟨s₁, s₂, hl, h₁, h₂⟩ := hstart.points hp hnk
  have hs := (h₂.nodes X).tells.speaks hlead
  have hgrows := hl.tl_prefix b.state.currentView
  rw [hs.tl_eq] at hgrows
  constructor
  · intro L hL hview
    have hs₁ := (h₁.nodes L).tells.speaks hL
    rw [← hview, hs₁.tl_eq] at hgrows
    exact hgrows
  · intro i j hpos hj hview
    have hcoherent := (h₁.nodes i).coherent h₁.inv j hpos hj
    rw [← (h₁.nodes i).recorded.viewAt_eq (g := g) hj, hview] at hcoherent
    exact hcoherent.trans hgrows

theorem leader_log_grows_electing :
    let w := service.start (timeouts [])
    let xs := electing.map Move.action
    ((w.run (xs.take 14)).nodes 0).ledger <+: ((w.run (xs.take 28)).nodes 0).ledger ∧
      ((w.run (xs.take 14)).nodes 1).ledger.take 4 <+: ((w.run (xs.take 28)).nodes 0).ledger := by
  have h := leader_log_grows service (timeouts []) (electing.map Move.action) (by decide +kernel)
    (oneLeader_of_check [0, 1, 2] (by decide) (by decide +kernel) (by decide +kernel)) 14 28 (by decide) 0
    (by decide +kernel)
  exact ⟨h.1 0 (by decide +kernel) (by decide +kernel), h.2 1 4 (by decide) (by decide +kernel) (by decide +kernel)⟩

/-- **What is committed stays on a majority.**  What a node has committed is at every later point in the logs of a
majority of the members of a configuration that it leads to. -/
theorem committed_on_majority
    (hrun : Runs.Along step (fun w x => w.Fits x ∧ w.KeepsVotes x ∧ w.CommitsWithinBatch x ∧ w.KeepsViews x)
      (g.start c) xs) (n k : ℕ) (hnk : n ≤ k) (i : NodeId) :
    let a := ((g.start c).run (xs.take n)).nodes i
    0 < a.state.commitIdx → ∃ log Q, a.ledger.take a.state.commitIdx <+: log ∧ Majority Q (membersOf log).toFinset ∧
      ∀ q ∈ Q, log <+: (((g.start c).run (xs.take k)).nodes q).ledger := by
  intro a hpos
  obtain ⟨s₁, s₂, hl, h₁, h₂⟩ := (follows_faithful g c).points (permitted_faithful hrun) hnk
  rcases hl.committed (h₁.committed trivial i) with hnil | ⟨e, he, -, hcommitted⟩
  · have hlen := length_take_of_le (h₁.nodes i).tracks.commit_le
    rw [hnil] at hlen
    exact absurd hlen hpos.ne
  · refine ⟨s₂.committed e, e.quorum, hcommitted, ?_, fun q hq => ?_⟩
    · obtain ⟨-, hbase, hlast, hlen, -⟩ := h₂.inv.event_bounds e he
      have hmajority := h₂.inv.event_quorate e he e.idx hbase (by rw [length_take]; omega)
      rw [take_take, min_eq_left hlast] at hmajority
      exact hmajority
    · rw [← (h₂.nodes q).log_eq]
      exact h₂.inv.committed_prefix_log trivial he hq

theorem committed_on_majority_joining :
    let w := service.start (timeouts [])
    let xs := joining.map Move.action
    ((w.run (xs.take 19)).nodes 0).state.commitIdx = 4 ∧
      ∃ log Q, ((w.run (xs.take 19)).nodes 0).ledger.take 4 <+: log ∧ Majority Q (membersOf log).toFinset ∧
        ∀ q ∈ Q, log <+: ((w.run (xs.take 30)).nodes q).ledger :=
  ⟨by decide +kernel, committed_on_majority service (timeouts []) (joining.map Move.action) (by decide +kernel) 19 30
    (by decide) 0 (by decide +kernel)⟩

/-! ### What consensus accepts -/

namespace World

/-- Nodes keep their votes, commit within batches and have faithful view histories. -/
def Regular (w : World) (x : Action) : Prop :=
  w.Fits x ∧ w.KeepsVotes x ∧ w.CommitsWithinBatch x ∧ w.KeepsViews x

instance (w : World) (x : Action) : Decidable (w.Regular x) := inferInstanceAs (Decidable (_ ∧ _ ∧ _ ∧ _))

theorem Regular.permitted {x : Action} (h : w.Regular x) : w.Permitted faithfulMode x :=
  ⟨h.1, fun _ _ => trivial, fun _ => h.2.1, fun _ => h.2.2.1, h.2.2.2⟩

variable {term : ℕ}

theorem permitted_replicate {i : NodeId} {es : List (ℕ × Tx)}
    (hfits : w.Fits (.replicate i es term)) : w.Permitted faithfulMode (.replicate i es term) :=
  ⟨hfits, fun _ _ => trivial, fun _ => trivial, fun _ => trivial, trivial⟩

end World

variable {g} {sys : Sys NodeId Entry} {i : NodeId} {a : Aft} {es : List (ℕ × Tx)} {n : ℕ}

theorem Aft.ledger_updateCommit (a : Aft) : a.updateCommit.state.ledger = a.ledger := by
  unfold Aft.updateCommit
  by_cases hlead : a.isLeader
  · rw [if_neg (not_not.2 hlead)]
    split
    · rfl
    · rfl
    · split_ifs
      · rfl
      · split
        · rfl
        · split_ifs
          · exact (Aft.commit_log a _).2
          · rfl
  · rw [if_pos hlead]
    rfl

/-- Only the leader of the view of the batch accepts entries. -/
theorem Sim.ledger_replicate (h : Sim g m sys i a) (hinv : Inv g.proto m sys) (term : ℕ)
    (hwf : a.isLeader → WellFormed (a.ledger ++ Aft.newEntries a.state.currentView es)) :
    ∃ n ≤ es.length, (a.replicate es term).1.state.ledger = a.ledger ++ (Aft.newEntries a.state.currentView es).take n ∧
      (n ≠ 0 → a.isLeader ∧ term = a.state.currentView) ∧ NumberedFrom (a.ledger.length + 1) (es.take n) ∧
      (a.isLeader → term = a.state.currentView → NumberedFrom (a.ledger.length + 1) es → n = es.length) := by
  have hnone : ¬(a.isLeader ∧ term = a.state.currentView) →
      ∃ n ≤ es.length, a.ledger = a.ledger ++ (Aft.newEntries a.state.currentView es).take n ∧
        (n ≠ 0 → a.isLeader ∧ term = a.state.currentView) ∧ NumberedFrom (a.ledger.length + 1) (es.take n) ∧
        (a.isLeader → term = a.state.currentView → NumberedFrom (a.ledger.length + 1) es → n = es.length) :=
    fun hnot => ⟨0, Nat.zero_le _, (append_nil _).symm, fun hne => absurd rfl hne, nofun,
      fun hlead hterm => absurd ⟨hlead, hterm⟩ hnot⟩
  unfold Aft.replicate
  split_ifs with hlead hterm hretired
  · exact hnone fun h => hterm h.2
  · exact absurd hretired (h.tells.speaks hlead).active
  · obtain ⟨-, n, hn, hledger, hnumbered, hall⟩ := h.replicateLoop hinv hlead (hwf hlead)
    refine ⟨n, hn, ?_, fun _ => ⟨hlead, not_not.1 hterm⟩, hnumbered, fun _ _ => hall⟩
    rw [← hledger]
    unfold Aft.replicateBatch
    split
    · rename_i b hb
      rw [hb]
      split_ifs
      · exact Aft.ledger_updateCommit b
      · rfl
    · rfl
  · rw [h.rollback_last]
    exact hnone fun h => hlead h.1

/-- How many entries of a batch consensus accepts. -/
theorem Follows.ledger_replicate (hf : Follows g m sys w) (hfits : w.Fits (.replicate i es term)) :
    ∃ n ≤ es.length,
      ((w.step (.replicate i es term)).nodes i).ledger =
        (w.nodes i).ledger ++ (Aft.newEntries (w.nodes i).state.currentView es).take n ∧
      ((w.step (.replicate i es term)).nodes i).ledger.length - (w.nodes i).ledger.length = n ∧
      (n ≠ 0 → (w.nodes i).isLeader ∧ term = (w.nodes i).state.currentView) ∧
      NumberedFrom ((w.nodes i).ledger.length + 1) (es.take n) ∧
      ((w.nodes i).isLeader → term = (w.nodes i).state.currentView →
        NumberedFrom ((w.nodes i).ledger.length + 1) es → n = es.length) := by
  obtain ⟨n, hn, hledger, hrest⟩ := Sim.ledger_replicate (hf.nodes i) hf.inv term hfits
  have hnodes : ((w.step (.replicate i es term)).nodes i).ledger =
      ((w.nodes i).replicate es term).1.state.ledger := by
    show ((w.act i (.replicate es term)).nodes i).ledger = _
    rw [World.nodes_act]
    rfl
  have hlength : (Aft.newEntries (w.nodes i).state.currentView es).length = es.length := length_map _
  refine ⟨n, hn, hnodes.trans hledger, ?_, hrest⟩
  rw [hnodes, hledger, length_append, length_take, hlength, min_eq_left hn, Nat.add_sub_cancel_left]

/-- The log of the leader of a view has the entries that have been accepted in it. -/
theorem Follows.length_le_tl (hf : Follows g m sys w) {log : List Entry} {view : ℕ} (hn : n ≤ es.length) (hpos : 0 < n)
    (hledger : (w.nodes i).ledger = log ++ (Aft.newEntries view es).take n) :
    log.length + n ≤ (sys.tl view).length := by
  have hlength : ((Aft.newEntries view es).take n).length = n := by
    rw [length_take, Aft.newEntries, length_map, min_eq_left hn]
  have hcoherent := hf.inv.log_coherent i (log.length + n) (by omega)
  rw [(hf.nodes i).log_eq, hledger, length_append, hlength] at hcoherent
  have hprefix := hcoherent le_rfl
  obtain ⟨k, rfl⟩ : ∃ k, n = k + 1 := ⟨n - 1, by omega⟩
  have hterm : g.proto.termAt (log ++ (Aft.newEntries view es).take (k + 1)) (log.length + (k + 1)) = view := by
    have hk : k < es.length := by omega
    show ((log ++ (Aft.newEntries view es).take (k + 1))[log.length + k]?).elim 0 g.proto.term = view
    rw [getElem?_append_right (Nat.le_add_right _ _), Nat.add_sub_cancel_left,
      getElem?_take_of_lt (Nat.lt_succ_self k)]
    simp only [Aft.newEntries, getElem?_map, getElem?_eq_getElem hk]
    rfl
  rw [hterm] at hprefix
  have := hprefix.length_le
  rw [length_take, length_append, hlength, Nat.min_self] at this
  exact this

end Ccf
