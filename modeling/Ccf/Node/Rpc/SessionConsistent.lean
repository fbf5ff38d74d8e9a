import Ccf.Node.Rpc.SessionConsistency

/-! # Sessions are consistent on settled stores

What a request observes on a settled store is held by its node while it stays in its view: it is part of the log the
node leads the view with, or has acknowledged to the leader of the view, or it is committed (`Kept`). If the first
request of a session is executed in the view it is checked in, every request that passes the check is executed in that
view.

A candidate still has the entries after its last signature. It drops them when it is elected, in the view in which it
stood for election (`not_consistent_elected`). -/

namespace Ccf.Node.SessionConsistency

open List SignedRaft SessionConsistency.System

section
variable {g : Genesis} {sys sys' : Sys NodeId Entry} {s : System} {a b : Aft} {i : NodeId} {V k n : ℕ}
  {p : List Entry} {m : Mode NodeId}

/-! ### What is kept -/

/-- `p` stays in the log of node `i` for as long as it is in view `V`. -/
def Kept (sys : Sys NodeId Entry) (a : Aft) (i : NodeId) (V : ℕ) (p : List Entry) : Prop :=
  V < a.state.currentView ∨ sys.Holds i V p ∨ p <+: a.ledger.take a.state.commitIdx

theorem Kept.step (h : Kept sys a i V p) (hl : Later sys sys') (he : Aft.Evolves a b) : Kept sys' b i V p := by
  rcases h with hlt | hholds | hcommitted
  · exact .inl (hlt.trans_le he.view_le)
  · exact .inr (.inl (hholds.later hl))
  · refine .inr (.inr (prefix_take_iff.2 ⟨hcommitted.trans he.committed_kept, ?_⟩))
    exact hcommitted.length_le.trans ((length_take_le _ _).trans he.commit_le)

theorem Kept.mono {V' : ℕ} (h : Kept sys a i V' p) (hle : V ≤ V') (hview : V' ≤ a.state.currentView) :
    Kept sys a i V p := by
  rcases eq_or_lt_of_le hle with rfl | hlt
  · exact h
  · exact .inl (hlt.trans_le hview)

theorem Kept.prefix_ledger (h : Kept sys a i V p) (hsim : Sim g m sys i a) (hinv : Inv g.proto m sys)
    (hview : V ≤ a.state.currentView) : V < a.state.currentView ∨ p <+: a.ledger := by
  rcases eq_or_lt_of_le hview with rfl | hlt
  · rcases h with hlt | hholds | hcommitted
    · exact .inl hlt
    · rw [← hsim.view_eq] at hholds
      exact .inr (hsim.log_eq ▸ hholds.prefix_log hinv)
    · exact .inr (hcommitted.trans ( take_prefix _ _))
  · exact .inl hlt

/-- The log of a settled store is kept. -/
theorem kept_of_settled (hf : Follows g faithfulMode sys s.world) (h : s.Settled i) :
    Kept sys (s.world.nodes i) i (s.world.nodes i).state.currentView (s.log i) := by
  obtain ⟨hnone, hsettled⟩ := h
  have hlog : s.log i = (s.world.nodes i).ledger := by
    unfold log
    rw [hnone, append_nil]
  rw [hlog]
  rcases hsettled with hlead | hcommit | ⟨q, hq, rfl, hack⟩
  · have hspeaks := (hf.nodes i).tells.speaks hlead
    exact .inr (.inl (.inl ⟨hspeaks.leader_eq, hspeaks.tl_eq ▸ prefix_rfl⟩))
  · exact .inr (.inr (by rw [take_of_length_le hcommit]))
  · obtain ⟨-, hjustified⟩ := hf.sent q hq
    cases hmsg : q.msg with
    | appendEntriesResponse r =>
      rw [hmsg] at hack hjustified
      obtain ⟨hsuccess, hterm, hle⟩ := hack
      have hmem := hjustified hsuccess
      rw [hterm, ← (hf.nodes q.src).view_eq] at hmem
      -- what is acknowledged is in the log, which is not longer
      have hprefix := hf.inv.ack_kept _ hmem r.lastLogIdx le_rfl (.inl rfl) (fun T hlt hle => by
        dsimp only at hlt hle
        omega)
      have hlength := (hf.inv.ack_le _ hmem).1
      rw [(hf.nodes q.src).log_eq] at hprefix
      have heq := hprefix.eq_of_length_le (by
        rw [length_take, min_eq_left hlength]
        exact hle)
      rw [← (hf.nodes q.src).view_eq]
      exact .inr (.inl (.inr ⟨r.lastLogIdx, hmem, heq ▸ prefix_rfl⟩))
    | _ =>
      rw [hmsg] at hack
      exact hack.elim

/-! ### The invariant of a session -/

/-- An earlier request has observed or written `log`. -/
def Session.Observed (se : Session) (log : List Entry) : Prop := ∃ ans ∈ se.answers, log ∈ ans.result.log?

theorem eq_of_mem_log {accepted : Bool} {written log : List Entry}
    (h : log ∈ (if accepted then Result.success written else .failed).log?) : log = written := by
  cases accepted with
  | true => exact (Option.some.inj h).symm
  | false => cases h

/-- What is known of the request under way. -/
def PhaseInv (sys : Sys NodeId Entry) (a : Aft) (se : Session) : Phase → Prop
  | .idle | .created | .closed => True
  | .executed view read => view ≤ a.state.currentView ∧ (∀ V ∈ se.activeView, V ≤ view) ∧ Kept sys a se.node view read ∧
      ∀ log, se.Observed log → ∀ V ∈ se.activeView, V < a.state.currentView ∨ log <+: read
  | .checked read => (∃ V ∈ se.activeView, Kept sys a se.node V read) ∧ ∀ log, se.Observed log → log <+: read
  | .written read _ => se.activeView ≠ none ∧ ∀ log, se.Observed log → log <+: read

structure SessionInv (sys : Sys NodeId Entry) (a : Aft) (se : Session) : Prop where
  active : ∀ V ∈ se.activeView, V ≤ a.state.currentView
  observed : ∀ log, se.Observed log → ∃ V ∈ se.activeView, Kept sys a se.node V log
  consistent : se.Consistent
  phase : PhaseInv sys a se se.phase

namespace SessionInv

variable {se : Session} (h : SessionInv sys a se)
include h

theorem step (hl : Later sys sys') (he : Aft.Evolves a b) : SessionInv sys' b se where
  active V hV := (h.active V hV).trans he.view_le
  observed log hlog := by
    obtain ⟨V, hV, hkept⟩ := h.observed log hlog
    exact ⟨V, hV, hkept.step hl he⟩
  consistent := h.consistent
  phase := by
    have hphase := h.phase
    cases hse : se.phase with
    | executed view read =>
      rw [hse] at hphase
      obtain ⟨hview, hactive, hkept, hread⟩ := hphase
      refine ⟨hview.trans he.view_le, hactive, hkept.step hl he, fun log hlog V hV => ?_⟩
      exact (hread log hlog V hV).imp_left fun hlt => hlt.trans_le he.view_le
    | checked read =>
      rw [hse] at hphase
      obtain ⟨⟨V, hV, hkept⟩, hread⟩ := hphase
      exact ⟨⟨V, hV, hkept.step hl he⟩, hread⟩
    | written read log =>
      rw [hse] at hphase
      exact hphase
    | _ => trivial

omit h

theorem init (node : NodeId) (k : ℕ) : SessionInv sys a { node := node, clientSessionId := k } where
  active _ hV := by cases hV
  observed _ hlog := by
    obtain ⟨_, hmem, -⟩ := hlog
    cases hmem
  consistent := List.Pairwise.nil
  phase := trivial

include h

theorem setPhase (phase : Phase) (hphase : PhaseInv sys a se phase) :
    SessionInv sys a { se with phase := phase } where
  active := h.active
  observed := h.observed
  consistent := h.consistent
  phase := by cases phase <;> exact hphase

theorem answer {read : List Entry} {result : Result}
    (hread : result.isLost = false → ∀ log, se.Observed log → log <+: read)
    (hsuccess : ∀ log ∈ result.log?, ∃ V ∈ se.activeView, Kept sys a se.node V log) :
    SessionInv sys a (se.answer read result) where
  active := h.active
  observed := by
    rintro log ⟨ans, hans, hresult⟩
    rcases mem_append.1 hans with hans | hans
    · exact h.observed log ⟨ans, hans, hresult⟩
    · obtain rfl := mem_singleton.1 hans
      exact hsuccess log hresult
  consistent := by
    refine pairwise_append.2 ⟨h.consistent, pairwise_singleton _ _, fun earlier hearlier later hlater => ?_⟩
    obtain rfl := mem_singleton.1 hlater
    exact fun log hlog hlost => hread hlost log ⟨earlier, hearlier, hlog⟩
  phase := trivial

/-- The view is compared, or recorded. -/
theorem check : (∃ msg V, se.activeView = some V ∧ se.checkSessionConsistency a.state.currentView = (some msg, se)) ∨
    (se.activeView = some a.state.currentView ∧ se.checkSessionConsistency a.state.currentView = (none, se)) ∨
    (se.activeView = none ∧ se.checkSessionConsistency a.state.currentView =
        (none, { se with activeView := some a.state.currentView }) ∧
      ∀ log, ¬se.Observed log) := by
  unfold Session.checkSessionConsistency
  cases hactive : se.activeView with
  | none =>
    refine .inr (.inr ⟨rfl, rfl, fun log hlog => ?_⟩)
    obtain ⟨V, hV, -⟩ := h.observed log hlog
    rw [hactive] at hV
    cases hV
  | some V =>
    by_cases hV : a.state.currentView = V
    · subst hV
      exact .inr (.inl ⟨rfl, if_neg (not_not.2 rfl)⟩)
    · exact .inl ⟨_, V, rfl, if_pos hV⟩

/-- The view of the node is recorded before any request has been answered. -/
theorem record (hnone : ∀ log, ¬se.Observed log) (phase : Phase)
    (hphase : PhaseInv sys a { se with activeView := some a.state.currentView, phase := phase } phase) :
    SessionInv sys a { se with activeView := some a.state.currentView, phase := phase } where
  active V hV := by
    cases hV
    exact le_rfl
  observed log hlog := absurd hlog (hnone log)
  consistent := h.consistent
  phase := hphase

omit h

end SessionInv

/-! ### The invariant of the system -/

structure SystemInv (g : Genesis) (sys : Sys NodeId Entry) (s : System) : Prop where
  follows : Follows g faithfulMode sys s.world
  index : ∀ i, Aft.IndexInv (s.world.nodes i).state
  sessions : ∀ k, SessionInv sys (s.home k) (s.sessions k)

namespace SystemInv

variable {s' : System} (h : SystemInv g sys s) {x : Ccf.Action}
include h

/-- The invariant is about the network and the sessions. -/
theorem of_eq (hworld : s'.world = s.world) (hsessions : s'.sessions = s.sessions) : SystemInv g sys s' := by
  refine ⟨hworld ▸ h.follows, hworld ▸ h.index, fun k => ?_⟩
  unfold home
  rw [hworld, hsessions]
  exact h.sessions k

theorem world_step (s' : System) (hp : s.world.Permitted faithfulMode x)
    (hworld : s'.world = s.world.step x) (hsessions : s'.sessions = s.sessions) :
    ∃ sys', Later sys sys' ∧ SystemInv g sys' s' := by
  obtain ⟨sys', hl, hf⟩ := h.follows.step hp
  refine ⟨sys', hl, hworld ▸ hf, fun i => ?_, fun k => ?_⟩
  · rw [hworld]
    exact (World.advances_step s.world x i (h.index i)).1
  · unfold home
    rw [hworld, hsessions]
    exact (h.sessions k).step hl (World.advances_step s.world x _ (h.index _)).2

theorem setSession (k : ℕ) {se : Session} (hse : SessionInv sys (s.world.nodes se.node) se) :
    SystemInv g sys (s.setSession k se) where
  follows := h.follows
  index := h.index
  sessions k' := by
    unfold System.setSession System.home
    by_cases hk : k' = k
    · subst hk
      simp only [Function.update_self]
      exact hse
    · simp only [Function.update_of_ne hk]
      exact h.sessions k'

/-- What has been observed in the view of the node is in the log of its store. -/
theorem prefix_log {log : List Entry} (hlog : (s.sessions k).Observed log)
    (hV : V ∈ (s.sessions k).activeView) :
    V < (s.home k).state.currentView ∨ log <+: s.log (s.sessions k).node := by
  obtain ⟨V', hV', hkept⟩ := (h.sessions k).observed log hlog
  rw [hV] at hV'
  cases hV'
  refine (hkept.prefix_ledger (h.follows.nodes _) h.follows.inv ((h.sessions k).active V hV)).imp_right fun hp => ?_
  exact hp.trans (prefix_append _ _)

/-! ### Steps of requests -/

theorem execute {throws : Bool} (hguard : s.Guarded (.execute k throws)) :
    SystemInv g sys (s.step (.execute k throws)) := by
  simp only [step]
  split
  · cases throws with
    | true =>
      have hview : ∀ view ∈ (s.sessions k).activeView, (s.home k).state.currentView = view := hguard
      refine h.setSession k ((h.sessions k).answer (fun _ log hlog => ?_) nofun)
      obtain ⟨V, hV, -⟩ := (h.sessions k).observed log hlog
      refine (h.prefix_log hlog hV).resolve_left ?_
      rw [hview V hV]
      exact lt_irrefl V
    | false =>
      refine h.setSession k ((h.sessions k).setPhase _ ⟨le_rfl, (h.sessions k).active, ?_, ?_⟩)
      · exact kept_of_settled h.follows hguard
      · exact fun log hlog V hV => h.prefix_log hlog hV
  · exact h

theorem check (hguard : s.Guarded (.check k)) : SystemInv g sys (s.step (.check k)) := by
  simp only [step]
  simp only [System.Guarded] at hguard
  have hse := h.sessions k
  cases hphase : (s.sessions k).phase with
  | executed view read =>
    rw [hphase] at hguard
    have hinv := hse.phase
    rw [hphase] at hinv
    obtain ⟨hle, hactive, hkept, hread⟩ := hinv
    unfold System.check
    rcases hse.check with ⟨msg, V, -, heq⟩ | ⟨hV, heq⟩ | ⟨hnone, heq, hobserved⟩
    · rw [heq]
      have hlost : SessionInv sys (s.home k) ((s.sessions k).answer read (.sessionConsistencyLost msg)) :=
        hse.answer nofun nofun
      exact h.setSession k (hlost.setPhase .closed trivial)
    · rw [heq]
      refine h.setSession k (hse.setPhase _ ⟨⟨_, hV, hkept.mono (hactive _ hV) hle⟩, fun log hlog => ?_⟩)
      exact (hread log hlog _ hV).resolve_left (lt_irrefl _)
    · rw [heq]
      refine h.setSession k (hse.record hobserved _ ⟨⟨_, rfl, ?_⟩, fun log hlog => absurd hlog (hobserved log)⟩)
      rw [hguard hnone]
      exact hkept
  | _ => exact h

theorem forward : SystemInv g sys (s.forward k) := by
  unfold System.forward
  have hse := h.sessions k
  rcases hse.check with ⟨msg, V, -, heq⟩ | ⟨-, heq⟩ | ⟨-, heq, hobserved⟩
  · rw [heq]
    exact h.setSession k (hse.setPhase .closed trivial)
  · rw [heq]
    exact h.setSession k (hse.setPhase .idle trivial)
  · rw [heq]
    exact h.setSession k (hse.record hobserved .idle trivial)

omit h

end SystemInv

/-! ### Commits -/

theorem numbered_batch (s : System) (i : NodeId) (n : ℕ) :
    NumberedFrom ((s.world.nodes i).ledger.length + 1) (s.batch i n) := by
  intro k q hq
  unfold batch at hq
  rw [getElem?_mapIdx] at hq
  obtain ⟨e, -, rfl⟩ := Option.map_eq_some_iff.1 hq
  rfl

theorem newEntries_batch {view : ℕ} (h : ∀ e ∈ (s.unreplicated i).take n, e.view = view) :
    Aft.newEntries view (s.batch i n) = (s.unreplicated i).take n := by
  unfold Aft.newEntries batch
  refine ext_getElem? fun k => ?_
  rw [getElem?_map, getElem?_mapIdx]
  cases hk : ((s.unreplicated i).take n)[k]? with
  | none => rfl
  | some e =>
    have := h e (mem_of_getElem? hk)
    subst this
    rfl

variable (h : SystemInv g sys s) {term : ℕ}
include h

/-- A transaction that is accepted in a batch of the leader is kept. -/
theorem kept_replicate (hl : Later sys sys')
    (h' : SystemInv g sys' (s.replicate i n term)) (hfits : s.world.Fits (.replicate i (s.batch i n) term))
    (hlead : (s.world.nodes i).isLeader) (hterm : term = (s.world.nodes i).state.currentView)
    (hviews : ∀ e ∈ (s.unreplicated i).take n, e.view = (s.world.nodes i).state.currentView)
    (hwritten : p <+: (s.world.nodes i).ledger ++ (s.unreplicated i).take n) :
    Kept sys' ((s.replicate i n term).world.nodes i) i (s.world.nodes i).state.currentView p := by
  obtain ⟨count, -, hledger, -, -, -, hall⟩ := h.follows.ledger_replicate hfits
  have hcount := hall hlead hterm (numbered_batch s i n)
  have hlength : (Aft.newEntries (s.world.nodes i).state.currentView (s.batch i n)).length = (s.batch i n).length :=
    length_map _
  rw [hcount, ← hlength, take_length, newEntries_batch hviews] at hledger
  have hsim' := h'.follows.nodes i
  have hview : (s.world.nodes i).state.currentView ≤ ((s.replicate i n term).world.nodes i).state.currentView :=
    (World.advances_step s.world (.replicate i (s.batch i n) term) i (h.index i)).2.view_le
  rcases eq_or_lt_of_le hview with heq | hlt
  · have hleader := hl.leader_eq _ _ ((h.follows.nodes i).tells.speaks hlead).leader_eq
    refine .inr (.inl (.inl ⟨hleader, ?_⟩))
    have hlog := h'.follows.inv.leader_log i
    rw [hsim'.view_eq, ← heq, hsim'.log_eq] at hlog
    rw [← hlog hleader]
    show p <+: ((s.world.step (.replicate i (s.batch i n) term)).nodes i).ledger
    rw [hledger]
    exact hwritten
  · exact .inl hlt

theorem SystemInv.commit (hlaw : s.Lawful (.commit k n term))
    (hguard : s.Guarded (.commit k n term)) : ∃ sys', SystemInv g sys' (s.step (.commit k n term)) := by
  simp only [step]
  simp only [System.Guarded] at hguard
  have hse := h.sessions k
  cases hphase : (s.sessions k).phase with
  | written read written =>
    rw [hphase] at hguard
    obtain ⟨hlead, hterm, hviews, hwritten⟩ := hguard
    have hinv := hse.phase
    rw [hphase] at hinv
    obtain ⟨hactive, hread⟩ := hinv
    obtain ⟨V, hV⟩ := Option.ne_none_iff_exists'.1 hactive
    unfold System.commit
    dsimp only
    by_cases hn : n = 0
    · subst hn
      rw [if_pos rfl]
      refine ⟨sys, h.setSession k (hse.answer (fun _ => hread) fun log hlog => ⟨V, hV, ?_⟩)⟩
      cases hlog
      have hspeaks : Speaks g faithfulMode sys (s.sessions k).node (s.home k) :=
        (h.follows.nodes (s.sessions k).node).tells.speaks hlead
      rw [take_zero, append_nil, ← hspeaks.tl_eq] at hwritten
      have hkept : Kept sys (s.home k) (s.sessions k).node (s.home k).state.currentView written :=
        .inr (.inl (.inl ⟨hspeaks.leader_eq, hwritten⟩))
      exact hkept.mono (hse.active V hV) le_rfl
    · rw [if_neg hn]
      obtain ⟨sys', hl, h'⟩ := h.world_step (s.replicate (s.sessions k).node n term)
        (World.permitted_replicate hlaw) rfl rfl
      have hse' := h'.sessions k
      refine ⟨sys', h'.setSession k (hse'.answer (fun _ => hread) fun log hlog => ⟨V, hV, ?_⟩)⟩
      obtain rfl := eq_of_mem_log hlog
      have hkept := kept_replicate h hl h' hlaw hlead hterm hviews hwritten
      refine hkept.mono (hse.active V hV) ?_
      exact (World.advances_step s.world (.replicate _ (s.batch _ n) term) _ (h.index _)).2.view_le
  | _ => exact ⟨sys, h⟩

/-! ### Runs -/

theorem SystemInv.step {x : Action} (hlaw : s.Lawful x) (hguard : s.Guarded x) :
    ∃ sys', SystemInv g sys' (s.step x) := by
  cases x with
  | consensus x rollsBack =>
    have hstep : ∀ x, s.world.Regular x → ∃ sys', SystemInv g sys' (s.consensus x rollsBack) := by
      intro x hx
      obtain ⟨sys', -, h'⟩ := h.world_step (s.consensus x rollsBack) hx.permitted rfl rfl
      exact ⟨sys', h'⟩
    cases x with
    | replicate => exact ⟨sys, h⟩
    | _ => exact hstep _ hlaw
  | apply i e => exact ⟨sys, h.of_eq rfl rfl⟩
  | replicate i n term =>
    obtain ⟨sys', -, h'⟩ := h.world_step (s.replicate i n term) (World.permitted_replicate hlaw) rfl rfl
    exact ⟨sys', h'⟩
  | create k | retry k =>
    refine ⟨sys, ?_⟩
    simp only [System.step]
    split
    · exact h.setSession k ((h.sessions k).setPhase .created trivial)
    · exact h
  | decline k =>
    refine ⟨sys, ?_⟩
    simp only [System.step]
    split
    · exact h.setSession k ((h.sessions k).setPhase .idle trivial)
    · exact h
  | forward k =>
    refine ⟨sys, ?_⟩
    simp only [System.step]
    split
    · exact h.forward
    · exact h
  | execute k throws => exact ⟨sys, h.execute hguard⟩
  | check k => exact ⟨sys, h.check hguard⟩
  | respond k shouldApplyWrites =>
    refine ⟨sys, ?_⟩
    have hinv := (h.sessions k).phase
    simp only [System.step]
    split
    · rename_i read hphase
      rw [hphase] at hinv
      refine h.setSession k ((h.sessions k).answer (fun _ => hinv.2) fun log hlog => ?_)
      obtain rfl := eq_of_mem_log hlog
      exact hinv.1
    · exact h
  | write k e =>
    refine ⟨sys, ?_⟩
    have hinv := (h.sessions k).phase
    simp only [System.step]
    split
    · rename_i read hphase
      rw [hphase] at hinv
      obtain ⟨⟨V, hV, -⟩, hread⟩ := hinv
      have hactive : (s.sessions k).activeView ≠ none := by
        rw [hV]
        exact Option.some_ne_none V
      have hwritten : SystemInv g sys (s.setSession k
          { s.sessions k with phase := .written read (s.log (s.sessions k).node ++ [e]) }) :=
        h.setSession k ((h.sessions k).setPhase _ ⟨hactive, hread⟩)
      exact hwritten.of_eq rfl rfl
    · exact h
  | commit k n term => exact h.commit hlaw hguard
  | fail k =>
    refine ⟨sys, ?_⟩
    have hinv := (h.sessions k).phase
    simp only [System.step]
    split
    · rename_i read hphase
      rw [hphase] at hinv
      exact h.setSession k ((h.sessions k).answer (fun _ => hinv.2) nofun)
    · rename_i read log hphase
      rw [hphase] at hinv
      exact h.setSession k ((h.sessions k).answer (fun _ => hinv.2) nofun)
    · exact h

omit h

end

theorem systemInv_init (g : Genesis) (c : Setup) (home : ℕ → NodeId) :
    SystemInv g (g.proto.initial g.primary) (.init g c home) :=
  ⟨.start trivial, World.indexInv_start, fun k => SessionInv.init (home k) k⟩

/-- **Session consistency** in every lawful run in which requests are executed on settled stores. -/
theorem consistent_of_guarded (g : Genesis) (c : Setup) (home : ℕ → NodeId) (xs : List Action)
    (hlaw : Runs.Along step System.Lawful (.init g c home) xs)
    (hguard : Runs.Along step System.Guarded (.init g c home) xs) (k : ℕ) :
    ((Runs.exec step (.init g c home) xs).sessions k).Consistent := by
  obtain ⟨sys, h⟩ := Runs.exec_induction (I := fun s => ∃ sys, SystemInv g sys s)
    (fun s x ⟨sys, h⟩ hx => h.step hx.1 hx.2) ⟨_, systemInv_init g c home⟩ (Runs.along_and.2 ⟨hlaw, hguard⟩)
  exact (h.sessions k).consistent

/-! ### Two nodes -/

section

open Move

def moves (l : List Move) : List Action := l.map fun m => .consensus m.action false

/-- Node 1 joins. -/
def joined : List Action :=
  [.apply 0 ⟨2, nodesTx .trusted [1] nodup_one⟩, .apply 0 ⟨2, signTx⟩, .replicate 0 2 2] ++
    moves ([deliver 0 1, deliver 1 0, tick 0 10] ++ .replicate 4 (deliver 0 1) ++ .replicate 4 (deliver 1 0))

/-- A request that reads. -/
def reads (k : ℕ) : List Action := [.create k, .execute k false, .check k, .respond k true]

/-- Session 0 writes on the leader; session 1 reads on the other node before and after the entry is replicated. -/
def served : List Action :=
  joined ++ [.create 0, .execute 0 false, .check 0, .write 0 ⟨2, dataTx 10 1⟩, .commit 0 1 2] ++ reads 0 ++ reads 1 ++
    moves [tick 0 10, deliver 0 1] ++ reads 1

theorem consistent_of_guarded_served :
    let se := (Runs.exec step (.init service (timeouts []) id) served).sessions 1
    se.answers.map (fun a => a.read.length) = [4, 5] ∧ se.Consistent :=
  ⟨by decide +kernel, consistent_of_guarded service (timeouts []) id served (by decide +kernel) (by decide +kernel) 1⟩

/-- Node 0 has an entry without a signature when it stands for election in view 3. A request of session 0 reads it; then
the vote of node 1 arrives, and the session goes on. -/
def elected : List Action :=
  joined ++ [.apply 0 ⟨2, dataTx 10 1⟩, .replicate 0 1 2] ++ moves [tick 0 100, tick 0 100, drop 0 1, deliver 0 1] ++
    reads 0 ++ moves [deliver 1 0] ++ reads 0

/-- A new leader drops what a session has observed while it was a candidate. -/
theorem not_consistent_elected :
    ¬∀ (g : Genesis) (c : Setup) (home : ℕ → NodeId) (xs : List Action),
      Runs.Along step System.Lawful (.init g c home) xs →
      ∀ k, ((Runs.exec step (.init g c home) xs).sessions k).Consistent := by
  intro h
  have hend := h service (timeouts []) id elected (by decide +kernel) 0
  revert hend
  decide +kernel

end

end Ccf.Node.SessionConsistency
