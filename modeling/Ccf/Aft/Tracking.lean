import Ccf.Aft.Indices
import Ccf.Aft.Retirement

/-! # The state of a node follows its log

`Tracks a` says that what a node derives step by step from its log is the function of the log and the commit index
that `LogSpec` defines: the committable indices, the active configurations and its own retirement; that every other node
of an active configuration is known; and that a node whose retirement is committed takes no part in elections.

`Sound o` adds that no exception is thrown that would mean that the tracking has gone wrong. Appending, committing and
rolling back are sound while the log stays well formed; nothing else touches the tracked state. -/

namespace Ccf

open Outcome List Retirement Assoc

/-- The retirement fields of a state. -/
def State.retirement (s : State) : Retirement :=
  ⟨s.membershipState, s.retirementPhase, s.retirementIdx, s.retirementCommittableIdx⟩

def State.setRetirement (s : State) (R : Retirement) : State :=
  { s with
    membershipState := R.membershipState
    retirementPhase := R.retirementPhase
    retirementIdx := R.retirementIdx
    retirementCommittableIdx := R.retirementCommittableIdx }

/-- The failures of the assertions on the membership of a node, and of the look-up of a node of an
active configuration. -/
def AftError.isTracking : AftError → Bool
  | .retirementIdxAlreadySet | .retirementIdxMissing | .indexBelowRetirementIdx | .notRetired | .unknownNode => true
  | _ => false

namespace Aft

/-- Every other node of an active configuration is known, and the node itself is not listed. -/
structure Knows (a : Aft) : Prop where
  known : ∀ c ∈ a.configurations, ∀ n ∈ c.nodes, n ≠ a.state.nodeId → n ∈ keys a.allOtherNodes
  self_not_mem : a.state.nodeId ∉ keys a.allOtherNodes

/-- A node whose retirement is committed is not, and does not try to become, leader. -/
def Idle (a : Aft) : Prop :=
  a.isRetiredCommitted → a.state.leadershipState = .none ∨ a.state.leadershipState = .follower

variable {a b : Aft}

theorem Idle.of_retirement (h : Idle a) (hlead : b.state.leadershipState = a.state.leadershipState)
    (hret : b.state.retirement.retirementPhase = some .retiredCommitted →
      b.state.retirement = a.state.retirement) : Idle b := by
  rintro ⟨hretired, hphase⟩
  have hsame := hret hphase
  rw [hlead]
  exact h ⟨(congrArg membershipState hsame).symm.trans hretired,
    (congrArg retirementPhase hsame).symm.trans hphase⟩

structure Tracks (a : Aft) : Prop where
  wf : WellFormed a.ledger
  last_eq : a.state.lastIdx = a.ledger.length
  commit_signed : a.state.commitIdx = 0 ∨ SignedAt a.ledger a.state.commitIdx
  committable_eq : a.state.committableIndices = (signatures a.ledger).filter (a.state.commitIdx < ·)
  configurations_eq : a.configurations = popConfigurations a.state.commitIdx (configurationsOf a.ledger)
  knows : Knows a
  retirement_eq : a.state.retirement = retirementOf a.ledger a.state.commitIdx a.state.nodeId
  idle : Idle a

structure Sound (o : Result) : Prop where
  tracks : Tracks o.state
  no_failure : ∀ e, o.error? = some e → e.isTracking = false

variable {log : List Entry} {R : Retirement} {i : ℕ}

theorem SignedAt.le_length (h : SignedAt log i) : i ≤ log.length := by
  obtain ⟨e, he, _⟩ := h
  exact (entryAt_eq_some he).2

namespace Sound

theorem ok (h : Tracks a) : Sound (.ok a) := ⟨h, by simp [error?]⟩

theorem raised {e : AftError} (h : Tracks a) (he : e.isTracking = false) : Sound (.raised e a) :=
  ⟨h, by simp [error?, he]⟩

theorem andThen {o : Result} {f : Aft → Outcome AftError Aft} (ho : Sound o)
    (hf : ∀ b, o = .ok b → Tracks b → Sound (f b)) : Sound (o.andThen f) := by
  cases o with
  | ok b => exact hf b rfl ho.tracks
  | raised e b => exact ho

end Sound

namespace Tracks

theorem commit_le (h : Tracks a) : a.state.commitIdx ≤ a.ledger.length := by
  rcases h.commit_signed with h0 | hs
  · omega
  · exact SignedAt.le_length hs

/-- The fields that are tracked, apart from the retirement and the known nodes. -/
structure Kept (a b : Aft) : Prop where
  ledger_eq : b.ledger = a.ledger
  last_eq : b.state.lastIdx = a.state.lastIdx
  commit_eq : b.state.commitIdx = a.state.commitIdx
  committable_eq : b.state.committableIndices = a.state.committableIndices
  configurations_eq : b.configurations = a.configurations
  nodeId_eq : b.state.nodeId = a.state.nodeId

theorem Kept.refl (a : Aft) : Kept a a := ⟨rfl, rfl, rfl, rfl, rfl, rfl⟩

theorem Kept.trans {c : Aft} (hab : Kept a b) (hbc : Kept b c) : Kept a c where
  ledger_eq := hbc.ledger_eq.trans hab.ledger_eq
  last_eq := hbc.last_eq.trans hab.last_eq
  commit_eq := hbc.commit_eq.trans hab.commit_eq
  committable_eq := hbc.committable_eq.trans hab.committable_eq
  configurations_eq := hbc.configurations_eq.trans hab.configurations_eq
  nodeId_eq := hbc.nodeId_eq.trans hab.nodeId_eq

theorem Kept.of_talks (h : Talks a b) : Kept a b where
  ledger_eq := h.ledger_eq
  last_eq := by rw [h.state_eq]
  commit_eq := by rw [h.state_eq]
  committable_eq := by rw [h.state_eq]
  configurations_eq := h.configurations_eq
  nodeId_eq := by rw [h.state_eq]

/-- The fields that are tracked. -/
structure Same (a b : Aft) : Prop extends Kept a b where
  retirement_eq : b.state.retirement = a.state.retirement
  keys_eq : keys b.allOtherNodes = keys a.allOtherNodes

theorem of_same (h : Tracks a) (hs : Same a b) (hidle : Idle b) : Tracks b where
  wf := hs.ledger_eq ▸ h.wf
  last_eq := by rw [hs.last_eq, hs.ledger_eq, h.last_eq]
  commit_signed := by rw [hs.commit_eq, hs.ledger_eq]; exact h.commit_signed
  committable_eq := by rw [hs.committable_eq, hs.commit_eq, hs.ledger_eq, h.committable_eq]
  configurations_eq := by rw [hs.configurations_eq, hs.commit_eq, hs.ledger_eq, h.configurations_eq]
  knows := by
    refine ⟨?_, ?_⟩
    · rw [hs.configurations_eq, hs.nodeId_eq, hs.keys_eq]
      exact h.knows.known
    · rw [hs.nodeId_eq, hs.keys_eq]
      exact h.knows.self_not_mem
  retirement_eq := by rw [hs.retirement_eq, hs.ledger_eq, hs.commit_eq, hs.nodeId_eq, h.retirement_eq]
  idle := hidle

end Tracks

/-! ### Known nodes -/

theorem addNodeState_eq_self {n : NodeId} (h : n = a.state.nodeId ∨ n ∈ keys a.allOtherNodes) :
    a.addNodeState n = a := by
  unfold addNodeState
  rcases h with rfl | h
  · rw [if_pos rfl]
  · split_ifs with hself hknown
    · rfl
    · rfl
    · exact absurd (lookup_isSome_iff.2 h) hknown

theorem keys_addNodeState {n : NodeId} (h : n ≠ a.state.nodeId) (hn : n ∉ keys a.allOtherNodes) :
    keys (a.addNodeState n).allOtherNodes = keys a.allOtherNodes ++ [n] := by
  unfold addNodeState
  rw [if_neg h, if_neg (fun hs => hn (lookup_isSome_iff.1 hs))]
  dsimp only
  split_ifs
  · rw [keys_sendAppendEntries, Assoc.keys_append]
    rfl
  · rw [Assoc.keys_append]
    rfl

/-- Adding nodes keeps those that are known, adds those that are listed, and never the node itself. -/
theorem foldl_addNodeState (l : List NodeId) (a : Aft) (hself : a.state.nodeId ∉ keys a.allOtherNodes) :
    (∀ n ∈ keys a.allOtherNodes, n ∈ keys (l.foldl addNodeState a).allOtherNodes) ∧
      (∀ n ∈ l, n ≠ a.state.nodeId → n ∈ keys (l.foldl addNodeState a).allOtherNodes) ∧
      a.state.nodeId ∉ keys (l.foldl addNodeState a).allOtherNodes := by
  induction l generalizing a with
  | nil => exact ⟨fun n hn => hn, by simp, hself⟩
  | cons x l ih =>
    have hid : (a.addNodeState x).state.nodeId = a.state.nodeId := by rw [(talks_addNodeState a x).state_eq]
    have hx : (∀ n ∈ keys a.allOtherNodes, n ∈ keys (a.addNodeState x).allOtherNodes) ∧
        (x ≠ a.state.nodeId → x ∈ keys (a.addNodeState x).allOtherNodes) ∧
        a.state.nodeId ∉ keys (a.addNodeState x).allOtherNodes := by
      by_cases hknown : x = a.state.nodeId ∨ x ∈ keys a.allOtherNodes
      · rw [addNodeState_eq_self hknown]
        exact ⟨fun n hn => hn, fun hne => hknown.resolve_left hne, hself⟩
      · rw [not_or] at hknown
        rw [keys_addNodeState hknown.1 hknown.2]
        exact ⟨fun n hn => mem_append_left _ hn, fun _ => by simp,
          by simpa using ⟨hself, fun h => hknown.1 h.symm⟩⟩
    have hrest := ih (a.addNodeState x) (by rw [hid]; exact hx.2.2)
    rw [hid] at hrest
    refine ⟨fun n hn => hrest.1 n (hx.1 n hn), ?_, hrest.2.2⟩
    intro n hn hne
    rcases mem_cons.1 hn with rfl | hn
    · exact hrest.1 n (hx.2.1 hne)
    · exact hrest.2.1 n hn hne

theorem createAndRemoveNodeState_eq_self (h : Knows a) : a.createAndRemoveNodeState = a := by
  unfold createAndRemoveNodeState
  have hall : ∀ n ∈ a.configurations.flatMap (·.nodes), n = a.state.nodeId ∨ n ∈ keys a.allOtherNodes := by
    intro n hn
    obtain ⟨c, hc, hn⟩ := mem_flatMap.1 hn
    by_cases hself : n = a.state.nodeId
    · exact .inl hself
    · exact .inr (h.known c hc n hn hself)
  generalize a.configurations.flatMap (·.nodes) = l at hall
  induction l with
  | nil => rfl
  | cons n l ih =>
    rw [foldl_cons, addNodeState_eq_self (hall n mem_cons_self)]
    exact ih fun m hm => hall m (mem_cons_of_mem _ hm)

theorem knows_createAndRemoveNodeState (h : a.state.nodeId ∉ keys a.allOtherNodes) :
    Knows a.createAndRemoveNodeState := by
  have htalks := talks_createAndRemoveNodeState a
  obtain ⟨-, hnew, hself⟩ := foldl_addNodeState (a.configurations.flatMap (·.nodes)) a h
  refine ⟨?_, ?_⟩
  · rw [htalks.configurations_eq, htalks.state_eq]
    intro c hc n hn hne
    exact hnew n (mem_flatMap.2 ⟨c, hc, hn⟩) hne
  · rw [htalks.state_eq]
    exact hself

/-! ### Appending an entry -/

/-- The configurations and the retirement of `a` are those of `log`. -/
structure Follows (a : Aft) (log : List Entry) : Prop where
  commit_le : a.state.commitIdx ≤ log.length
  configurations_eq : a.configurations = popConfigurations a.state.commitIdx (configurationsOf log)
  knows : Knows a
  retirement_eq : a.state.retirement = retirementOf log a.state.commitIdx a.state.nodeId

theorem Tracks.follows (h : Tracks a) : Follows a a.ledger :=
  ⟨h.commit_le, h.configurations_eq, h.knows, h.retirement_eq⟩

theorem Follows.getLatestConfiguration_eq (h : Follows a log) : a.getLatestConfiguration = membersOf log := by
  unfold getLatestConfiguration
  rw [h.configurations_eq, latestConfiguration_pop, latestConfiguration_configurationsOf]

/-- The node with the configurations and the retirement that follow from a log. -/
def reconfigured (a : Aft) (R : Retirement) (confs : List Configuration) : Aft :=
  { a with state := a.state.setRetirement R, configurations := confs }

theorem reconfigured_self (h : R = a.state.retirement) : a.reconfigured R a.configurations = a := by
  rw [h]
  rfl

/-- The first half of `add_configuration`: the node notices its own removal. -/
theorem noticeRemoval_eq (h : Follows a log) (hwf : WellFormed log) (idx : ℕ) (conf : List NodeId) :
    (if a.configurations ≠ [] ∧ a.state.nodeId ∈ a.getLatestConfiguration ∧ a.state.nodeId ∉ conf then
      a.becomeRetired idx .ordered else .ok a) = .ok (a.reconfigured
        (a.state.retirement.afterChange (a.state.nodeId ∈ membersOf log ∧ a.state.nodeId ∉ conf) idx)
        a.configurations) := by
  rw [h.getLatestConfiguration_eq]
  by_cases hrem : a.state.nodeId ∈ membersOf log ∧ a.state.nodeId ∉ conf
  · have hne : a.configurations ≠ [] := by
      intro hnil
      have hlatest := h.getLatestConfiguration_eq
      rw [getLatestConfiguration, hnil] at hlatest
      rw [← hlatest] at hrem
      simp [latestConfiguration] at hrem
    have hactive : a.state.retirement = {} := by
      rw [h.retirement_eq, retirementOf]
      refine retirementAt_of_none ?_
      have := hwf.removalOf_eq_none (k := log.length) le_rfl (by simpa using hrem.1)
      simpa using this
    have hidx : a.state.retirementIdx = none := congrArg retirementIdx hactive
    have hcommittable : a.state.retirementCommittableIdx = none :=
      congrArg retirementCommittableIdx hactive
    rw [if_pos ⟨hne, hrem⟩, afterChange, if_pos hrem]
    unfold becomeRetired
    rw [hidx, Option.isSome_none, if_neg (by simp)]
    simp [setRetired, reconfigured, State.setRetirement, hcommittable]
  · rw [if_neg (fun hc => hrem hc.2), afterChange, if_neg hrem]
    rfl

/-- `b` is `a`, possibly after starting to talk to the nodes of its configurations. -/
def Enrols (a b : Aft) : Prop := b = a ∨ b = a.createAndRemoveNodeState

theorem Enrols.talks (h : Enrols a b) : Talks a b := by
  rcases h with rfl | rfl
  · exact Talks.refl _
  · exact talks_createAndRemoveNodeState a

variable {e : Entry} {removed : Prop} {idx : ℕ} {t : Tx}

/-- A configuration change is recorded as the log says, and throws nothing. -/
theorem configurationChangeHook_eq (h : Follows a log) (hwf : WellFormed (log ++ [e])) :
    ∃ b, a.configurationChangeHook (log.length + 1) e.tx = .ok b ∧ Knows b ∧ Enrols (a.reconfigured
        (a.state.retirement.afterChange
          (a.state.nodeId ∈ membersOf log ∧ a.state.nodeId ∉ membersOf (log ++ [e])) (log.length + 1))
        (popConfigurations a.state.commitIdx (configurationsOf (log ++ [e])))) b := by
  have hlatest := h.getLatestConfiguration_eq
  have hwf' : WellFormed log := hwf.of_isPrefix (prefix_append _ _)
  rw [configurationsOf_concat, membersOf_concat]
  unfold configurationChangeHook nextConfigurations
  by_cases hdelta : e.tx.cfgDelta = []
  · -- nothing changes
    rw [if_neg (by simp [hdelta]), if_pos hdelta]
    refine ⟨a, rfl, h.knows, ?_⟩
    have hrem : ¬(a.state.nodeId ∈ membersOf log ∧ a.state.nodeId ∉ applyDelta e.tx.cfgDelta (membersOf log)) := by
      rw [hdelta]
      exact fun hc => hc.2 hc.1
    rw [afterChange, if_neg hrem, ← h.configurations_eq]
    exact .inl rfl
  · rw [if_pos hdelta, if_neg hdelta, addConfiguration, noticeRemoval_eq h hwf', andThen_ok, hlatest,
      latestConfiguration_configurationsOf]
    generalize a.state.retirement.afterChange
      (a.state.nodeId ∈ membersOf log ∧ a.state.nodeId ∉ applyDelta e.tx.cfgDelta (membersOf log))
      (log.length + 1) = R
    generalize applyDelta e.tx.cfgDelta (membersOf log) = conf
    have hcond : ((a.reconfigured R a.configurations).configurations = [] ∨
        conf ≠ (a.reconfigured R a.configurations).getLatestConfiguration) ↔
        (configurationsOf log = [] ∨ conf ≠ membersOf log) := by
      refine or_congr ?_ ?_
      · show a.configurations = [] ↔ _
        rw [h.configurations_eq, popConfigurations_eq_nil]
      · show conf ≠ a.getLatestConfiguration ↔ _
        rw [hlatest]
    by_cases hchange : configurationsOf log = [] ∨ conf ≠ membersOf log
    · rw [if_pos (hcond.2 hchange), if_pos hchange, popConfigurations_concat (Nat.lt_succ_of_le h.commit_le),
        ← h.configurations_eq]
      exact ⟨_, rfl, knows_createAndRemoveNodeState h.knows.self_not_mem, .inr rfl⟩
    · rw [if_neg (fun hc => hchange (hcond.1 hc)), if_neg hchange, ← h.configurations_eq]
      exact ⟨_, rfl, ⟨h.knows.known, h.knows.self_not_mem⟩, .inl rfl⟩

/-- A signature signs the retirement, which was ordered at or before it. -/
theorem signRetirement_eq
    (h : a.state.retirementPhase = some .ordered → ∃ r, r ≤ idx ∧ a.state.retirementIdx = some r) :
    a.signRetirement idx = .ok (a.reconfigured (a.state.retirement.afterSignature idx) a.configurations) := by
  unfold signRetirement
  by_cases hret : a.isRetired ∧ a.state.retirementPhase = some .ordered
  · obtain ⟨r, hr, hidx⟩ := h hret.2
    have hsign : a.state.retirement.afterSignature idx =
        { a.state.retirement with retirementPhase := some .signed, retirementCommittableIdx := some idx } :=
      if_pos hret
    rw [if_pos hret, hsign]
    unfold becomeRetired
    simp only [hidx, if_neg (not_lt.2 hr)]
    simp [setRetired, reconfigured, State.setRetirement, State.retirement, hret.1, hidx]
  · have hkeep : a.state.retirement.afterSignature idx = a.state.retirement := if_neg hret
    rw [if_neg hret, hkeep]
    rfl

/-- `b` is `a` with the entry `e` appended to its log. -/
structure Appended (a : Aft) (e : Entry) (b : Aft) : Prop where
  ledger_eq : b.ledger = a.ledger ++ [e]
  last_eq : b.state.lastIdx = a.ledger.length + 1
  commit_eq : b.state.commitIdx = a.state.commitIdx
  nodeId_eq : b.state.nodeId = a.state.nodeId
  view_eq : b.state.currentView = a.state.currentView
  leadership_eq : b.state.leadershipState = a.state.leadershipState
  committable_eq : b.state.committableIndices =
    a.state.committableIndices ++ if e.tx.committable then [a.ledger.length + 1] else []
  configurations_eq : b.configurations = popConfigurations a.state.commitIdx (configurationsOf (a.ledger ++ [e]))
  retirement_eq : b.state.retirement = a.state.retirement.afterEntry
    (a.state.nodeId ∈ membersOf a.ledger ∧ a.state.nodeId ∉ membersOf (a.ledger ++ [e])) e.tx.committable
    (a.ledger.length + 1)
  knows : Knows b

theorem afterEntry_retiredCommitted [Decidable removed] {signature : Bool}
    (h : (R.afterEntry removed signature idx).retirementPhase = some .retiredCommitted) :
    R.afterEntry removed signature idx = R := by
  unfold afterEntry afterSignature afterChange at h ⊢
  split_ifs at h ⊢ <;> simp_all

theorem Appended.tracks (hab : Appended a e b) (h : Tracks a) (hwf : WellFormed (a.ledger ++ [e])) : Tracks b where
  wf := hab.ledger_eq ▸ hwf
  last_eq := by rw [hab.last_eq, hab.ledger_eq, length_append, length_singleton]
  commit_signed := by
    rw [hab.commit_eq, hab.ledger_eq]
    refine h.commit_signed.imp_right ?_
    rintro ⟨e', he', hs⟩
    exact ⟨e', (entryAt_append_left (entryAt_eq_some he').2 _).trans he', hs⟩
  committable_eq := by
    rw [hab.committable_eq, hab.commit_eq, hab.ledger_eq, h.committable_eq, signatures_concat, filter_append]
    have := h.commit_le
    split_ifs
    · rw [filter_cons_of_pos (by simp; omega), filter_nil]
    · rfl
  configurations_eq := by rw [hab.configurations_eq, hab.commit_eq, hab.ledger_eq]
  knows := hab.knows
  retirement_eq := by
    rw [hab.retirement_eq, hab.ledger_eq, hab.commit_eq, hab.nodeId_eq, retirementOf,
      retirementAt_concat hwf h.commit_le h.commit_le, h.retirement_eq, retirementOf]
  idle := by
    refine h.idle.of_retirement hab.leadership_eq fun hphase => ?_
    rw [hab.retirement_eq] at hphase ⊢
    exact afterEntry_retiredCommitted hphase

/-- What appending an entry leaves alone once the configuration change is made. -/
structure Beside (a b : Aft) : Prop where
  history_eq : b.state.viewHistory = a.state.viewHistory
  votedFor_eq : b.votedFor = a.votedFor
  newFollower_eq : b.isNewFollower = a.isNewFollower
  batchSize_eq : b.entriesBatchSize = a.entriesBatchSize
  outbox_eq : b.outbox = a.outbox
  nodes_eq : b.allOtherNodes = a.allOtherNodes

theorem Beside.trans {c : Aft} (hab : Beside a b) (hbc : Beside b c) : Beside a c where
  history_eq := hbc.history_eq.trans hab.history_eq
  votedFor_eq := hbc.votedFor_eq.trans hab.votedFor_eq
  newFollower_eq := hbc.newFollower_eq.trans hab.newFollower_eq
  batchSize_eq := hbc.batchSize_eq.trans hab.batchSize_eq
  outbox_eq := hbc.outbox_eq.trans hab.outbox_eq
  nodes_eq := hbc.nodes_eq.trans hab.nodes_eq

theorem beside_startTickingIfNecessary (a : Aft) : Beside a a.startTickingIfNecessary := by
  unfold startTickingIfNecessary
  split_ifs <;> exact ⟨rfl, rfl, rfl, rfl, rfl, rfl⟩

/-- What a signature has to do once the configuration change of its entry is recorded. -/
theorem signRetirement_afterChange (h : Tracks a) [Decidable removed]
    (hb : b.state.retirement = a.state.retirement.afterChange removed (a.ledger.length + 1)) :
    b.signRetirement (a.ledger.length + 1) =
      .ok (b.reconfigured (b.state.retirement.afterSignature (a.ledger.length + 1)) b.configurations) := by
  refine signRetirement_eq fun hphase => ?_
  have hphase' : b.state.retirement.retirementPhase = some .ordered := hphase
  show ∃ r, r ≤ _ ∧ b.state.retirement.retirementIdx = some r
  rw [hb] at hphase' ⊢
  unfold afterChange at hphase' ⊢
  split_ifs at hphase' ⊢ with hrem
  · exact ⟨_, le_rfl, rfl⟩
  · rw [h.retirement_eq, retirementOf] at hphase' ⊢
    obtain ⟨r, hr, hidx⟩ := retirementAt_ordered hphase'
    exact ⟨r, by omega, hidx⟩

/-- What an entry does to the tracked state before it is put into the ledger, `b` being the node after the
configuration change. -/
theorem signature_eq (h : Tracks a) (hstate : b.state.retirement = a.state.retirement.afterChange
      (a.state.nodeId ∈ membersOf a.ledger ∧ a.state.nodeId ∉ membersOf (a.ledger ++ [e])) (a.ledger.length + 1))
    (he : e.tx.committable = true) :
    b.signRetirement (a.ledger.length + 1) = .ok (b.reconfigured (a.state.retirement.afterEntry
      (a.state.nodeId ∈ membersOf a.ledger ∧ a.state.nodeId ∉ membersOf (a.ledger ++ [e])) e.tx.committable
      (a.ledger.length + 1)) b.configurations) := by
  rw [signRetirement_afterChange h hstate, hstate, afterEntry, if_pos he]

theorem replicateEntry_appended (h : Tracks a) (hwf : WellFormed (a.ledger ++ [⟨a.state.currentView, t⟩])) :
    ∃ b c, a.replicateEntry (a.state.lastIdx + 1) t = .ok b ∧ Appended a ⟨a.state.currentView, t⟩ b ∧
      Enrols (a.reconfigured (a.state.retirement.afterChange (a.state.nodeId ∈ membersOf a.ledger ∧
          a.state.nodeId ∉ membersOf (a.ledger ++ [⟨a.state.currentView, t⟩])) (a.ledger.length + 1))
        (popConfigurations a.state.commitIdx (configurationsOf (a.ledger ++ [⟨a.state.currentView, t⟩])))) c ∧
      Beside c b := by
  obtain ⟨b, hb, hknows, henrols⟩ := configurationChangeHook_eq h.follows hwf
  have htalks := henrols.talks
  rw [h.last_eq]
  unfold replicateEntry
  rw [hb, andThen_ok]
  have hstate := htalks.state_eq
  have hledger : b.ledger = a.ledger := htalks.ledger_eq
  have hconf := htalks.configurations_eq
  have hview : b.state.currentView = a.state.currentView := by rw [hstate]; rfl
  have hret := congrArg State.retirement hstate
  cases ht : t.committable with
  | false =>
    refine ⟨_, b, rfl, ⟨?_, rfl, ?_, ?_, hview, ?_, ?_, hconf, ?_, ⟨hknows.known, hknows.self_not_mem⟩⟩, henrols,
      ⟨rfl, rfl, rfl, rfl, rfl, rfl⟩⟩
    case refine_6 =>
      rw [afterEntry, ht, if_neg (by simp)]
      exact hret
    all_goals simp [putEntry, hledger, hstate, reconfigured, State.setRetirement, ht]
  | true =>
    have hsign := signature_eq h hret ht
    unfold replicateSignature
    rw [if_pos rfl, hsign, andThen_ok, andThen_ok]
    have hbeside : ∀ R, Beside b (Aft.putEntry { (Aft.pushCommittable (b.reconfigured R b.configurations)
        (a.ledger.length + 1)).startTickingIfNecessary with shouldSign := false } (a.ledger.length + 1) t) := by
      intro R
      have hpush : Beside b (Aft.pushCommittable (b.reconfigured R b.configurations) (a.ledger.length + 1)) :=
        ⟨rfl, rfl, rfl, rfl, rfl, rfl⟩
      exact (hpush.trans (beside_startTickingIfNecessary _)).trans ⟨rfl, rfl, rfl, rfl, rfl, rfl⟩
    refine ⟨_, b, rfl, ⟨?_, rfl, ?_, ?_, ?_, ?_, ?_, ?_, ?_, ⟨?_, ?_⟩⟩, henrols, hbeside _⟩
    case refine_9 => simpa [putEntry, pushCommittable, reconfigured, State.setRetirement] using hknows.known
    case refine_10 => simpa [putEntry, pushCommittable, reconfigured, State.setRetirement] using hknows.self_not_mem
    all_goals simp [putEntry, pushCommittable, hledger, hstate, hconf, reconfigured, State.setRetirement,
      State.retirement, ht]

/-- On a follower the entry is in the ledger before it is signed. -/
theorem executeEntry_appended (h : Tracks a) (hwf : WellFormed (a.ledger ++ [e])) (r : AppendEntries) :
    ∃ b c, Appended a e b ∧ Enrols (Aft.reconfigured { a with state.lastIdx := a.ledger.length + 1 }
        (a.state.retirement.afterChange (a.state.nodeId ∈ membersOf a.ledger ∧
          a.state.nodeId ∉ membersOf (a.ledger ++ [e])) (a.ledger.length + 1))
        (popConfigurations a.state.commitIdx (configurationsOf (a.ledger ++ [e])))) c ∧
      Beside c b ∧ (e.tx.committable = false → b.ticking = a.ticking) ∧ a.executeEntry r (a.state.lastIdx + 1) e =
        if e.tx.committable = true ∧ e.view ≠ 0 then
          (b.recordSignatureView r e.view).andThen fun c => c.commitIfPossible r.leaderCommitIdx else .ok b := by
  have hfollows : Follows { a with state.lastIdx := a.ledger.length + 1 } a.ledger :=
    ⟨h.commit_le, h.configurations_eq, ⟨h.knows.known, h.knows.self_not_mem⟩, h.retirement_eq⟩
  obtain ⟨b, hb, hknows, henrols⟩ := configurationChangeHook_eq hfollows hwf
  have htalks := henrols.talks
  rw [h.last_eq]
  unfold executeEntry
  rw [hb, andThen_ok]
  have hstate := htalks.state_eq
  have hledger : b.ledger = a.ledger := htalks.ledger_eq
  have hconf := htalks.configurations_eq
  have hret : b.state.retirement = a.state.retirement.afterChange
      (a.state.nodeId ∈ membersOf a.ledger ∧ a.state.nodeId ∉ membersOf (a.ledger ++ [e])) (a.ledger.length + 1) :=
    congrArg State.retirement hstate
  cases he : e.tx.committable with
  | false =>
    have hticking := congrArg Aft.ticking htalks
    have hrecord : b.recordEntry e = { b with ledger := b.ledger ++ [e] } := by simp [recordEntry, he]
    refine ⟨b.recordEntry e, b, ?_, henrols, ?_, fun _ => ?_, by simp⟩
    all_goals rw [hrecord]
    · refine ⟨?_, ?_, ?_, ?_, ?_, ?_, ?_, hconf, ?_, ⟨hknows.known, hknows.self_not_mem⟩⟩
      case refine_8 =>
        rw [afterEntry, he, if_neg (by simp)]
        exact hret
      all_goals simp [he, hledger, hstate, reconfigured, State.setRetirement]
    · exact ⟨rfl, rfl, rfl, rfl, rfl, rfl⟩
    · exact hticking
  | true =>
    have hsign := signature_eq (b := b.recordEntry e) h (by simpa [recordEntry, he] using hret) he
    unfold executeSignature
    rw [if_pos rfl, hsign, andThen_ok]
    have hbeside : Beside b ((Aft.reconfigured (b.recordEntry e) (a.state.retirement.afterEntry
        (a.state.nodeId ∈ membersOf a.ledger ∧ a.state.nodeId ∉ membersOf (a.ledger ++ [e])) e.tx.committable
        (a.ledger.length + 1)) (b.recordEntry e).configurations).pushCommittable (a.ledger.length + 1)) := by
      refine (beside_startTickingIfNecessary b).trans ?_
      simp only [recordEntry, he]
      exact ⟨rfl, rfl, rfl, rfl, rfl, rfl⟩
    refine ⟨_, b, ⟨?_, ?_, ?_, ?_, ?_, ?_, ?_, ?_, ?_, ⟨?_, ?_⟩⟩, henrols, hbeside, by rintro ⟨⟩,
      by simp only [true_and]⟩
    case refine_10 => simpa [recordEntry, pushCommittable, he, reconfigured, State.setRetirement] using hknows.known
    case refine_11 =>
      simpa [recordEntry, pushCommittable, he, reconfigured, State.setRetirement] using hknows.self_not_mem
    all_goals simp [recordEntry, pushCommittable, he, hledger, hstate, hconf, reconfigured, State.setRetirement,
      State.retirement]

end Aft
end Ccf
