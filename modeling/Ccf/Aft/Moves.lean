import Ccf.Aft.Indices

/-! # What an operation is made of

Every operation of a node is a sequence of moves (`course_step`): work within its view, a change of role, a vote that
it counts, and at the end, where another node asked for it, the vote that it gives. What every move keeps is kept by
every operation (`indices_along_run`). -/

namespace Ccf.Aft

/-- Whether an operation tells the node that `n` granted it a regular vote in view `T`. -/
def grantsVote (T : ℕ) (n : NodeId) : Op → Bool
  | .recvMessage _ _ source (.requestVoteResponse r .regularVote) => source = n && r.term = T && r.voteGranted
  | _ => false

/-- A candidate that is handed a batch of its view loses its vote. -/
def Unvotes (a : Aft) (r : AppendEntries) : Prop :=
  r.term = a.state.currentView ∧
    (a.state.leadershipState = .candidate ∨ a.state.leadershipState = .preVoteCandidate)

/-- The operation hands the node such a batch. -/
def Forgets (a : Aft) : Op → Prop
  | .recvMessage _ _ _ (.appendEntries r _) => a.Unvotes r
  | _ => False

/-- The moves that the operation `op` on `a₀` is made of. -/
inductive Move (a₀ : Aft) (op : Op) : Aft → Aft → Prop
  /-- Work within the view, which candidates do not do. -/
  | works {a b : Aft} (h : Works a b) (hrole : a.state.leadershipState ≠ .candidate) : Move a₀ op a b
  | talks {a b : Aft} (ht : Talks a b) (hs : Steady a b) : Move a₀ op a b
  | rollback (a : Aft) (idx : ℕ) : Move a₀ op a (a.rollback idx)
  | wait (a : Aft) (elapsed : ℕ) : Move a₀ op a { a with timeoutElapsed := a.timeoutElapsed + elapsed }
  | newTerm {a : Aft} (draw : ℕ) {term : ℕ}
      (h : a.state.currentView < term ∨ a.state.currentView = term ∧ a₀.Forgets op) :
      Move a₀ op a (a.becomeAwareOfNewTerm draw term)
  | stepDown (a : Aft) (draw : ℕ) : Move a₀ op a (a.becomeFollower draw)
  | startPreVote (a : Aft) (draw : ℕ) : Move a₀ op a (a.startPreVote draw)
  | startCandidacy (a : Aft) (draw : ℕ) : Move a₀ op a (a.startCandidacy draw)
  /-- A candidate counts the votes of its view. -/
  | recordVote {a : Aft} {source : NodeId} (h : a.state.leadershipState = .candidate →
      source = a.state.nodeId ∨ grantsVote a.state.currentView source op = true) : Move a₀ op a (a.recordVote source)
  | elected {a : Aft} (hrole : a.state.leadershipState = .candidate) (helected : a.isElected)
      (hconfs : a.configurations = a₀.configurations) : Move a₀ op a a.becomeLeader.state
  | forced (a : Aft) (h : op = .forceBecomePrimary) :
      Move a₀ op a (becomeLeader { a with state.currentView := a.state.currentView + startingViewChange }).state

abbrev Moves (a₀ : Aft) (op : Op) : Aft → Aft → Prop := Relation.ReflTransGen (Move a₀ op)

/-- A sequence of moves, with the vote the node gives at the end of it. -/
inductive Course (a₀ : Aft) (op : Op) (a : Aft) : Aft → Prop
  | moves {b : Aft} (h : Moves a₀ op a b) : Course a₀ op a b
  | vote {b : Aft} (h : Moves a₀ op a b) (draw : ℕ) {source : NodeId} (hfree : ∀ n, b.votedFor = some n → n = source) :
      Course a₀ op a ((b.voteFor draw source).sendRequestVoteResponse source true .regularVote)

section

variable {a₀ a : Aft} {op : Op} {source : NodeId}

/-! ### Elections -/

theorem steady_sendRequestVotes (a : Aft) (electionType : ElectionType) :
    Steady a (a.sendRequestVotes electionType).state := by
  unfold sendRequestVotes
  split_ifs
  · exact Steady.refl a
  · exact Steady.foldl (fun b n => steady_send b n rfl) _ _

theorem moves_sendRequestVotes {o : Result} (h : Moves a₀ op a o.state) (electionType : ElectionType) :
    Moves a₀ op a (o.andThen (·.sendRequestVotes electionType)).state := by
  cases o with
  | ok b => exact h.tail (.talks (talks_sendRequestVotes b _) (steady_sendRequestVotes b _))
  | raised e b => exact h

variable (hconfs : a.configurations = a₀.configurations) {f : Aft → Result}
include hconfs

theorem moves_addVoteForMeWith (hvote : a.state.leadershipState = .candidate →
      source = a.state.nodeId ∨ grantsVote a.state.currentView source op = true)
    (hf : Moves a₀ op (a.recordVote source) (f (a.recordVote source)).state) :
    Moves a₀ op a (addVoteForMeWith f a source).state := by
  have hrecord : Moves a₀ op a (a.recordVote source) := .single (.recordVote hvote)
  unfold addVoteForMeWith
  dsimp only
  split_ifs with hnone helected
  · exact .refl
  · split
    · exact hrecord.trans hf
    · rename_i hrole
      exact hrecord.tail (.elected hrole helected hconfs)
    all_goals exact hrecord
  · exact hrecord

theorem moves_becomeCandidate (draw : ℕ) :
    Moves a₀ op a (a.becomeCandidate draw).state := by
  unfold becomeCandidate
  split_ifs
  · exact .refl
  · refine moves_sendRequestVotes (.head (.startCandidacy a draw) ?_) _
    exact moves_addVoteForMeWith (a := a.startCandidacy draw) hconfs (fun _ => .inl rfl) .refl

theorem moves_addVoteForMe (hvote : a.state.leadershipState = .candidate →
      source = a.state.nodeId ∨ grantsVote a.state.currentView source op = true) (draw : ℕ) :
    Moves a₀ op a (a.addVoteForMe draw source).state :=
  moves_addVoteForMeWith hconfs hvote (moves_becomeCandidate (a := a.recordVote source) hconfs draw)

theorem moves_becomePreVoteCandidate (draw : ℕ) :
    Moves a₀ op a (a.becomePreVoteCandidate draw).state := by
  unfold becomePreVoteCandidate
  split_ifs
  · exact .refl
  · refine moves_sendRequestVotes (.head (.startPreVote a draw) ?_) _
    exact moves_addVoteForMe (a := a.startPreVote draw) hconfs (fun hc => by cases hc) draw

theorem moves_tick (draw elapsed : ℕ) :
    Moves a₀ op a (a.tick draw elapsed).state := by
  unfold tick
  split_ifs with hl
  · have hsend : Moves a₀ op a (a.periodicSend.waitForAcks elapsed) :=
      .single (.works (quiet_periodicSend_waitForAcks a elapsed).works fun hc => by cases hl.symm.trans hc)
    show Moves a₀ op a (checkQuorum _ draw)
    unfold checkQuorum
    split_ifs
    · exact hsend
    · exact hsend.tail (.stepDown _ draw)
  · exact moves_becomePreVoteCandidate hconfs draw
  · exact moves_becomeCandidate hconfs draw
  · exact .refl

omit hconfs

/-! ### Messages -/

variable (draw : ℕ) (source : NodeId)

theorem moves_recvAppendEntries (faults : ℕ → Fault) (r : AppendEntries) (data : List Entry)
    (hforgets : a.Unvotes r → a₀.Forgets op) : Moves a₀ op a (a.recvAppendEntries draw faults source r data).state := by
  unfold recvAppendEntries
  split_ifs with hlate hfollow
  · exact .single (.talks (talks_send a _ _) (steady_send a _ rfl))
  · refine .head (.newTerm draw ?_) (.single (.works (works_checkAppendEntries _ draw faults source r data)
      fun hc => by cases hc))
    rcases lt_or_eq_of_le (not_lt.1 hlate) with hlt | heq
    · exact .inl hlt
    · exact .inr ⟨heq, hforgets ⟨heq.symm, hfollow.resolve_left (by omega)⟩⟩
  · exact .single (.works (works_checkAppendEntries a draw faults source r data) fun hc => hfollow (.inr (.inl hc)))

theorem moves_recvAppendEntriesResponse (r : AppendEntriesResponse) :
    Moves a₀ op a (a.recvAppendEntriesResponse draw source r).state := by
  unfold recvAppendEntriesResponse
  split
  · exact .refl
  · split_ifs with hl
    · have hset : ∀ (b : Aft) f, Works b (b.setNode source f) :=
        fun b f => Quiet.works { Quiet.refl _ with }
      have hcand : a.state.leadershipState ≠ .candidate := fun hc => by cases hl.symm.trans hc
      unfold processResponse
      split_ifs with hnew
      · exact .head (.works (hset a _) hcand) (.single (.newTerm draw (.inl hnew)))
      · exact .single (.works (hset a _) hcand)
      · exact .single (.works (hset a _) hcand)
      · exact .single (.works ((hset a _).trans (hset _ _)) hcand)
      · exact .single (.works (((hset a _).trans (hset _ _)).trans (works_updateCommit _)) hcand)
    · exact .refl

theorem moves_recvRequestVoteResponse (r : RequestVoteResponse) (electionType : ElectionType)
    (hconfs : a.configurations = a₀.configurations)
    (hgrant : electionType = .regularVote → r.voteGranted = true → r.term = a.state.currentView →
      grantsVote a.state.currentView source op = true) :
    Moves a₀ op a (a.recvRequestVoteResponse draw source r electionType).state := by
  unfold recvRequestVoteResponse
  split_ifs with hknown hnew hterm hrole hregular hpre hdenied
  · exact .refl
  · exact .single (.newTerm draw (.inl hnew))
  case neg =>
    refine moves_addVoteForMe hconfs (fun hcand => .inr ?_) draw
    cases electionType with
    | regularVote => exact hgrant rfl (by simpa using hdenied) (not_not.1 hterm).symm
    | preVote => exact absurd ⟨rfl, fun hp => by cases hcand.symm.trans hp⟩ hpre
  all_goals exact .refl

theorem course_answerRequestVote {b : Aft} (h : Moves a₀ op a b) (r : RequestVote) (electionType : ElectionType) :
    Course a₀ op a (b.answerRequestVote draw source r electionType) := by
  have hsend : ∀ answer, ¬(electionType = .regularVote ∧ answer = true) →
      Course a₀ op a (b.sendRequestVoteResponse source answer electionType) := by
    intro answer hnot
    refine .moves (h.tail (.talks (talks_send _ _ _) (steady_send b source ?_)))
    cases electionType <;> cases answer <;> first | rfl | exact absurd ⟨rfl, rfl⟩ hnot
  unfold answerRequestVote
  split_ifs with hgrant hregular
  · -- the vote is given: the node has not voted for anyone else in this view
    subst hregular
    refine .vote h draw fun n hn => ?_
    by_contra hne
    exact hgrant.2.1 ⟨rfl, by rw [hn]; rfl, fun heq => hne (Option.some.inj (hn.symm.trans heq))⟩
  · exact hsend true fun hr => hregular hr.1
  · exact hsend false (by simp)

theorem course_recvRequestVoteUnsafe (r : RequestVote) (electionType : ElectionType) :
    Course a₀ op a (a.recvRequestVoteUnsafe draw source r electionType) := by
  unfold recvRequestVoteUnsafe
  split_ifs with hold hnew
  · exact .moves (.single (.talks (talks_send _ _ _) (steady_send a source (by cases electionType <;> rfl))))
  · exact course_answerRequestVote draw source (.single (.newTerm draw (.inl hnew))) r electionType
  · exact course_answerRequestVote draw source .refl r electionType

end

/-! ### Every operation -/

/-- **Every operation is a sequence of moves.** -/
theorem course_step (a : Aft) (op : Op) : Course a op a (a.step op) := by
  cases op with
  | replicate entries term =>
    refine .moves (.single ?_)
    by_cases hc : a.state.leadershipState = .candidate
    · have hback : (a.replicate entries term).1 = .ok (a.rollback a.state.lastIdx) := by
        rw [replicate, if_neg fun hl => by cases hc.symm.trans hl]
      show Move a _ a (a.replicate entries term).1.state
      rw [hback]
      exact .rollback a _
    · exact .works (works_replicate a entries term) hc
  | recvMessage draw faults source m =>
    cases m with
    | appendEntries r data => exact .moves (moves_recvAppendEntries draw source faults r data id)
    | appendEntriesResponse r => exact .moves (moves_recvAppendEntriesResponse draw source r)
    | requestVote r electionType => exact course_recvRequestVoteUnsafe draw source r electionType
    | requestVoteResponse r electionType =>
      refine .moves (moves_recvRequestVoteResponse draw source r electionType rfl fun heq hv ht => ?_)
      subst heq
      simp [grantsVote, hv, ht]
    | proposeRequestVote r =>
      show Course a _ a (a.recvProposeRequestVote draw r).state
      unfold recvProposeRequestVote
      split_ifs
      · exact .moves (moves_becomeCandidate rfl draw)
      · exact .moves .refl
  | periodic draw elapsed => exact .moves (.head (.wait a elapsed) (moves_tick (by exact rfl) draw elapsed))
  | nominateSuccessor =>
    show Course a _ a a.nominateSuccessor
    unfold nominateSuccessor
    split_ifs
    · exact .moves (.single (.talks (talks_sendProposeRequestVote a) (quiet_sendProposeRequestVote a).toSteady))
    · exact .moves .refl
  | rollback idx => exact .moves (.single (.rollback a idx))
  | forceBecomePrimary =>
    show Course a _ a a.forceBecomePrimary.state
    unfold forceBecomePrimary
    split_ifs
    · exact .moves .refl
    · exact .moves (.single (.forced a rfl))

/-! ### The log indices -/

variable {op : Op}

theorem Move.advances {b a₀ a : Aft} (h : Move a₀ op a b) : Advances a b := by
  cases h with
  | works h hrole => exact h.advances
  | talks ht hs => exact (SameLog.of_talks ht).advances
  | rollback idx => exact (works_rollback a idx).advances
  | newTerm draw h => exact advances_becomeAwareOfNewTerm a draw (h.elim le_of_lt fun h => h.1.le)
  | startCandidacy draw => exact advances_of_view (Nat.le_succ _) ⟨rfl, rfl, rfl, rfl, rfl, rfl⟩
  | elected hrole helected hconfs => exact advances_becomeLeader a
  | forced h => exact (advances_of_view (Nat.le_add_right _ _) (SameLog.refl _)).trans (advances_becomeLeader _)
  | wait | stepDown | startPreVote | recordVote => exact SameLog.advances ⟨rfl, rfl, rfl, rfl, rfl, rfl⟩

theorem Moves.advances {b a₀ a : Aft} (h : Moves a₀ op a b) : Advances a b := by
  induction h with
  | refl => exact Advances.refl a
  | tail hab hbc ih => exact ih.trans hbc.advances

theorem Course.advances {b a₀ a : Aft} (h : Course a₀ op a b) : Advances a b := by
  cases h with
  | moves h => exact h.advances
  | vote h draw hfree => exact h.advances.trans (SameLog.advances ⟨rfl, rfl, rfl, rfl, rfl, rfl⟩)

theorem advances_step (a : Aft) (op : Op) : Advances a (a.step op) := (course_step a op).advances

theorem indexInv_init (nodeId : NodeId) (preVoteEnabled : Bool) (requestTimeout electionTimeout : ℕ) :
    IndexInv (init nodeId preVoteEnabled requestTimeout electionTimeout).state :=
  ⟨le_rfl, List.Pairwise.nil, by simp [init], by simp [init], Or.inl rfl⟩

/-- **The log indices of a node.**  The index invariant holds in every run, neither view nor commit goes back, and
every committed entry stays where it is. -/
theorem indices_along_run (nodeId : NodeId) (preVoteEnabled : Bool) (requestTimeout electionTimeout : ℕ)
    (ops later : List Op) :
    let a := Runs.exec step (init nodeId preVoteEnabled requestTimeout electionTimeout) ops
    let b := Runs.exec step a later
    IndexInv a.state ∧ Evolves a b := by
  intro a b
  have hinv : ∀ (c : Aft) (op : Op), IndexInv c.state → IndexInv (c.step op).state :=
    fun c op h => (advances_step c op h).1
  have ha : IndexInv a.state :=
    Runs.exec_induction (P := fun _ _ => True) (I := fun c : Aft => IndexInv c.state) (fun c op h _ => hinv c op h)
      (indexInv_init nodeId preVoteEnabled requestTimeout electionTimeout) (Runs.along_true _ _)
  refine ⟨ha, ?_⟩
  exact Runs.exec_rel (I := fun c : Aft => IndexInv c.state) Evolves.refl (fun _ _ _ => Evolves.trans) hinv
    (fun c op h => (advances_step c op h).2) ha later

end Ccf.Aft
