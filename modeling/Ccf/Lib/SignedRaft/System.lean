import Ccf.Lib.SignedRaft.Log

/-! # Replication with signatures and changing configurations

The abstract protocol: nodes with a view, a log and a commit index, and a record of all that matters for safety.
`leader T` is the node elected in term `T` and `tl T` its log; `acks`, `cands`, `votes` and `events` record who
acknowledged how much of which leader's log, who stood for election with which log, who voted for whom holding which
log, and what leaders committed with which quorum.

Votes and commits are counted in every configuration from the commit index of the candidate or leader on
(`Quorate`). The members may change with every entry.

A `Mode` says which promises the environment keeps: in `strict` mode followers only commit what a leader has
committed, and in `unique` mode nodes vote at most once in a term. Only the elections that the mode `elects` take
place; without both promises it elects at most one node in a term. -/

namespace Ccf.SignedRaft

open Function

variable {ι ε : Type*} [DecidableEq ι]

/-- `S` has more than half of `C`. -/
def Majority (S C : Finset ι) : Prop := C.card < 2 * (S ∩ C).card

theorem Majority.exists_common {S S' C : Finset ι} (h : Majority S C) (h' : Majority S' C) : ∃ q, q ∈ S ∧ q ∈ S' := by
  by_contra hcon
  push Not at hcon
  have hdisj : Disjoint (S ∩ C) (S' ∩ C) := by
    rw [Finset.disjoint_left]
    intro q hq hq'
    exact hcon q (Finset.mem_inter.1 hq).1 (Finset.mem_inter.1 hq').1
  have hcard : (S ∩ C).card + (S' ∩ C).card ≤ C.card := by
    rw [← Finset.card_union_of_disjoint hdisj]
    exact Finset.card_le_card (Finset.union_subset Finset.inter_subset_right Finset.inter_subset_right)
  unfold Majority at h h'
  omega

/-- `S` has a majority of every configuration of `ℓ` from position `x` on. -/
def Proto.Quorate (P : Proto ι ε) (ℓ : List ε) (x : ℕ) (S : Finset ι) : Prop :=
  ∀ j, x ≤ j → j ≤ ℓ.length → Majority S (P.conf (ℓ.take j))

/-- `node` has the first `idx` entries of the leader of `term`. -/
structure Ack (ι : Type*) where
  node : ι
  term : ℕ
  idx : ℕ

/-- `node` stands for election in `term`. -/
structure Cand (ι ε : Type*) where
  term : ℕ
  node : ι
  log : List ε
  commit : ℕ

/-- `voter`, whose log is `log`, votes for `node` in `term`. -/
structure Vote (ι ε : Type*) where
  term : ℕ
  voter : ι
  node : ι
  log : List ε

/-- The leader of `term`, with commit index `base` and a log of length `last`, commits up to `idx`. -/
structure Event (ι : Type*) where
  term : ℕ
  idx : ℕ
  base : ℕ
  last : ℕ
  quorum : Finset ι

structure Sys (ι ε : Type*) where
  view : ι → ℕ
  log : ι → List ε
  commit : ι → ℕ
  leader : ℕ → Option ι
  tl : ℕ → List ε
  acks : Set (Ack ι)
  cands : Set (Cand ι ε)
  votes : Set (Vote ι ε)
  events : Set (Event ι)

structure Mode (ι : Type*) where
  strict : Prop
  unique : Prop
  elects : ℕ → ι → Prop
  alone : strict ∧ unique ∨ ∀ T L L', elects T L → elects T L' → L = L'

namespace Sys

variable (s : Sys ι ε)

/-- What an event commits. -/
def committed (e : Event ι) : List ε := (s.tl e.term).take e.idx

/-- `p` is committed by a leader of a term up to `T`. -/
def Committed (p : List ε) (T : ℕ) : Prop := p = [] ∨ ∃ e ∈ s.events, e.term ≤ T ∧ p <+: s.committed e

/-- Everyone in `S` supports `X` in term `T`. -/
def Supports (T : ℕ) (X : ι) (S : Finset ι) : Prop :=
  ∀ q ∈ S, q = X ∨ ∃ vt ∈ s.votes, vt.term = T ∧ vt.voter = q ∧ vt.node = X

/-- `v` has not voted for anyone but the candidate `c` in its term. A candidate of the term itself may
vote when someone else has been elected. -/
def MayVote (v : ι) (c : Cand ι ε) : Prop :=
  (∀ vt ∈ s.votes, vt.term = c.term → vt.voter = v → vt.node = c.node) ∧
    ∀ c' ∈ s.cands, c'.term = c.term → c'.node = v → ∃ L, s.leader c.term = some L ∧ L ≠ v ∧ L ≠ c.node

end Sys

/-- The steps of node `q`. -/
inductive Step (P : Proto ι ε) (m : Mode ι) (q : ι) (s : Sys ι ε) : Sys ι ε → Prop
  | bump (T : ℕ) (hT : s.view q ≤ T) : Step P m q s { s with view := update s.view q T }
  | candidate (hcommit : P.genesis.length ≤ s.commit q) :
      Step P m q s { s with
        view := update s.view q (s.view q + 1)
        cands := insert ⟨s.view q + 1, q, s.log q, s.commit q⟩ s.cands }
  | grant (c : Cand ι ε) (hc : c ∈ s.cands) (hterm : c.term = s.view q) (hne : q ≠ c.node)
      (hfree : s.leader c.term ≠ some c.node) (hup : P.UpToDate c.log (s.log q)) (hmay : m.unique → s.MayVote q c) :
      Step P m q s { s with votes := insert ⟨c.term, q, c.node, s.log q⟩ s.votes }
  | elect (S : Finset ι) (hc : ⟨s.view q, q, s.log q, s.commit q⟩ ∈ s.cands)
      (hsup : s.Supports (s.view q) q S) (hq : P.Quorate (s.log q) (s.commit q) S)
      (hfree : s.leader (s.view q) = none) (hcommit : s.commit q ≤ P.lastSig (s.log q)) (hmay : m.elects (s.view q) q) :
      Step P m q s { s with
        leader := update s.leader (s.view q) (some q)
        log := update s.log q ((s.log q).take (P.lastSig (s.log q)))
        tl := update s.tl (s.view q) ((s.log q).take (P.lastSig (s.log q))) }
  | append (e : ε) (hl : s.leader (s.view q) = some q) (he : P.term e = s.view q) :
      Step P m q s { s with
        log := update s.log q (s.log q ++ [e])
        tl := update s.tl (s.view q) (s.tl (s.view q) ++ [e]) }
  | replace (L : ι) (i j : ℕ) (hl : s.leader (s.view q) = some L) (hne : L ≠ q) (hi : i ≤ (s.log q).length)
      (hij : i ≤ j) (hj : j ≤ (s.tl (s.view q)).length) (hag : (s.log q).take i = (s.tl (s.view q)).take i)
      (hcut : i = (s.log q).length ∨
        i < (s.tl (s.view q)).length ∧ P.termAt (s.log q) (i + 1) ≠ P.termAt (s.tl (s.view q)) (i + 1))
      (hcommit : s.commit q ≤ i) :
      Step P m q s { s with log := update s.log q ((s.tl (s.view q)).take j) }
  | acked (n : ℕ) (hn : n ≤ (s.tl (s.view q)).length) (hlog : (s.tl (s.view q)).take n <+: s.log q) :
      Step P m q s { s with acks := insert ⟨q, s.view q, n⟩ s.acks }
  | commitLeader (c : ℕ) (Q : Finset ι) (hl : s.leader (s.view q) = some q) (hlt : s.commit q < c)
      (hgen : P.genesis.length ≤ s.commit q) (hsig : P.SigAt (s.log q) c) (hterm : P.termAt (s.log q) c = s.view q)
      (hacks : ∀ v ∈ Q, ∃ a ∈ s.acks, a.node = v ∧ a.term = s.view q ∧ c ≤ a.idx)
      (hq : P.Quorate (s.log q) (s.commit q) Q) :
      Step P m q s { s with
        commit := update s.commit q c
        events := insert ⟨s.view q, c, s.commit q, (s.log q).length, Q⟩ s.events }
  | commitFollower (c : ℕ) (hle : s.commit q ≤ c) (hlen : c ≤ (s.log q).length)
      (hstrict : m.strict → s.Committed ((s.log q).take c) (s.view q)) :
      Step P m q s { s with commit := update s.commit q c }

/-! ### Invariants -/

structure LogInv (P : Proto ι ε) (s : Sys ι ε) : Prop where
  tl_none : ∀ T, s.leader T = none → s.tl T = []
  tl_coherent : ∀ T, P.Coherent s.tl (s.tl T)
  tl_le : ∀ T, ∀ e ∈ s.tl T, P.term e ≤ T
  tl_boundary : ∀ T n, 0 < n → n < (s.tl T).length → P.termAt (s.tl T) n ≠ P.termAt (s.tl T) (n + 1) →
    P.SigAt (s.tl T) n
  tl_last : ∀ T, s.tl T ≠ [] → P.SigAt (s.tl T) (s.tl T).length ∨ P.termAt (s.tl T) (s.tl T).length = T
  log_coherent : ∀ q, P.Coherent s.tl (s.log q)
  log_le : ∀ q, ∀ e ∈ s.log q, P.term e ≤ s.view q
  leader_view : ∀ T L, s.leader T = some L → T ≤ s.view L
  leader_log : ∀ L, s.leader (s.view L) = some L → s.log L = s.tl (s.view L)
  first_le : ∀ T L, s.leader T = some L → P.first ≤ T
  tl_genesis : ∀ T L, s.leader T = some L → P.genesis <+: s.tl T

/-- Every leader after `T₀` and before `T₁` has `p`. -/
def Sys.HeldBetween (s : Sys ι ε) (p : List ε) (T₀ T₁ : ℕ) : Prop :=
  ∀ T, T₀ < T → T < T₁ → s.leader T ≠ none → p <+: s.tl T

/-- What was acknowledged is kept until a leader comes that does not have it. -/
structure AckInv (P : Proto ι ε) (s : Sys ι ε) : Prop where
  ack_le : ∀ a ∈ s.acks, a.idx ≤ (s.tl a.term).length ∧ a.term ≤ s.view a.node
  ack_kept : ∀ a ∈ s.acks, ∀ c ≤ a.idx, s.view a.node = a.term ∨ P.SigAt (s.tl a.term) c →
    s.HeldBetween ((s.tl a.term).take c) a.term (s.view a.node + 1) → (s.tl a.term).take c <+: s.log a.node

structure VoteInv (P : Proto ι ε) (m : Mode ι) (s : Sys ι ε) : Prop where
  cand_view : ∀ c ∈ s.cands, c.term ≤ s.view c.node
  cand_unique : ∀ c ∈ s.cands, ∀ c' ∈ s.cands, c.term = c'.term → c.node = c'.node → c = c'
  cand_coherent : ∀ c ∈ s.cands, P.Coherent s.tl c.log
  cand_lt : ∀ c ∈ s.cands, ∀ e ∈ c.log, P.term e < c.term
  cand_commit : ∀ c ∈ s.cands, P.genesis.length ≤ c.commit ∧ c.commit ≤ c.log.length
  cand_proven : m.strict → ∀ c ∈ s.cands, ∃ e ∈ s.events, e.term < c.term ∧ c.log.take c.commit <+: s.committed e
  cand_kept : ∀ c ∈ s.cands, ∀ a ∈ s.acks, a.node = c.node → a.term < c.term → ∀ n ≤ a.idx,
    P.SigAt (s.tl a.term) n → s.HeldBetween ((s.tl a.term).take n) a.term c.term → (s.tl a.term).take n <+: c.log
  vote_view : ∀ vt ∈ s.votes, vt.term ≤ s.view vt.voter
  vote_cand : ∀ vt ∈ s.votes, vt.voter ≠ vt.node ∧
    ∃ c ∈ s.cands, c.term = vt.term ∧ c.node = vt.node ∧ P.UpToDate c.log vt.log
  vote_coherent : ∀ vt ∈ s.votes, P.Coherent s.tl vt.log
  vote_kept : ∀ vt ∈ s.votes, ∀ a ∈ s.acks, a.node = vt.voter → a.term < vt.term → ∀ n ≤ a.idx,
    P.SigAt (s.tl a.term) n → s.HeldBetween ((s.tl a.term).take n) a.term vt.term →
    (∀ L, s.leader vt.term = some L → L ≠ vt.node → (s.tl a.term).take n <+: s.tl vt.term) →
    (s.tl a.term).take n <+: vt.log
  elected : ∀ T X, s.leader T = some X → T = P.first ∨ ∃ c ∈ s.cands, c.term = T ∧ c.node = X ∧
    ∃ S, s.Supports T X S ∧ P.Quorate c.log c.commit S ∧ c.log.take (P.lastSig c.log) <+: s.tl T
  unique_vote : m.unique → ∀ vt ∈ s.votes, ∀ vt' ∈ s.votes, vt.term = vt'.term → vt.voter = vt'.voter →
    vt.node = vt'.node
  unique_cand : m.unique → ∀ vt ∈ s.votes, ∀ c ∈ s.cands, c.term = vt.term → c.node = vt.voter →
    ∃ L, s.leader vt.term = some L ∧ L ≠ vt.voter ∧ L ≠ vt.node

structure CommitInv (P : Proto ι ε) (m : Mode ι) (s : Sys ι ε) : Prop where
  event_bounds : ∀ e ∈ s.events, P.first ≤ e.term ∧ e.base ≤ e.idx ∧ e.idx ≤ e.last ∧
    e.last ≤ (s.tl e.term).length ∧ P.SigAt (s.tl e.term) e.idx ∧ P.termAt (s.tl e.term) e.idx = e.term
  event_acks : ∀ e ∈ s.events, ∀ q ∈ e.quorum, ∃ a ∈ s.acks, a.node = q ∧ a.term = e.term ∧ e.idx ≤ a.idx
  event_quorate : ∀ e ∈ s.events, P.Quorate ((s.tl e.term).take e.last) e.base e.quorum
  event_base : m.strict → ∀ e ∈ s.events, e.base ≤ P.genesis.length ∨
    ∃ e₀ ∈ s.events, (e₀.term < e.term ∨ e₀.term = e.term ∧ e₀.idx < e.idx) ∧
      (s.tl e.term).take e.base <+: s.committed e₀
  event_leader : ∀ L, s.leader (s.view L) = some L → ∀ e ∈ s.events, e.term = s.view L → e.idx ≤ s.commit L
  commit_le : ∀ q, s.commit q ≤ (s.log q).length
  commit_proven : m.strict → ∀ q, s.Committed ((s.log q).take (s.commit q)) (s.view q)

structure Inv (P : Proto ι ε) (m : Mode ι) (s : Sys ι ε) : Prop
    extends LogInv P s, AckInv P s, VoteInv P m s, CommitInv P m s where
  leader_elects : ∀ T L, s.leader T = some L → m.elects T L

end Ccf.SignedRaft
