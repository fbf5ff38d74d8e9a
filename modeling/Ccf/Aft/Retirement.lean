import Mathlib.Data.List.Find
import Ccf.Aft.LogSpec

/-! # What a log says about the retirement of a node

`retirementOf log commit n` is the retirement of `n` as a function of the log and the commit index, and
`RetirementSpec` says in words what its phases mean. `retirementAt` separates the two ways in which a
commit moves it: a retirement is completed when a signature over it is committed, and committed when
the global hooks reach the entry that marks the node. -/

namespace Ccf

open List

variable (log : List Entry)

/-- The entry at index `i` removes `n` from the service. -/
abbrev Removes (n : NodeId) (i : ℕ) : Prop :=
  n ∈ membersOf (log.take (i - 1)) ∧ n ∉ membersOf (log.take i)

/-- The index at which `n` is removed from the service. -/
def removalOf (n : NodeId) : Option ℕ :=
  (List.range' 1 log.length).find? (Removes log n ·)

/-- One of the first `k` entries marks `n` as retired-committed. -/
def markedBy (n : NodeId) (k : ℕ) : Bool :=
  (log.take k).any fun e => n ∈ e.tx.retiredCommittedNodes

/-- What a node knows about its own retirement. -/
structure Retirement where
  membershipState : MembershipState := .active
  retirementPhase : Option RetirementPhase := none
  retirementIdx : Option ℕ := none
  retirementCommittableIdx : Option ℕ := none
deriving DecidableEq, Repr

/-- The retirement of `n` when the signatures up to `commit` are committed and the global hooks have run
for the entries up to `compacted`. -/
def retirementAt (commit compacted : ℕ) (n : NodeId) : Retirement :=
  match removalOf log n with
  | none => {}
  | some r =>
    match (signatures log).find? (r ≤ ·) with
    | none => ⟨.retired, some .ordered, some r, none⟩
    | some s =>
      if commit < s then ⟨.retired, some .signed, some r, some s⟩
      else if markedBy log n compacted then
        ⟨.retired, some .retiredCommitted, some r, some s⟩
      else ⟨.retired, some .completed, some r, some s⟩

/-- The retirement of `n` as a function of the log and the commit index. -/
def retirementOf (commit : ℕ) (n : NodeId) : Retirement := retirementAt log commit commit n

/-! ### Removal -/

variable {log : List Entry} {n : NodeId} {r s i : ℕ}

theorem removalOf_eq_some (h : removalOf log n = some r) : 0 < r ∧ r ≤ log.length ∧ Removes log n r := by
  have hmem := mem_of_find?_eq_some h
  have hp := find?_some h
  rw [mem_range'_1] at hmem
  exact ⟨by omega, by omega, by simpa using hp⟩

theorem removalOf_eq_none (h : removalOf log n = none) (hpos : 0 < i) (hi : i ≤ log.length) : ¬Removes log n i := by
  have := find?_eq_none.1 h i (mem_range'_1.2 ⟨hpos, by omega⟩)
  simpa using this

theorem removalOf_concat (log : List Entry) (e : Entry) (n : NodeId) : removalOf (log ++ [e]) n =
      (removalOf log n).or (if n ∈ membersOf log ∧ n ∉ membersOf (log ++ [e]) then some (log.length + 1)
        else none) := by
  unfold removalOf
  rw [length_append, length_singleton, List.range'_concat, find?_append]
  congr 1
  · refine find?_congr fun i hi => ?_
    rw [mem_range'_1] at hi
    rw [Bool.eq_iff_iff, decide_eq_true_iff, decide_eq_true_iff, Removes, Removes,
      take_append_of_le_length (by omega), take_append_of_le_length (by omega)]
  · have hlast : 1 + 1 * log.length = log.length + 1 := by omega
    rw [hlast, find?_singleton]
    simp only [Removes, decide_eq_true_eq, Nat.add_sub_cancel, take_left]
    rw [take_of_length_le (by simp)]

/-- A node that was a member at `i` and is not at `s` was removed in between. -/
theorem exists_removal (his : i ≤ s) (hin : n ∈ membersOf (log.take i))
    (hout : n ∉ membersOf (log.take s)) : ∃ r, i < r ∧ r ≤ s ∧ Removes log n r := by
  induction s with
  | zero =>
    obtain rfl : i = 0 := by omega
    exact absurd hin hout
  | succ s ih =>
    by_cases hs : n ∈ membersOf (log.take s)
    · refine ⟨s + 1, ?_, le_rfl, hs, hout⟩
      rcases lt_or_ge i (s + 1) with hlt | hge
      · exact hlt
      · obtain rfl : i = s + 1 := by omega
        exact absurd hin hout
    · have hne : i ≠ s + 1 := fun h => hout (h ▸ hin)
      obtain ⟨r, hir, hrs, hr⟩ := ih (by omega) hs
      exact ⟨r, hir, by omega, hr⟩

theorem removalOf_take (log : List Entry) (n : NodeId) (k : ℕ) :
    removalOf (log.take k) n = (removalOf log n).filter (· ≤ k) := by
  induction log using List.reverseRecOn with
  | nil =>
    rw [take_nil]
    rfl
  | append_singleton log e ih =>
    rcases lt_or_ge log.length k with hlt | hge
    · rw [take_of_length_le (by simp; omega)]
      cases h : removalOf (log ++ [e]) n with
      | none => rfl
      | some r =>
        have := (removalOf_eq_some h).2.1
        rw [length_append, length_singleton] at this
        rw [Option.filter_some_pos (by simp; omega)]
    · rw [take_append_of_le_length hge, ih, removalOf_concat]
      cases h : removalOf log n with
      | some r => rfl
      | none =>
        split_ifs
        · rw [Option.or_some, Option.getD_none, Option.filter_some_neg (by simp; omega)]
          rfl
        · rfl

/-- The first signature at or after `r`. -/
theorem find?_signatures_eq_some (h : (signatures log).find? (r ≤ ·) = some s) :
    r ≤ s ∧ s ≤ log.length ∧ SignedAt log s ∧ ∀ s', SignedAt log s' → r ≤ s' → s ≤ s' := by
  have hmem := mem_of_find?_eq_some h
  have hp := find?_some h
  have hsigned := mem_signatures.1 hmem
  obtain ⟨e, he, _⟩ := hsigned
  refine ⟨by simpa using hp, (entryAt_eq_some he).2, mem_signatures.1 hmem, ?_⟩
  intro s' hs' hrs'
  obtain ⟨_, as, bs, hsplit, hbefore⟩ := find?_eq_some_iff_append.1 h
  have hmem' := mem_signatures.2 hs'
  have hsorted := signatures_sorted log
  rw [hsplit] at hmem' hsorted
  rcases mem_append.1 hmem' with hs' | hs'
  · have := hbefore s' hs'
    simp only [Bool.not_eq_true', decide_eq_false_iff_not, not_le] at this
    omega
  · rcases mem_cons.1 hs' with rfl | hs'
    · exact le_rfl
    · exact ((pairwise_cons.1 (pairwise_append.1 hsorted).2.1).1 s' hs').le

theorem find?_signatures_eq_none (h : (signatures log).find? (r ≤ ·) = none) (hs : SignedAt log s) : s < r := by
  have := find?_eq_none.1 h s (mem_signatures.2 hs)
  simpa using this

section

variable {commit compacted : ℕ}

theorem retirementAt_of_none (hr : removalOf log n = none) : retirementAt log commit compacted n = {} := by
  simp only [retirementAt, hr]

variable (hr : removalOf log n = some r)
include hr

theorem retirementAt_of_ordered (hs : (signatures log).find? (r ≤ ·) = none) :
    retirementAt log commit compacted n = ⟨.retired, some .ordered, some r, none⟩ := by
  simp only [retirementAt, hr, hs]

variable (hs : (signatures log).find? (r ≤ ·) = some s)
include hs

theorem retirementAt_of_signed
    (hc : commit < s) : retirementAt log commit compacted n = ⟨.retired, some .signed, some r, some s⟩ := by
  simp only [retirementAt, hr, hs, if_pos hc]

theorem retirementAt_of_committed (hc : s ≤ commit) :
    retirementAt log commit compacted n =
      ⟨.retired, some (if markedBy log n compacted then .retiredCommitted else .completed), some r, some s⟩ := by
  simp only [retirementAt, hr, hs, if_neg (not_lt.2 hc)]
  split_ifs <;> rfl

omit hs hr

end

variable (R : Retirement)

/-- Retirement after a configuration change at `idx` that may remove the node. -/
def Retirement.afterChange (removed : Prop) [Decidable removed] (idx : ℕ) : Retirement :=
  if removed then ⟨.retired, some .ordered, some idx, none⟩ else R

/-- Retirement after a signature at `idx`. -/
def Retirement.afterSignature (idx : ℕ) : Retirement :=
  if R.membershipState = .retired ∧ R.retirementPhase = some .ordered then
    { R with retirementPhase := some .signed, retirementCommittableIdx := some idx }
  else R

/-- Retirement after one more entry: it may remove the node, and it may sign the removal. -/
def Retirement.afterEntry (removed : Prop) [Decidable removed] (signature : Bool) (idx : ℕ) :
    Retirement :=
  if signature then (R.afterChange removed idx).afterSignature idx else R.afterChange removed idx

/-- Retirement after the entries up to `idx` are committed, before their global hooks run. -/
def Retirement.complete (idx : ℕ) : Retirement :=
  match R.retirementPhase, R.retirementCommittableIdx with
  | some .signed, some s => if s ≤ idx then { R with retirementPhase := some .completed } else R
  | _, _ => R

/-- Retirement after a rollback to `idx`. -/
def Retirement.cut (idx : ℕ) : Retirement :=
  let R' :=
    match R.retirementPhase, R.retirementCommittableIdx with
    | some .signed, some s =>
      if s > idx then { R with retirementPhase := some .ordered, retirementCommittableIdx := none } else R
    | _, _ => R
  match R'.retirementPhase, R'.retirementIdx with
  | some .ordered, some r => if r > idx then {} else R'
  | _, _ => R'

variable {k : ℕ}

/-- In a well formed log a node that is still a member was never removed. -/
theorem WellFormed.removalOf_eq_none (hwf : WellFormed log)
    (hk : k ≤ log.length) (hn : n ∈ membersOf (log.take k)) : removalOf (log.take k) n = none := by
  cases h : removalOf (log.take k) n with
  | none => rfl
  | some r =>
    exfalso
    obtain ⟨hpos, hr, hin, hout⟩ := removalOf_eq_some h
    rw [length_take, min_eq_left hk] at hr
    rw [take_take, min_eq_left (by omega)] at hin
    rw [take_take, min_eq_left hr] at hout
    exact hwf.final n (r - 1) r k (Nat.sub_le _ _) hr hin hout hn

variable {e : Entry} {commit compacted idx j : ℕ}

theorem retirementAt_concat (hwf : WellFormed (log ++ [e]))
    (hcommit : commit ≤ log.length) (hcompacted : compacted ≤ log.length) (n : NodeId) :
    retirementAt (log ++ [e]) commit compacted n =
      (retirementAt log commit compacted n).afterEntry (n ∈ membersOf log ∧ n ∉ membersOf (log ++ [e]))
        e.tx.committable (log.length + 1) := by
  have hmarked : markedBy (log ++ [e]) n compacted = markedBy log n compacted := by
    unfold markedBy
    rw [take_append_of_le_length hcompacted]
  have hnew : (signatures log).find? (log.length + 1 ≤ ·) = none := by
    rw [find?_eq_none]
    intro s hs
    obtain ⟨e', he', _⟩ := mem_signatures.1 hs
    have := (entryAt_eq_some he').2
    simp only [decide_eq_true_eq]
    omega
  cases hr : removalOf log n with
  | none =>
    by_cases hrem : n ∈ membersOf log ∧ n ∉ membersOf (log ++ [e])
    · simp only [retirementAt, removalOf_concat, hr, if_pos hrem, Option.none_or, signatures_concat,
        find?_append, hnew, Retirement.afterEntry, Retirement.afterChange]
      cases e.tx.committable
      · simp
      · simp [Nat.lt_succ_of_le hcommit, Retirement.afterSignature]
    · simp [retirementAt, removalOf_concat, hr, if_neg hrem, Retirement.afterEntry, Retirement.afterChange,
        Retirement.afterSignature]
  | some r =>
    have hrem : ¬(n ∈ membersOf log ∧ n ∉ membersOf (log ++ [e])) := by
      rintro ⟨hin, _⟩
      have hnone := hwf.removalOf_eq_none (n := n) (k := log.length) (by simp) (by simpa using hin)
      rw [take_left, hr] at hnone
      cases hnone
    have hrle := (removalOf_eq_some hr).2.1
    simp only [retirementAt, removalOf_concat, hr, Option.some_or, signatures_concat, find?_append, hmarked,
      Retirement.afterEntry, Retirement.afterChange, Retirement.afterSignature, if_neg hrem]
    cases hs : (signatures log).find? (r ≤ ·) with
    | some s =>
      simp only [Option.some_or]
      split_ifs <;> simp_all
    | none =>
      cases e.tx.committable
      · simp
      · simp [Nat.lt_succ_of_le hcommit, Nat.le_succ_of_le hrle]

/-- The shapes a retirement can have. -/
theorem retirementAt_cases (log : List Entry) (commit compacted : ℕ) (n : NodeId) :
    retirementAt log commit compacted n = {} ∨
      (∃ r, r ≤ log.length ∧ retirementAt log commit compacted n = ⟨.retired, some .ordered, some r, none⟩) ∨
      ∃ phase r s, phase ≠ .ordered ∧
        retirementAt log commit compacted n = ⟨.retired, some phase, some r, some s⟩ := by
  cases hr : removalOf log n with
  | none => exact .inl (retirementAt_of_none hr)
  | some r =>
    right
    cases hs : (signatures log).find? (r ≤ ·) with
    | none => exact .inl ⟨r, (removalOf_eq_some hr).2.1, retirementAt_of_ordered hr hs⟩
    | some s =>
      right
      rcases lt_or_ge commit s with hlt | hge
      · exact ⟨.signed, r, s, by decide, retirementAt_of_signed hr hs hlt⟩
      · refine ⟨_, r, s, ?_, retirementAt_of_committed hr hs hge⟩
        split_ifs <;> decide

theorem retirementAt_retired (h : (retirementAt log commit compacted n).retirementPhase ≠ none) :
    (retirementAt log commit compacted n).membershipState = .retired := by
  rcases retirementAt_cases log commit compacted n with hnone | ⟨r, _, hord⟩ | ⟨phase, r, s, _, hsigned⟩
  · rw [hnone] at h
    exact absurd rfl h
  · rw [hord]
  · rw [hsigned]

theorem retirementAt_ordered (h : (retirementAt log commit compacted n).retirementPhase = some .ordered) :
    ∃ r, r ≤ log.length ∧ (retirementAt log commit compacted n).retirementIdx = some r := by
  rcases retirementAt_cases log commit compacted n with hnone | ⟨r, hr, hord⟩ | ⟨phase, r, s, hphase, hsigned⟩
  · rw [hnone] at h
    cases h
  · exact ⟨r, hr, by rw [hord]⟩
  · rw [hsigned] at h
    exact absurd (Option.some.inj h) hphase

/-- Searching the part of a sorted list below `k`. -/
theorem find?_filter_le {l : List ℕ} (hl : l.Pairwise (· < ·)) (r k : ℕ) :
    (l.filter (· ≤ k)).find? (r ≤ ·) = (l.find? (r ≤ ·)).filter (· ≤ k) := by
  induction l with
  | nil => rfl
  | cons x l ih =>
    rw [pairwise_cons] at hl
    by_cases hx : x ≤ k
    · rw [filter_cons_of_pos (by simpa using hx)]
      by_cases hr : r ≤ x
      · rw [find?_cons_of_pos (by simpa using hr), find?_cons_of_pos (by simpa using hr),
          Option.filter_some_pos (by simpa using hx)]
      · rw [find?_cons_of_neg (by simpa using hr), find?_cons_of_neg (by simpa using hr), ih hl.2]
    · have habove : ∀ y ∈ x :: l, ¬y ≤ k := by
        intro y hy
        rcases mem_cons.1 hy with rfl | hy
        · exact hx
        · have := hl.1 y hy
          omega
      rw [filter_eq_nil_iff.2 fun y hy => by simpa using habove y hy, find?_nil]
      cases hfind : (x :: l).find? (r ≤ ·) with
      | none => rfl
      | some y =>
        have := habove y (mem_of_find?_eq_some hfind)
        rw [Option.filter_some_neg (by simpa using this)]

theorem retirementAt_take (hcommit : commit ≤ k) (hcompacted : compacted ≤ k) (n : NodeId) :
    retirementAt (log.take k) commit compacted n = (retirementAt log commit compacted n).cut k := by
  have hmarked : markedBy (log.take k) n compacted = markedBy log n compacted := by
    unfold markedBy
    rw [take_take, min_eq_left hcompacted]
  have hfind : ∀ r, (signatures (log.take k)).find? (r ≤ ·) = ((signatures log).find? (r ≤ ·)).filter (· ≤ k) := by
    intro r
    rw [signatures_take, find?_filter_le (signatures_sorted log)]
  cases hr : removalOf log n with
  | none =>
    rw [retirementAt_of_none hr, retirementAt_of_none (by rw [removalOf_take, hr]; rfl)]
    rfl
  | some r =>
    have hcut : ¬r ≤ k → removalOf (log.take k) n = none := fun hrk => by
      rw [removalOf_take, hr, Option.filter_some_neg (by simpa using hrk)]
    have hkeep : r ≤ k → removalOf (log.take k) n = some r := fun hrk => by
      rw [removalOf_take, hr, Option.filter_some_pos (by simpa using hrk)]
    cases hs : (signatures log).find? (r ≤ ·) with
    | none =>
      have hs' : (signatures (log.take k)).find? (r ≤ ·) = none := by rw [hfind, hs]; rfl
      rw [retirementAt_of_ordered hr hs]
      by_cases hrk : r ≤ k
      · rw [retirementAt_of_ordered (hkeep hrk) hs']
        simp [Retirement.cut, not_lt.2 hrk]
      · rw [retirementAt_of_none (hcut hrk)]
        simp [Retirement.cut, not_le.1 hrk]
    | some s =>
      obtain ⟨hrs, -, -, -⟩ := find?_signatures_eq_some hs
      by_cases hsk : s ≤ k
      · have hs' : (signatures (log.take k)).find? (r ≤ ·) = some s := by
          rw [hfind, hs, Option.filter_some_pos (by simpa using hsk)]
        have hr' := hkeep (hrs.trans hsk)
        rcases lt_or_ge commit s with hlt | hge
        · rw [retirementAt_of_signed hr hs hlt, retirementAt_of_signed hr' hs' hlt]
          simp [Retirement.cut, not_lt.2 hsk]
        · rw [retirementAt_of_committed hr hs hge, retirementAt_of_committed hr' hs' hge, hmarked]
          split_ifs <;> rfl
      · have hlt : commit < s := by omega
        have hs' : (signatures (log.take k)).find? (r ≤ ·) = none := by
          rw [hfind, hs, Option.filter_some_neg (by simpa using hsk)]
        rw [retirementAt_of_signed hr hs hlt]
        by_cases hrk : r ≤ k
        · rw [retirementAt_of_ordered (hkeep hrk) hs']
          simp [Retirement.cut, not_le.1 hsk, not_lt.2 hrk]
        · rw [retirementAt_of_none (hcut hrk)]
          simp [Retirement.cut, not_le.1 hsk, not_le.1 hrk]

/-- A node marked as retired-committed was removed, and the removal signed, before that. -/
theorem WellFormed.signed_of_markedBy (hwf : WellFormed log) (h : markedBy log n k = true) :
    ∃ r s, removalOf log n = some r ∧ (signatures log).find? (r ≤ ·) = some s ∧ s < k := by
  unfold markedBy at h
  rw [any_eq_true] at h
  obtain ⟨e, he, hn⟩ := h
  obtain ⟨i, hi, rfl⟩ := getElem_of_mem he
  rw [length_take] at hi
  have hentry : entryAt log (i + 1) = some (log.take k)[i] := by
    rw [getElem_take]
    exact getElem?_eq_getElem _
  obtain ⟨s', j, hs', hsigned, hjs, hin, hout⟩ := hwf.signed _ _ n hentry (by simpa using hn)
  obtain ⟨r', hjr, hrs, hrem⟩ := exists_removal hjs hin hout
  cases hr : removalOf log n with
  | none => exact absurd hrem (Ccf.removalOf_eq_none hr (by omega) (by omega))
  | some r =>
    have hrr : r ≤ r' := by
      by_contra hcon
      obtain ⟨_, hrlen, hrin, _⟩ := removalOf_eq_some hr
      exact hwf.final n (r' - 1) r' (r - 1) (Nat.sub_le _ _) (by omega) hrem.1 hrem.2 hrin
    cases hs : (signatures log).find? (r ≤ ·) with
    | none =>
      have := find?_signatures_eq_none hs hsigned
      omega
    | some s =>
      have := (find?_signatures_eq_some hs).2.2.2 s' hsigned (by omega)
      exact ⟨r, s, rfl, hs, by omega⟩

/-- Committing up to `idx` completes a retirement whose signature is at or below `idx`. -/
theorem WellFormed.retirementAt_commit (hwf : WellFormed log) (hidx : commit ≤ idx) (n : NodeId) :
    retirementAt log idx commit n = (retirementAt log commit commit n).complete idx := by
  unfold Retirement.complete
  cases hr : removalOf log n with
  | none => rw [retirementAt_of_none hr, retirementAt_of_none hr]
  | some r =>
    cases hs : (signatures log).find? (r ≤ ·) with
    | none => rw [retirementAt_of_ordered hr hs, retirementAt_of_ordered hr hs]
    | some s =>
      rcases lt_or_ge commit s with hlt | hge
      · rw [retirementAt_of_signed hr hs hlt]
        dsimp only
        rcases lt_or_ge idx s with hlt' | hge'
        · rw [retirementAt_of_signed hr hs hlt', if_neg (by omega)]
        · have hunmarked : markedBy log n commit = false := by
            rw [Bool.eq_false_iff]
            intro hmarked
            obtain ⟨r', s', hr', hs', hlt'⟩ := hwf.signed_of_markedBy hmarked
            rw [hr, Option.some.injEq] at hr'
            subst hr'
            rw [hs, Option.some.injEq] at hs'
            omega
          rw [retirementAt_of_committed hr hs hge', hunmarked, if_pos hge']
          rfl
      · rw [retirementAt_of_committed hr hs (hge.trans hidx), retirementAt_of_committed hr hs hge]
        split_ifs <;> rfl

theorem markedBy_succ (he : entryAt log (j + 1) = some e) (n : NodeId) :
    markedBy log n (j + 1) = (markedBy log n j || decide (n ∈ e.tx.retiredCommittedNodes)) := by
  unfold markedBy
  rw [take_add_one, show log[j]? = some e from he, any_append]
  simp

/-- The entry that marks a node finds its retirement completed, and commits it. -/
theorem WellFormed.retirementAt_marked (hwf : WellFormed log) (hj : j < idx)
    (he : entryAt log (j + 1) = some e) (hn : n ∈ e.tx.retiredCommittedNodes) :
    ∃ r s, retirementAt log idx j n = ⟨.retired, some .completed, some r, some s⟩ ∧
      retirementAt log idx (j + 1) n = ⟨.retired, some .retiredCommitted, some r, some s⟩ := by
  have hmarked : markedBy log n (j + 1) = true := by
    rw [markedBy_succ he]
    simp [hn]
  have hunmarked : markedBy log n j = false := by
    rw [Bool.eq_false_iff, markedBy, ne_eq, any_eq_true]
    rintro ⟨e', he', hn'⟩
    obtain ⟨i, hi, rfl⟩ := getElem_of_mem he'
    rw [length_take] at hi
    have hentry : entryAt log (i + 1) = some (log.take j)[i] := by
      rw [getElem_take]
      exact getElem?_eq_getElem _
    have := hwf.once _ _ _ _ n hentry he (by simpa using hn') hn
    omega
  obtain ⟨r, s, hr, hs, hlt⟩ := hwf.signed_of_markedBy hmarked
  refine ⟨r, s, ?_, ?_⟩
  · rw [retirementAt_of_committed hr hs (by omega), hunmarked]
    rfl
  · rw [retirementAt_of_committed hr hs (by omega), hmarked]
    rfl

theorem retirementAt_unmarked (he : entryAt log (j + 1) = some e) (hn : n ∉ e.tx.retiredCommittedNodes) :
    retirementAt log idx (j + 1) n = retirementAt log idx j n := by
  have hmarked : markedBy log n (j + 1) = markedBy log n j := by
    rw [markedBy_succ he]
    simp [hn]
  simp only [retirementAt, hmarked]

/-- A node that is marked is not a member after the mark. -/
theorem WellFormed.not_member_of_marked {q : ℕ} (hwf : WellFormed log)
    (he : entryAt log q = some e) (hn : n ∈ e.tx.retiredCommittedNodes) (hk : q ≤ k) : n ∉ membersOf (log.take k) := by
  obtain ⟨s, i, hs, _, his, hin, hout⟩ := hwf.signed q e n he hn
  exact hwf.final n i s k his (by omega) hin hout

theorem Tx.retiredCommittedNodes_nodup (t : Tx) : t.retiredCommittedNodes.Nodup := by
  have hsub : t.retiredCommittedNodes.Sublist (t.nodes.map Prod.fst) := by
    unfold Tx.retiredCommittedNodes
    induction t.nodes with
    | nil => exact List.Sublist.refl _
    | cons w l ih =>
      rw [filterMap_cons, map_cons]
      split
      · exact ih.cons _
      · rename_i x hx
        have : x = w.1 := by
          split at hx
          · cases hx
          · split_ifs at hx
            · exact (Option.some.inj hx).symm
        rw [this]
        exact ih.cons_cons _
  exact hsub.nodup t.nodup

/-! ### The retirement of a node in words -/

/-- The configuration entry at `r` removes `n`. -/
def RemovedAt (log : List Entry) (n : NodeId) (r : ℕ) : Prop := 0 < r ∧ r ≤ log.length ∧ Removes log n r

/-- The entry at `q` marks `n` as retired-committed. -/
def MarkedAt (log : List Entry) (n : NodeId) (q : ℕ) : Prop :=
  ∃ e, entryAt log q = some e ∧ n ∈ e.tx.retiredCommittedNodes

/-- What the membership state and the retirement phase of `n` mean. -/
structure RetirementSpec (log : List Entry) (commit : ℕ) (n : NodeId) (R : Retirement) : Prop where
  active_iff : R.membershipState = .active ↔ ∀ r, ¬RemovedAt log n r
  ordered_iff : R.retirementPhase = some .ordered ↔ ∃ r, RemovedAt log n r ∧ ∀ s, SignedAt log s → s < r
  signed_iff : R.retirementPhase = some .signed ↔
    ∃ r, RemovedAt log n r ∧ (∃ s, SignedAt log s ∧ r ≤ s) ∧ ∀ s, SignedAt log s → r ≤ s → commit < s
  completed_iff : R.retirementPhase = some .completed ↔
    ∃ r, RemovedAt log n r ∧ (∃ s, SignedAt log s ∧ r ≤ s ∧ s ≤ commit) ∧ ∀ q, MarkedAt log n q → commit < q
  retiredCommitted_iff : R.retirementPhase = some .retiredCommitted ↔
    ∃ r, RemovedAt log n r ∧ (∃ s, SignedAt log s ∧ r ≤ s ∧ s ≤ commit) ∧ ∃ q, MarkedAt log n q ∧ q ≤ commit
  retirementIdx_eq : ∀ r, R.retirementIdx = some r ↔ RemovedAt log n r
  retirementCommittableIdx_eq : ∀ s, R.retirementCommittableIdx = some s ↔
    ∃ r, RemovedAt log n r ∧ SignedAt log s ∧ r ≤ s ∧ ∀ s', SignedAt log s' → r ≤ s' → s ≤ s'

theorem WellFormed.removalOf_eq_some_iff (hwf : WellFormed log) : removalOf log n = some r ↔ RemovedAt log n r := by
  refine ⟨removalOf_eq_some, fun ⟨hpos, hlen, hin, hout⟩ => ?_⟩
  cases hr : removalOf log n with
  | none => exact absurd ⟨hin, hout⟩ (Ccf.removalOf_eq_none hr hpos hlen)
  | some r' =>
    obtain ⟨hpos', hlen', hin', hout'⟩ := removalOf_eq_some hr
    rcases lt_trichotomy r r' with hlt | heq | hgt
    · exact absurd hin' (hwf.final n (r - 1) r (r' - 1) (Nat.sub_le _ _) (by omega) hin hout)
    · rw [heq]
    · exact absurd hin (hwf.final n (r' - 1) r' (r - 1) (Nat.sub_le _ _) (by omega) hin' hout')

theorem markedBy_iff : markedBy log n k = true ↔ ∃ q, MarkedAt log n q ∧ q ≤ k := by
  unfold markedBy MarkedAt
  rw [any_eq_true]
  constructor
  · rintro ⟨e, he, hn⟩
    obtain ⟨i, hi, rfl⟩ := getElem_of_mem he
    rw [length_take] at hi
    refine ⟨i + 1, ⟨(log.take k)[i], ?_, by simpa using hn⟩, by omega⟩
    rw [getElem_take]
    exact getElem?_eq_getElem _
  · rintro ⟨q, ⟨e, he, hn⟩, hq⟩
    refine ⟨e, ?_, by simpa using hn⟩
    cases q with
    | zero => cases he
    | succ q =>
      have htake : (log.take k)[q]? = some e := (getElem?_take_of_lt hq).trans he
      exact mem_of_getElem? htake

theorem first_signature_iff : (signatures log).find? (r ≤ ·) = some s ↔
      SignedAt log s ∧ r ≤ s ∧ ∀ s', SignedAt log s' → r ≤ s' → s ≤ s' := by
  constructor
  · intro h
    obtain ⟨hrs, _, hsigned, hfirst⟩ := find?_signatures_eq_some h
    exact ⟨hsigned, hrs, hfirst⟩
  · rintro ⟨hsigned, hrs, hfirst⟩
    cases h : (signatures log).find? (r ≤ ·) with
    | none =>
      have := find?_signatures_eq_none h hsigned
      omega
    | some s' =>
      obtain ⟨hrs', _, hsigned', hfirst'⟩ := find?_signatures_eq_some h
      have h₁ := hfirst s' hsigned' hrs'
      have h₂ := hfirst' s hsigned hrs
      rw [le_antisymm h₂ h₁]

/-- The retirement as a function of the log says what the words say. -/
theorem WellFormed.retirementSpec (hwf : WellFormed log) (commit : ℕ) (n : NodeId) :
    RetirementSpec log commit n (retirementOf log commit n) := by
  have hrem : ∀ r, RemovedAt log n r ↔ removalOf log n = some r := fun r => hwf.removalOf_eq_some_iff.symm
  have hmark : (∃ q, MarkedAt log n q ∧ q ≤ commit) ↔ markedBy log n commit = true := markedBy_iff.symm
  have hmark' : (∀ q, MarkedAt log n q → commit < q) ↔ markedBy log n commit = false := by
    rw [← Bool.not_eq_true, ← hmark]
    push Not
    exact Iff.rfl
  unfold retirementOf
  cases hr : removalOf log n with
  | none =>
    have hnone : ∀ r, ¬RemovedAt log n r := fun r h => by simp [(hrem r).1 h] at hr
    rw [retirementAt_of_none hr]
    constructor <;> simp [hnone]
  | some r =>
    have hremoved : ∀ r', RemovedAt log n r' ↔ r = r' := fun r' => by simp [hrem, hr]
    cases hs : (signatures log).find? (r ≤ ·) with
    | none =>
      have hlt : ∀ s, SignedAt log s → s < r := fun s h => find?_signatures_eq_none hs h
      rw [retirementAt_of_ordered hr hs]
      constructor <;> simp only [hremoved, exists_eq_left', hmark, hmark', ← first_signature_iff, hs]
      all_goals simp
      all_goals grind
    | some s =>
      obtain ⟨hrs, _, hsigned, hfirst⟩ := find?_signatures_eq_some hs
      have hordered : ¬∀ s, SignedAt log s → s < r := fun h => by
        have := h s hsigned
        omega
      have hany : ∃ s, SignedAt log s ∧ r ≤ s := ⟨s, hsigned, hrs⟩
      have hopen : (∀ s', SignedAt log s' → r ≤ s' → commit < s') ↔ commit < s :=
        ⟨fun h => h s hsigned hrs, fun h s' hs' hr' => h.trans_le (hfirst s' hs' hr')⟩
      have hdone : (∃ s', SignedAt log s' ∧ r ≤ s' ∧ s' ≤ commit) ↔ s ≤ commit :=
        ⟨fun ⟨s', hs', hr', hc⟩ => (hfirst s' hs' hr').trans hc, fun h => ⟨s, hsigned, hrs, h⟩⟩
      rcases lt_or_ge commit s with hlt | hge
      · rw [retirementAt_of_signed hr hs hlt]
        constructor <;> simp only [hremoved, exists_eq_left', hmark, hmark', ← first_signature_iff, hs, hopen, hdone]
        all_goals simp [hordered, hany, hlt, not_le.2 hlt]
      · rw [retirementAt_of_committed hr hs hge]
        constructor <;> simp only [hremoved, exists_eq_left', hmark, hmark', ← first_signature_iff, hs, hopen, hdone]
        all_goals cases hm : markedBy log n commit <;> simp [hordered, hge, not_lt.2 hge]

end Ccf
