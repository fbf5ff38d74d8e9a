import Ccf.Kv.Map
import Ccf.Lib.SortedList

/-! # The roll of a map keeps a table of the history

`Roll.Keeps r h name floor` relates the roll of a map to the history of the store: at every version from the head on,
the last commit at or before it has the state that the history has there. It is kept by commits, rollbacks and
compactions. -/

namespace Ccf.Kv

open List Versioned
open Std (ExtTreeMap compare_eq_iff_eq)

/-! ### Writing -/

variable {t : State}

theorem erase_eq_self {k : SerialisedEntry} (hk : t[k]? = none) : t.erase k = t := by
  refine ExtTreeMap.ext_getElem? fun a => ?_
  rw [ExtTreeMap.getElem?_erase]
  split_ifs with ha
  · rw [← compare_eq_iff_eq.1 ha, hk]
  · rfl

namespace Roll

variable (v : ℕ) {l : List (SerialisedEntry × Option SerialisedEntry)} {p : SerialisedEntry × Option SerialisedEntry}
  {w : Write} {acc : State × Bool}

theorem writeKey_fst (track : Bool) (acc : State × Bool)
    (p : SerialisedEntry × Option SerialisedEntry) : (writeKey v track acc p).1 = write v acc.1 p := by
  unfold writeKey write
  cases p.2 with
  | some x => rfl
  | none =>
    cases hk : acc.1[p.1]? with
    | some _ => rfl
    | none => exact (erase_eq_self hk).symm

theorem foldl_writeKey_fst (track : Bool) (l : List (SerialisedEntry × Option SerialisedEntry))
    (acc : State × Bool) : (l.foldl (writeKey v track) acc).1 = l.foldl (write v) acc.1 := by
  induction l generalizing acc with
  | nil => rfl
  | cons p l ih => rw [foldl_cons, foldl_cons, ih, writeKey_fst]

theorem writeKey_of_not
    (h : (writeKey v false acc p).2 = false) : acc.2 = false ∧ p.2 = none ∧ (writeKey v false acc p).1 = acc.1 := by
  unfold writeKey at h ⊢
  cases hp : p.2 with
  | some x => simp [hp] at h
  | none =>
    cases hk : acc.1[p.1]? with
    | some _ => simp [hp, hk] at h
    | none => simpa [hp, hk] using h

/-- A commit that reports no change has left the state as it was, and had no put. -/
theorem foldl_writeKey_of_not (h : (l.foldl (writeKey v false) acc).2 = false) :
    acc.2 = false ∧ (∀ p ∈ l, p.2 = none) ∧ (l.foldl (writeKey v false) acc).1 = acc.1 := by
  induction l generalizing acc with
  | nil => exact ⟨h, by simp, rfl⟩
  | cons p l ih =>
    obtain ⟨hacc, hl, hfst⟩ := ih h
    obtain ⟨hacc', hp, hfst'⟩ := writeKey_of_not v hacc
    refine ⟨hacc', ?_, hfst.trans hfst'⟩
    rintro q hq
    rcases mem_cons.1 hq with rfl | hq
    · exact hp
    · exact hl q hq

/-- A write set that puts something, rather than only removing keys. -/
def HasPut (w : Write) : Prop := ∃ p ∈ w.toList, p.2.isSome

instance (w : Write) : Decidable (HasPut w) := List.decidableBEx _ _

/-- A write set that changes a state: it puts something, or removes a key that is there. -/
def Effective (t : State) (w : Write) : Prop := ∃ p ∈ w.toList, p.2.isSome ∨ t[p.1]?.isSome

instance (t : State) (w : Write) : Decidable (Effective t w) := List.decidableBEx _ _

theorem HasPut.effective (h : HasPut w) (t : State) : Effective t w :=
  h.imp fun _ hp => ⟨hp.1, .inl hp.2⟩

theorem Effective.ne_empty (h : Effective t w) : w ≠ ∅ := by
  rintro rfl
  obtain ⟨⟨k, x⟩, hp, -⟩ := h
  cases hp

/-- After an effective write set, or before it, the state is not empty. -/
theorem Effective.state_ne_empty (h : Effective t w) (v : ℕ) : t ≠ ∅ ∨ w.apply v t ≠ ∅ := by
  obtain ⟨⟨k, x⟩, hp, hx⟩ := h
  have hk := ExtTreeMap.mem_toList_iff_getElem?_eq_some.1 hp
  rcases hx with hx | hx
  · right
    intro hempty
    have hget := getElem?_apply v w t k
    rw [hempty, hk, ExtTreeMap.getElem?_empty] at hget
    cases x with
    | none => cases hx
    | some y => cases hget
  · left
    rintro rfl
    simp at hx

theorem foldl_writeKey_of_not_effective
    (h : ∀ p ∈ l, p.2 = none ∧ t[p.1]? = none) : l.foldl (writeKey v false) (t, false) = (t, false) := by
  induction l with
  | nil => rfl
  | cons p l ih =>
    obtain ⟨hp, hk⟩ := h p mem_cons_self
    have hstep : writeKey v false (t, false) p = (t, false) := by simp [writeKey, hp, hk]
    rw [foldl_cons, hstep]
    exact ih fun q hq => h q (mem_cons_of_mem _ hq)

variable (r : Roll)

/-- A commit adds a local commit, or changes nothing at all. -/
theorem commit_cases (w : Write) (v : ℕ) :
    (r.commit w v false = { r with later := r.later ++ [⟨v, w.apply v r.tail.state, w⟩] } ∧
      Effective r.tail.state w) ∨
    (r.commit w v false = r ∧ w.apply v r.tail.state = r.tail.state ∧ ¬Effective r.tail.state w) := by
  unfold Roll.commit
  have hfst := foldl_writeKey_fst v false w.toList (r.tail.state, false)
  by_cases he : Effective r.tail.state w
  · left
    have hw : ¬w.isEmpty = true := fun h => he.ne_empty (ExtTreeMap.isEmpty_iff.1 h)
    have hsnd : (w.toList.foldl (writeKey v false) (r.tail.state, false)).2 = true := by
      by_contra hnot
      obtain ⟨-, hnone, hsame⟩ := foldl_writeKey_of_not v (by simpa using hnot)
      obtain ⟨p, hp, hput | hkey⟩ := he
      · simp [hnone p hp] at hput
      · have hget := getElem?_apply v w r.tail.state p.1
        rw [show w.apply v r.tail.state = r.tail.state from hfst.symm.trans hsame,
          ExtTreeMap.mem_toList_iff_getElem?_eq_some.1 (show (p.1, p.2) ∈ w.toList from hp), hnone p hp] at hget
        simp [hget] at hkey
    refine ⟨?_, he⟩
    simp only [if_neg hw, hsnd, if_true, hfst]
    rfl
  · right
    have hnot : ∀ p ∈ w.toList, p.2 = none ∧ r.tail.state[p.1]? = none := by
      intro p hp
      simp only [Effective, not_exists, not_and, not_or] at he
      simpa using he p hp
    have hfold := foldl_writeKey_of_not_effective v hnot
    refine ⟨?_, ?_, he⟩
    · simp only [hfold, Bool.false_eq_true, if_false, ite_self]
    · rw [hfold] at hfst
      exact hfst.symm

/-! ### Finding a commit -/

/-- The state a transaction reads at version `w`. -/
def stateAt (r : Roll) (w : ℕ) : Option State := (r.find? w).map LocalCommit.state

theorem find?_eq (w : ℕ) :
    r.find? w = (r.later.reverse.find? (·.version ≤ w)).or (if r.head.version ≤ w then some r.head else none) := by
  rw [find?, commits, reverse_cons, find?_append, find?_singleton]
  simp only [decide_eq_true_eq]

theorem find?_concat (c : LocalCommit) (w : ℕ) :
    ({ r with later := r.later ++ [c] } : Roll).find? w = if c.version ≤ w then some c else r.find? w := by
  simp only [find?_eq, reverse_append, reverse_singleton, cons_append, nil_append]
  by_cases hc : c.version ≤ w
  · rw [find?_cons_of_pos (by simpa using hc), if_pos hc, Option.some_or]
  · rw [find?_cons_of_neg (by simpa using hc), if_neg hc]

theorem tail_of_later_nil {r : Roll} (h : r.later = []) : r.tail = r.head := by simp [tail, h]

/-- The tail is the head, or the last of the later commits. -/
theorem tail_cases : r.later = [] ∧ r.tail = r.head ∨ ∃ l, r.later = l ++ [r.tail] := by
  rcases eq_nil_or_concat r.later with h | ⟨l, c, h⟩
  · exact .inl ⟨h, tail_of_later_nil h⟩
  · refine .inr ⟨l, ?_⟩
    simp [tail, h]

theorem tail_mem : r.tail ∈ r.commits := by
  rcases r.tail_cases with ⟨-, htail⟩ | ⟨l, hl⟩
  · rw [htail]
    exact mem_cons_self
  · refine mem_cons_of_mem _ ?_
    rw [hl]
    simp

theorem find?_tail {w : ℕ} (hw : r.tail.version ≤ w) : r.find? w = some r.tail := by
  rw [find?_eq]
  rcases r.tail_cases with ⟨hnil, htail⟩ | ⟨l, hl⟩
  · rw [htail] at hw ⊢
    simp [hnil, hw]
  · rw [hl, reverse_append, reverse_singleton, singleton_append,
      find?_cons_of_pos (by simpa using hw), Option.some_or]

theorem find?_dropWhile {α : Type} {p q : α → Bool} (h : ∀ a, p a → ¬q a) (l : List α) :
    (l.dropWhile p).find? q = l.find? q := by
  induction l with
  | nil => rfl
  | cons a l ih =>
    by_cases hp : p a
    · rw [dropWhile_cons_of_pos hp, ih, find?_cons_of_neg (h a hp)]
    · rw [dropWhile_cons_of_neg hp]

/-- Below the version rolled back to, a rollback changes nothing. -/
theorem find?_rollback {v w : ℕ} (hw : w ≤ v) : (r.rollback v).find? w = r.find? w := by
  have hdrop : (r.later.reverse.dropWhile fun c => decide (v < c.version)).find? (fun c => decide (c.version ≤ w)) =
      r.later.reverse.find? fun c => decide (c.version ≤ w) := by
    refine find?_dropWhile (fun c hc => ?_) _
    simp only [decide_eq_true_eq] at hc ⊢
    omega
  simp only [find?_eq, rollback, List.rdropWhile, reverse_reverse, hdrop]

/-- The later commits of a sorted roll that a rollback leaves. -/
theorem later_rollback {r : Roll} (hs : r.later.Pairwise (·.version < ·.version)) (v : ℕ) :
    (r.rollback v).later = r.later.filter (·.version ≤ v) := by
  have hfilter := rdropWhile_eq_filter (p := fun c : LocalCommit => decide (c.version ≤ v)) (l := r.later)
    (hs.imp fun {a b} hab hb => by simp only [decide_eq_true_eq] at hb ⊢; omega)
  rw [← hfilter]
  simp only [rollback]
  congr 1
  funext c
  rw [← decide_not]
  congr 1
  exact propext (by omega)

theorem rollbackCounter_le : r.rollbackCounter ≤ (r.rollback v).rollbackCounter := by
  simp only [rollback]
  split_ifs
  · exact Nat.le_succ _
  · exact le_rfl

/-- A rollback that takes a commit away is counted. -/
theorem rollbackCounter_lt {r : Roll} (hs : r.later.Pairwise (·.version < ·.version)) {v : ℕ}
    {c : LocalCommit} (hc : c ∈ r.later) (hv : v < c.version) :
    r.rollbackCounter < (r.rollback v).rollbackCounter := by
  have hlater := later_rollback hs v
  have hlen : (r.rollback v).later.length < r.later.length := by
    rw [hlater]
    refine length_filter_lt_length_iff_exists.2 ⟨c, hc, ?_⟩
    simp only [decide_eq_true_eq]
    omega
  simp only [rollback] at hlen ⊢
  rw [if_pos hlen]
  exact Nat.lt_succ_self _

end Roll

/-! ### Compaction -/

namespace Map

theorem takeDelta_fst (hook due : Bool) (r : LocalCommit) (ds : List (ℕ × Write)) :
    (takeDelta hook due r ds).1.version = r.version ∧ (takeDelta hook due r ds).1.state = r.state := by
  unfold takeDelta
  split_ifs <;> exact ⟨rfl, rfl⟩

/-- Compaction drops commits from the head. The new head is as it was but for its write set, what follows it
is later than `v`, and unless nothing was dropped it is not later than `v` itself. -/
theorem compactLoop_spec (hook : Bool) (v : ℕ) (r : LocalCommit) (later : List LocalCommit)
    (ds : List (ℕ × Write)) (hs : (r :: later).Pairwise (·.version < ·.version)) :
    ∃ dropped c, r :: later = dropped ++ c :: (compactLoop hook v r later ds).2.1 ∧
      (compactLoop hook v r later ds).1.version = c.version ∧
      (compactLoop hook v r later ds).1.state = c.state ∧
      (∀ e ∈ (compactLoop hook v r later ds).2.1, v < e.version) ∧ (dropped = [] ∨ c.version ≤ v) := by
  induction later generalizing r ds with
  | nil =>
    obtain ⟨hversion, hstate⟩ := takeDelta_fst hook (!r.writes.isEmpty) r ds
    exact ⟨[], r, by simp [compactLoop], hversion, hstate, by simp [compactLoop], .inl rfl⟩
  | cons next later ih =>
    obtain ⟨hr, hs'⟩ := pairwise_cons.1 hs
    unfold compactLoop
    by_cases hv : r.version = v
    · rw [if_pos hv]
      obtain ⟨hversion, hstate⟩ := takeDelta_fst hook true r ds
      exact ⟨[], r, rfl, hversion, hstate, fun e he => hv ▸ hr e he, .inl rfl⟩
    · rw [if_neg hv]
      by_cases hnext : v < next.version
      · obtain ⟨hversion, hstate⟩ := takeDelta_fst hook (!r.writes.isEmpty) r ds
        simp only [if_pos hnext]
        refine ⟨[], r, rfl, hversion, hstate, fun e he => ?_, .inl rfl⟩
        rcases mem_cons.1 he with rfl | he
        · exact hnext
        · exact hnext.trans ((pairwise_cons.1 hs').1 e he)
      · simp only [if_neg hnext]
        obtain ⟨dropped, c, heq, hversion, hstate, hlater, hc⟩ :=
          ih next (takeDelta hook (!r.writes.isEmpty) r ds).2 hs'
        refine ⟨r :: dropped, c, by rw [heq]; rfl, hversion, hstate, hlater, .inr ?_⟩
        rcases hc with hc | hc
        · rw [hc, nil_append] at heq
          rw [← (List.cons.inj heq).1]
          exact not_lt.1 hnext
        · exact hc

end Map

/-! ### Keeping a table -/

namespace Roll

/-- The roll keeps the table `name` of the history at the versions from its head on. `floor` is the version
nothing below which is ever read again. -/
structure Keeps (r : Roll) (h : WriteHistory) (name : Name) (floor : ℕ) : Prop where
  base_le : h.base ≤ floor
  floor_le : floor ≤ h.version
  head_le : r.head.version ≤ floor
  later_mem : ∀ c ∈ r.later, floor < c.version ∧ c.version ≤ h.version
  sorted : r.later.Pairwise (·.version < ·.version)
  content : ∀ w, h.base ≤ w → r.head.version ≤ w → w ≤ h.version → r.stateAt w = some (h.tableAt w name)

namespace Keeps

variable {r : Roll} {h : WriteHistory} {name : Name} {floor : ℕ} (k : r.Keeps h name floor)
include k

theorem sorted_commits : r.commits.Pairwise (·.version < ·.version) :=
  pairwise_cons.2 ⟨fun c hc => k.head_le.trans_lt (k.later_mem c hc).1, k.sorted⟩

theorem tail_le : r.tail.version ≤ h.version := by
  rcases r.tail_cases with ⟨-, htail⟩ | ⟨l, hl⟩
  · exact htail ▸ k.head_le.trans k.floor_le
  · exact (k.later_mem r.tail (by rw [hl]; simp)).2

theorem tail_state : r.tail.state = h.tableAt h.version name := by
  have hcontent := k.content h.version h.base_le_version (k.head_le.trans k.floor_le) le_rfl
  rw [stateAt, r.find?_tail k.tail_le] at hcontent
  exact Option.some.inj hcontent

theorem head_state : r.head.state = h.tableAt floor name := by
  have hcontent := k.content floor k.base_le k.head_le k.floor_le
  have hnone : r.later.reverse.find? (fun c => decide (c.version ≤ floor)) = none := by
    refine find?_eq_none.2 fun c hc => ?_
    have := (k.later_mem c (mem_reverse.1 hc)).1
    simp only [decide_eq_true_eq]
    omega
  rw [stateAt, find?_eq, hnone, if_pos k.head_le] at hcontent
  exact Option.some.inj hcontent

omit k

/-- A new map keeps a table that has been empty so far. -/
theorem new (hb : h.base ≤ floor) (hf : floor ≤ h.version)
    (hempty : ∀ w, h.base ≤ w → w ≤ h.version → h.tableAt w name = ∅) : ({} : Roll).Keeps h name floor where
  base_le := hb
  floor_le := hf
  head_le := Nat.zero_le _
  later_mem := by simp
  sorted := List.Pairwise.nil
  content w hw _ hv := by simp [stateAt, find?, commits, hempty w hw hv]

include k

theorem commit (d : Name → Write) : (r.commit (d name) (h.version + 1) false).Keeps (h.push d) name floor := by
  have hfloor : floor ≤ (h.push d).version := by rw [History.version_push]; exact k.floor_le.trans (Nat.le_succ _)
  have htop : (h.push d).tableAt (h.version + 1) name = (d name).apply (h.version + 1) r.tail.state := by
    rw [History.at_push_succ, k.tail_state]
  rcases r.commit_cases (d name) (h.version + 1) with ⟨heq, -⟩ | ⟨heq, hsame, -⟩
  · rw [heq]
    refine ⟨k.base_le, hfloor, k.head_le, ?_, ?_, ?_⟩
    · intro c hc
      rw [History.version_push]
      rcases mem_append.1 hc with hc | hc
      · exact ⟨(k.later_mem c hc).1, (k.later_mem c hc).2.trans (Nat.le_succ _)⟩
      · rw [mem_singleton.1 hc]
        exact ⟨Nat.lt_succ_of_le k.floor_le, le_rfl⟩
    · refine pairwise_append.2 ⟨k.sorted, pairwise_singleton _ _, fun a ha b hb => ?_⟩
      rw [mem_singleton.1 hb]
      exact Nat.lt_succ_of_le (k.later_mem a ha).2
    · intro w hw hhead hv
      rw [stateAt, find?_concat]
      split_ifs with hle
      · rw [show w = h.version + 1 from le_antisymm (History.version_push h d ▸ hv) hle, htop]
        rfl
      · have hold : w ≤ h.version := Nat.lt_succ_iff.1 (not_le.1 hle)
        rw [History.at_push_of_le h d hold]
        exact k.content w hw hhead hold
  · rw [heq]
    refine ⟨k.base_le, hfloor, k.head_le, ?_, k.sorted, ?_⟩
    · intro c hc
      rw [History.version_push]
      exact ⟨(k.later_mem c hc).1, (k.later_mem c hc).2.trans (Nat.le_succ _)⟩
    · intro w hw hhead hv
      by_cases hold : w ≤ h.version
      · rw [History.at_push_of_le h d hold]
        exact k.content w hw hhead hold
      · have hw' : w = h.version + 1 := by rw [History.version_push] at hv; omega
        rw [hw', htop, hsame, stateAt, r.find?_tail (k.tail_le.trans (Nat.le_succ _))]
        rfl

theorem rollback {v : ℕ} (hv : floor ≤ v) (hle : v ≤ h.version) : (r.rollback v).Keeps (h.truncate v) name floor := by
  have hversion : (h.truncate v).version = v := h.version_truncate (k.base_le.trans hv) hle
  have hlater := later_rollback k.sorted v
  refine ⟨k.base_le, hv.trans_eq hversion.symm, k.head_le, ?_, ?_, ?_⟩
  · intro c hc
    rw [hlater, mem_filter, decide_eq_true_eq] at hc
    rw [hversion]
    exact ⟨(k.later_mem c hc.1).1, hc.2⟩
  · rw [hlater]
    exact k.sorted.filter _
  · intro w hw hhead hwv
    rw [hversion] at hwv
    rw [stateAt, find?_rollback r hwv, History.at_truncate h hwv]
    exact k.content w hw hhead (hwv.trans hle)

omit k

end Keeps
end Roll

theorem Map.keeps_compact {m : Map} {h : WriteHistory} {name : Name} {floor v : ℕ}
    (k : m.roll.Keeps h name floor) (hv : v ≤ h.version) : (m.compact v).roll.Keeps h name (max v floor) := by
  obtain ⟨dropped, c, heq, hversion, hstate, hlater, hc⟩ :=
    compactLoop_spec m.globalHook v m.roll.head m.roll.later m.commitDeltas k.sorted_commits
  have hcommits : m.roll.commits = dropped ++ c :: (m.compact v).roll.later := heq
  have hsub : (c :: (m.compact v).roll.later).Sublist m.roll.commits := by
    rw [hcommits]
    exact sublist_append_right _ _
  have hmem : ∀ e ∈ (m.compact v).roll.later, e ∈ m.roll.later := by
    intro e he
    cases dropped with
    | nil => exact (List.cons.inj heq).2 ▸ he
    | cons d dropped =>
      rw [(List.cons.inj heq).2]
      exact mem_append_right _ (mem_cons_of_mem _ he)
  have hheadle : c.version ≤ max v floor := by
    rcases hc with hnil | hle
    · rw [hnil, nil_append] at heq
      rw [← (List.cons.inj heq).1]
      exact k.head_le.trans (le_max_right _ _)
    · exact hle.trans (le_max_left _ _)
  refine ⟨k.base_le.trans (le_max_right _ _), max_le hv k.floor_le, ?_, ?_, ?_, ?_⟩
  · exact hversion.trans_le hheadle
  · intro e he
    exact ⟨max_lt (hlater e he) (k.later_mem e (hmem e he)).1, (k.later_mem e (hmem e he)).2⟩
  · exact (pairwise_cons.1 (k.sorted_commits.sublist hsub)).2
  · intro w hw hhead hwv
    have hcw : c.version ≤ w := hversion.symm.trans_le hhead
    have hheadw : m.roll.head.version ≤ w := by
      have : m.roll.head.version ≤ c.version := by
        rcases eq_nil_or_concat dropped with hnil | _
        · rw [hnil, nil_append] at heq
          rw [(List.cons.inj heq).1]
        · have hcmem : c ∈ m.roll.commits := by rw [hcommits]; simp
          rcases mem_cons.1 hcmem with rfl | hcl
          · exact le_rfl
          · exact ((pairwise_cons.1 k.sorted_commits).1 c hcl).le
      exact this.trans hcw
    rw [← k.content w hw hheadw hwv]
    -- the commits dropped are never reached in the search from the tail
    have hold : m.roll.find? w = ((m.compact v).roll.later.reverse.find? (·.version ≤ w)).or (some c) := by
      rw [Roll.find?, hcommits]
      simp [reverse_append, find?_append, hcw]
    have hnew : (m.compact v).roll.find? w =
        ((m.compact v).roll.later.reverse.find? (·.version ≤ w)).or (some (m.compact v).roll.head) := by
      rw [Roll.find?_eq, if_pos hhead]
    rw [Roll.stateAt, Roll.stateAt, hold, hnew]
    cases (m.compact v).roll.later.reverse.find? (·.version ≤ w) with
    | some e => rfl
    | none => exact congrArg some hstate

end Ccf.Kv
