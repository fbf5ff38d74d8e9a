import Ccf.Aft.Membership

/-! # What a log says

The functions of the log alone that the incremental state of a node is compared with: its signatures and its
configurations. Indices count from one.

`WellFormed` collects what is assumed of the entries of a log: retirement is final (a node that was removed is never
added again), and a node is marked retired-committed once, after a signature over a configuration without it. -/

namespace Ccf

open List

variable (log : List Entry)

/-- The entry at index `i`. -/
def entryAt : ℕ → Option Entry
  | 0 => none
  | i + 1 => log[i]?

/-- There is a signature at index `i`. -/
def SignedAt (i : ℕ) : Prop := ∃ e, entryAt log i = some e ∧ e.tx.committable = true

/-- The indices of the signatures. -/
def signatures : List ℕ :=
  (log.zipIdx 1).filterMap fun e => if e.1.tx.committable then some e.2 else none

/-- The members of the service after the log. -/
def membersOf : List NodeId := log.foldl (fun c e => applyDelta e.tx.cfgDelta c) []

/-- The configurations with the entry at `idx` taken into account: a change that changes nothing is left
out. -/
def nextConfigurations (confs : List Configuration) (idx : ℕ) (t : Tx) : List Configuration :=
  if t.cfgDelta = [] then confs
  else if confs = [] ∨ applyDelta t.cfgDelta (latestConfiguration confs) ≠ latestConfiguration confs then
    confs ++ [⟨idx, applyDelta t.cfgDelta (latestConfiguration confs)⟩]
  else confs

/-- The deduplicated reconfiguration entries of a log. -/
def configurationsOf : List Configuration :=
  (log.zipIdx 1).foldl (fun confs e => nextConfigurations confs e.2 e.1.tx) []

/-- The configurations from the last one at or below `commit` onwards. -/
def activeConfigurations (commit : ℕ) (confs : List Configuration) : List Configuration :=
  confs.drop (confs.countP (·.idx ≤ commit) - 1)

structure WellFormed (log : List Entry) : Prop where
  final : ∀ n i j k, i ≤ j → j ≤ k → n ∈ membersOf (log.take i) → n ∉ membersOf (log.take j) →
    n ∉ membersOf (log.take k)
  signed : ∀ q e n, entryAt log q = some e → n ∈ e.tx.retiredCommittedNodes →
    ∃ s i, s < q ∧ SignedAt log s ∧ i ≤ s ∧ n ∈ membersOf (log.take i) ∧ n ∉ membersOf (log.take s)
  once : ∀ q q' e e' n, entryAt log q = some e → entryAt log q' = some e' →
    n ∈ e.tx.retiredCommittedNodes → n ∈ e'.tx.retiredCommittedNodes → q = q'

/-! ### Entries -/

variable {log : List Entry} {i k : ℕ}

theorem entryAt_eq_some {e : Entry} (h : entryAt log i = some e) : 0 < i ∧ i ≤ log.length := by
  cases i with
  | zero => cases h
  | succ i => exact ⟨Nat.succ_pos i, (List.getElem?_eq_some_iff.1 h).1⟩

theorem entryAt_append_left (hi : i ≤ log.length) (l : List Entry) : entryAt (log ++ l) i = entryAt log i := by
  cases i with
  | zero => rfl
  | succ i => exact getElem?_append_left hi

theorem entryAt_concat (log : List Entry) (e : Entry) : entryAt (log ++ [e]) (log.length + 1) = some e := by
  simp [entryAt]

theorem entryAt_take (hi : i ≤ k) : entryAt (log.take k) i = entryAt log i := by
  cases i with
  | zero => rfl
  | succ i => exact getElem?_take_of_lt hi

/-! ### Signatures -/

@[simp] theorem signatures_nil : signatures [] = [] := rfl

variable (log)

theorem signatures_concat (e : Entry) :
    signatures (log ++ [e]) = signatures log ++ if e.tx.committable then [log.length + 1] else [] := by
  unfold signatures
  rw [zipIdx_append, filterMap_append]
  cases h : e.tx.committable <;> simp [h, add_comm]

theorem signatures_take_concat (e : Entry) (hk : k ≤ log.length) :
    signatures ((log ++ [e]).take k) = signatures (log.take k) := by
  rw [take_append_of_le_length hk]

variable {log}

theorem mem_signatures : i ∈ signatures log ↔ SignedAt log i := by
  induction log using List.reverseRecOn with
  | nil =>
    simp only [signatures_nil, not_mem_nil, false_iff]
    rintro ⟨e, he, _⟩
    have := entryAt_eq_some he
    simp at this
    omega
  | append_singleton log e ih =>
    rw [signatures_concat, mem_append, ih]
    constructor
    · rintro (⟨e', he', hs⟩ | hi)
      · exact ⟨e', (entryAt_append_left (entryAt_eq_some he').2 _).trans he', hs⟩
      · split_ifs at hi with hc
        · rw [mem_singleton] at hi
          subst hi
          exact ⟨e, entryAt_concat log e, hc⟩
        · simp at hi
    · rintro ⟨e', he', hs⟩
      have hle := entryAt_eq_some he'
      rw [length_append, length_singleton] at hle
      rcases lt_or_ge log.length i with hlt | hge
      · obtain rfl : i = log.length + 1 := by omega
        rw [entryAt_concat] at he'
        cases he'
        right
        simp [hs]
      · left
        exact ⟨e', (entryAt_append_left hge _).symm.trans he', hs⟩

variable (log)

theorem signatures_sorted : (signatures log).Pairwise (· < ·) := by
  induction log using List.reverseRecOn with
  | nil => exact List.Pairwise.nil
  | append_singleton log e ih =>
    rw [signatures_concat, pairwise_append]
    refine ⟨ih, by split_ifs <;> simp, ?_⟩
    intro x hx y hy
    obtain ⟨e', he', _⟩ := mem_signatures.1 hx
    have := (entryAt_eq_some he').2
    split_ifs at hy
    · rw [mem_singleton] at hy
      omega
    · simp at hy

theorem signatures_take (k : ℕ) : signatures (log.take k) = (signatures log).filter (· ≤ k) := by
  induction log using List.reverseRecOn with
  | nil => simp
  | append_singleton log e ih =>
    rcases lt_or_ge log.length k with hlt | hge
    · rw [take_of_length_le (by simp; omega), filter_eq_self.2]
      intro i hi
      obtain ⟨e', he', _⟩ := mem_signatures.1 hi
      have := (entryAt_eq_some he').2
      rw [length_append, length_singleton] at this
      simpa using this.trans hlt
    · rw [signatures_take_concat log e hge, ih, signatures_concat, filter_append]
      split_ifs
      · rw [filter_cons_of_neg (by simp; omega), filter_nil, append_nil]
      · simp

variable {log}

/-! ### Members and configurations -/

@[simp] theorem membersOf_nil : membersOf [] = [] := rfl

theorem membersOf_concat (log : List Entry) (e : Entry) :
    membersOf (log ++ [e]) = applyDelta e.tx.cfgDelta (membersOf log) := by
  unfold membersOf
  rw [foldl_append]
  rfl

theorem nodup_applyDelta {conf : List NodeId} (delta : List (NodeId × Bool)) (h : conf.Nodup) :
    (applyDelta delta conf).Nodup := by
  unfold applyDelta
  induction delta generalizing conf with
  | nil => exact h
  | cons d delta ih =>
    refine ih ?_
    dsimp only
    split_ifs
    · unfold insertNode
      split_ifs with hmem
      · exact h
      · rw [(perm_orderedInsert _ _ _).nodup_iff]
        exact nodup_cons.2 ⟨hmem, h⟩
    · exact h.erase _

theorem nodup_membersOf (log : List Entry) : (membersOf log).Nodup := by
  induction log using List.reverseRecOn with
  | nil => exact nodup_nil
  | append_singleton log e ih =>
    rw [membersOf_concat]
    exact nodup_applyDelta _ ih

@[simp] theorem configurationsOf_nil : configurationsOf [] = [] := rfl

theorem configurationsOf_concat (log : List Entry) (e : Entry) :
    configurationsOf (log ++ [e]) = nextConfigurations (configurationsOf log) (log.length + 1) e.tx := by
  unfold configurationsOf
  rw [zipIdx_append, foldl_append]
  simp [add_comm]

theorem latestConfiguration_concat (confs : List Configuration) (c : Configuration) :
    latestConfiguration (confs ++ [c]) = c.nodes := by
  simp [latestConfiguration]

variable (log)

theorem latestConfiguration_configurationsOf : latestConfiguration (configurationsOf log) = membersOf log := by
  induction log using List.reverseRecOn with
  | nil => rfl
  | append_singleton log e ih =>
    rw [configurationsOf_concat, membersOf_concat, ← ih]
    unfold nextConfigurations
    split_ifs with hdelta hchange
    · rw [hdelta]
      rfl
    · exact latestConfiguration_concat _ _
    · push Not at hchange
      exact hchange.2.symm

/-- The entry of a configuration is in the log, and its nodes are the members after it. -/
theorem configurationsOf_spec : (configurationsOf log).Pairwise (·.idx < ·.idx) ∧
      ∀ c ∈ configurationsOf log, 0 < c.idx ∧ c.idx ≤ log.length ∧ c.nodes = membersOf (log.take c.idx) := by
  induction log using List.reverseRecOn with
  | nil => simp
  | append_singleton log e ih =>
    obtain ⟨hsorted, hmem⟩ := ih
    have hold : ∀ c ∈ configurationsOf log, 0 < c.idx ∧ c.idx ≤ (log ++ [e]).length ∧
        c.nodes = membersOf ((log ++ [e]).take c.idx) := by
      intro c hc
      obtain ⟨hpos, hle, hnodes⟩ := hmem c hc
      rw [take_append_of_le_length hle, length_append]
      exact ⟨hpos, by omega, hnodes⟩
    rw [configurationsOf_concat]
    unfold nextConfigurations
    split_ifs with hdelta hchange
    · exact ⟨hsorted, hold⟩
    · refine ⟨pairwise_append.2 ⟨hsorted, pairwise_singleton _ _, ?_⟩, ?_⟩
      · intro c hc d hd
        rw [mem_singleton] at hd
        have := (hmem c hc).2.1
        subst hd
        dsimp only
        omega
      · intro c hc
        rcases mem_append.1 hc with hc | hc
        · exact hold c hc
        · rw [mem_singleton] at hc
          subst hc
          refine ⟨by simp, by simp, ?_⟩
          rw [take_of_length_le (by simp), membersOf_concat, latestConfiguration_configurationsOf]
    · exact ⟨hsorted, hold⟩

theorem configurationsOf_sorted : (configurationsOf log).Pairwise (·.idx < ·.idx) :=
  (configurationsOf_spec log).1

theorem configurationsOf_take (k : ℕ) :
    configurationsOf (log.take k) = (configurationsOf log).filter (·.idx ≤ k) := by
  induction log using List.reverseRecOn with
  | nil => simp
  | append_singleton log e ih =>
    rcases lt_or_ge log.length k with hlt | hge
    · rw [take_of_length_le (by simp; omega), filter_eq_self.2]
      intro c hc
      have := ((configurationsOf_spec _).2 c hc).2.1
      rw [length_append, length_singleton] at this
      simp only [decide_eq_true_eq]
      omega
    · rw [take_append_of_le_length hge, ih, configurationsOf_concat]
      unfold nextConfigurations
      split_ifs
      · rfl
      · rw [filter_append, filter_cons_of_neg (by simp; omega), filter_nil, append_nil]
      · rfl

variable {log}

/-! ### The configurations that are still needed -/

namespace Aft

theorem popConfigurations_cons_cons (k : ℕ) (c d : Configuration) (l : List Configuration) :
    popConfigurations k (c :: d :: l) = if k < d.idx then c :: d :: l else popConfigurations k (d :: l) := rfl

theorem popConfigurations_suffix (k : ℕ) : ∀ l, popConfigurations k l <:+ l
  | [] => suffix_rfl
  | [_] => suffix_rfl
  | c :: d :: l => by
      rw [popConfigurations_cons_cons]
      split_ifs
      · exact suffix_rfl
      · exact (popConfigurations_suffix k (d :: l)).trans (suffix_cons c _)

variable {j m k' : ℕ} {l : List Configuration} {c x : Configuration}

theorem popConfigurations_pop (hk : k ≤ k') :
    ∀ l, popConfigurations k' (popConfigurations k l) = popConfigurations k' l
  | [] => rfl
  | [_] => rfl
  | c :: d :: l => by
      rw [popConfigurations_cons_cons]
      split_ifs with h
      · rfl
      · rw [popConfigurations_pop hk (d :: l), popConfigurations_cons_cons k', if_neg (by omega)]

theorem popConfigurations_concat (hx : k < x.idx) : ∀ l, popConfigurations k (l ++ [x]) = popConfigurations k l ++ [x]
  | [] => rfl
  | [c] => by
      rw [cons_append, nil_append, popConfigurations_cons_cons, if_pos hx]
      rfl
  | c :: d :: l => by
      rw [cons_append, cons_append, popConfigurations_cons_cons, popConfigurations_cons_cons]
      split_ifs
      · rfl
      · rw [← cons_append, popConfigurations_concat hx (d :: l)]

theorem latestConfiguration_pop (k : ℕ) : ∀ l, latestConfiguration (popConfigurations k l) = latestConfiguration l
  | [] => rfl
  | [_] => rfl
  | c :: d :: l => by
      rw [popConfigurations_cons_cons]
      split_ifs
      · rfl
      · rw [latestConfiguration_pop k (d :: l)]
        simp [latestConfiguration]

theorem popConfigurations_eq_nil : ∀ {l : List Configuration}, popConfigurations k l = [] ↔ l = []
  | [] => Iff.rfl
  | [_] => Iff.rfl
  | c :: d :: l => by
      rw [popConfigurations_cons_cons]
      split_ifs
      · rfl
      · rw [popConfigurations_eq_nil]
        simp

theorem idx_le_of_mem (h : (c :: l).Pairwise (·.idx < ·.idx)) (hx : x ∈ c :: l) : c.idx ≤ x.idx := by
  rcases mem_cons.1 hx with rfl | hx
  · exact le_rfl
  · exact ((pairwise_cons.1 h).1 x hx).le

/-- What is still needed is the last configuration at or below `k` and all those above it. -/
theorem popConfigurations_eq : ∀ {l : List Configuration}, l.Pairwise (·.idx < ·.idx) →
    popConfigurations k l = (l.filter (·.idx ≤ k)).getLast?.toList ++ l.filter (k < ·.idx)
  | [], _ => rfl
  | [c], _ => by
      rcases lt_or_ge k c.idx with hc | hc
      · simp [popConfigurations, hc, not_le.2 hc]
      · simp [popConfigurations, hc, not_lt.2 hc]
  | c :: d :: l, h => by
      have hl := (pairwise_cons.1 h).2
      have hcd := (pairwise_cons.1 h).1 d mem_cons_self
      rw [popConfigurations_cons_cons]
      split_ifs with hd
      · have habove : ∀ x ∈ d :: l, k < x.idx := fun x hx => hd.trans_le (idx_le_of_mem hl hx)
        have hnone : (d :: l).filter (·.idx ≤ k) = [] :=
          filter_eq_nil_iff.2 fun x hx => by simpa using habove x hx
        have hall : (d :: l).filter (k < ·.idx) = d :: l :=
          filter_eq_self.2 fun x hx => by simpa using habove x hx
        rcases lt_or_ge k c.idx with hc | hc
        · rw [filter_cons_of_neg (a := c) (by simpa using hc), filter_cons_of_pos (a := c) (by simpa using hc),
            hnone, hall]
          rfl
        · rw [filter_cons_of_pos (a := c) (by simpa using hc), filter_cons_of_neg (a := c) (by simpa using hc),
            hnone, hall]
          rfl
      · rw [popConfigurations_eq hl, filter_cons_of_pos (a := c) (by simp; omega),
          filter_cons_of_pos (p := (·.idx ≤ k)) (a := d) (by simp; omega), getLast?_cons_cons,
          filter_cons_of_neg (a := c) (by simp; omega)]

/-- Only the first of the configurations that are still needed may be committed. -/
theorem lt_of_mem_tail_pop (h : l.Pairwise (·.idx < ·.idx)) : ∀ c ∈ (popConfigurations k l).tail, k < c.idx := by
  intro c hc
  rw [popConfigurations_eq h] at hc
  have hmem : c ∈ l.filter (k < ·.idx) := by
    cases hlast : (l.filter (·.idx ≤ k)).getLast? with
    | none => exact mem_of_mem_tail (by simpa [hlast] using hc)
    | some d => simpa [hlast] using hc
  simpa using (mem_filter.1 hmem).2

theorem popConfigurations_filter (hk : k ≤ m) (h : l.Pairwise (·.idx < ·.idx)) :
    popConfigurations k (l.filter (·.idx ≤ m)) = (popConfigurations k l).filter (·.idx ≤ m) := by
  have hlow : (l.filter (·.idx ≤ m)).filter (·.idx ≤ k) = l.filter (·.idx ≤ k) := by
    rw [filter_filter]
    refine filter_congr fun c _ => ?_
    simp only [Bool.and_eq_left_iff_imp, decide_eq_true_eq]
    omega
  rw [popConfigurations_eq (h.sublist filter_sublist), popConfigurations_eq h, hlow, filter_append,
    filter_comm]
  congr 1
  refine (filter_eq_self.2 fun c hc => ?_).symm
  have := (mem_filter.1 (mem_of_getLast? (Option.mem_toList.1 hc))).2
  simp only [decide_eq_true_eq] at this ⊢
  omega

/-- A configuration still needed at `k` holds the members of the service at some point after `k`. -/
theorem nodes_of_mem_pop (hc : c ∈ popConfigurations k (configurationsOf log)) :
    ∃ j, k ≤ j ∧ c.nodes = membersOf (log.take j) := by
  obtain ⟨hsorted, hspec⟩ := configurationsOf_spec log
  obtain ⟨-, -, hnodes⟩ := hspec c ((popConfigurations_suffix k _).subset hc)
  rcases lt_or_ge k c.idx with hlt | hge
  · exact ⟨c.idx, hlt.le, hnodes⟩
  · -- `c` is the last configuration at or below `k`
    refine ⟨k, le_rfl, ?_⟩
    rw [← latestConfiguration_configurationsOf, configurationsOf_take, latestConfiguration]
    rw [popConfigurations_eq hsorted, mem_append, Option.mem_toList] at hc
    rw [hc.resolve_right fun hc => not_lt.2 hge (by simpa using (mem_filter.1 hc).2)]

theorem mem_pop_of_getLast? (hk : k ≤ j) : ∀ {l : List Configuration},
    l.Pairwise (·.idx < ·.idx) → (l.filter (·.idx ≤ j)).getLast? = some c → c ∈ popConfigurations k l
  | [], _, h => by simp at h
  | [x], _, h => mem_of_mem_filter (mem_of_getLast? h)
  | x :: y :: l, hl, h => by
      rw [pairwise_cons] at hl
      rw [popConfigurations_cons_cons]
      split_ifs with hy
      · exact mem_of_mem_filter (mem_of_getLast? h)
      · refine mem_pop_of_getLast? hk hl.2 ?_
        have hx := hl.1 y mem_cons_self
        rw [filter_cons_of_pos (by simp; omega), filter_cons_of_pos (by simp; omega),
          getLast?_cons_cons] at h
        rw [filter_cons_of_pos (by simp; omega)]
        exact h

/-- The members of the service at any point from `k` on are those of a configuration still needed at `k`. -/
theorem exists_mem_pop (hk : k ≤ j) (hne : configurationsOf (log.take k) ≠ []) :
    ∃ c ∈ popConfigurations k (configurationsOf log), c.nodes = membersOf (log.take j) := by
  have hne' : configurationsOf (log.take j) ≠ [] := by
    obtain ⟨c, hc⟩ := exists_mem_of_ne_nil _ hne
    rw [configurationsOf_take, mem_filter] at hc
    rw [configurationsOf_take]
    refine ne_nil_of_mem (mem_filter.2 ⟨hc.1, ?_⟩)
    have := hc.2
    simp only [decide_eq_true_eq] at this ⊢
    omega
  obtain ⟨c, hc⟩ := Option.ne_none_iff_exists'.1 (mt getLast?_eq_none_iff.1 hne')
  refine ⟨c, mem_pop_of_getLast? hk (configurationsOf_sorted log) (by rw [← configurationsOf_take]; exact hc), ?_⟩
  rw [← latestConfiguration_configurationsOf, latestConfiguration, hc]

theorem popConfigurations_eq_active : ∀ {l : List Configuration}, l.Pairwise (·.idx < ·.idx) →
    popConfigurations k l = activeConfigurations k l
  | [], _ => rfl
  | [c], _ => by
      unfold activeConfigurations
      by_cases hc : c.idx ≤ k <;> simp [popConfigurations, hc]
  | c :: d :: l, h => by
      rw [pairwise_cons] at h
      have hcd := h.1 d mem_cons_self
      rw [popConfigurations_cons_cons]
      split_ifs with hd
      · have hzero : (d :: l).countP (·.idx ≤ k) = 0 := by
          rw [countP_eq_zero]
          intro x hx
          have := idx_le_of_mem h.2 hx
          simp only [decide_eq_true_eq]
          omega
        unfold activeConfigurations
        rw [countP_cons, hzero]
        split_ifs <;> rfl
      · have hpos : 0 < (d :: l).countP (·.idx ≤ k) :=
          countP_pos_iff.2 ⟨d, mem_cons_self, by simpa using hd⟩
        rw [popConfigurations_eq_active h.2]
        unfold activeConfigurations
        rw [countP_cons_of_pos (a := c) (l := d :: l) (by simp; omega), Nat.add_sub_cancel]
        obtain ⟨m, hm⟩ := Nat.exists_eq_succ_of_ne_zero hpos.ne'
        rw [hm]
        rfl

end Aft

/-! ### Well formed logs -/

theorem WellFormed.take (hwf : WellFormed log) (k : ℕ) : WellFormed (log.take k) where
  final n i j l hij hjl hin hout := by
    rw [take_take] at hin hout ⊢
    exact hwf.final n _ _ _ (by omega) (by omega) hin hout
  signed q e n he hn := by
    have hq : q ≤ k := (entryAt_eq_some he).2.trans (length_take_le _ _)
    rw [entryAt_take hq] at he
    obtain ⟨s, i, hs, ⟨e', he', hsig⟩, his, hin, hout⟩ := hwf.signed q e n he hn
    refine ⟨s, i, hs, ⟨e', ?_, hsig⟩, his, ?_, ?_⟩
    · rw [entryAt_take (by omega)]
      exact he'
    · rw [take_take, min_eq_left (by omega)]
      exact hin
    · rw [take_take, min_eq_left (by omega)]
      exact hout
  once q q' e e' n he he' hn hn' := by
    have hq : q ≤ k := (entryAt_eq_some he).2.trans (length_take_le _ _)
    have hq' : q' ≤ k := (entryAt_eq_some he').2.trans (length_take_le _ _)
    rw [entryAt_take hq] at he
    rw [entryAt_take hq'] at he'
    exact hwf.once q q' e e' n he he' hn hn'

theorem WellFormed.of_isPrefix {log' : List Entry} (hwf : WellFormed log') (h : log <+: log') : WellFormed log := by
  rw [prefix_iff_eq_take.1 h]
  exact hwf.take _

instance (log : List Entry) (i : ℕ) : Decidable (SignedAt log i) :=
  decidable_of_iff ((entryAt log i).any (·.tx.committable) = true) (by simp [SignedAt, Option.any_eq_true])

/-- No member at or before `j` that is not a member at `j` is one at `k`. -/
def FinalBetween (log : List Entry) (j k : ℕ) : Prop :=
  ∀ i ≤ j, ∀ n ∈ membersOf (log.take i), n ∉ membersOf (log.take j) → n ∉ membersOf (log.take k)

/-- A signature before `q` covers the removal of `n`. -/
def RemovalSigned (log : List Entry) (n : NodeId) (q : ℕ) : Prop :=
  ∃ s < q, SignedAt log s ∧ ∃ i ≤ s, n ∈ membersOf (log.take i) ∧ n ∉ membersOf (log.take s)

/-- The nodes marked at index `q`. -/
def marks (log : List Entry) (q : ℕ) : List NodeId :=
  match entryAt log q with
  | none => []
  | some e => e.tx.retiredCommittedNodes

instance (log : List Entry) (j k : ℕ) : Decidable (FinalBetween log j k) :=
  inferInstanceAs (Decidable (∀ i ≤ j, ∀ n ∈ membersOf (log.take i), _))

instance (log : List Entry) (n : NodeId) (q : ℕ) : Decidable (RemovalSigned log n q) :=
  inferInstanceAs (Decidable (∃ s < q, _))

/-- The conditions of `WellFormed`, checked at the indices of the log. -/
abbrev WellFormed.Check (log : List Entry) : Prop :=
  (∀ k ≤ log.length, ∀ j ≤ k, FinalBetween log j k) ∧
    (∀ q ≤ log.length, ∀ n ∈ marks log q, RemovalSigned log n q) ∧
    ∀ q ≤ log.length, ∀ q' ≤ log.length, ∀ n ∈ marks log q, n ∈ marks log q' → q = q'

theorem mem_marks {q : ℕ} {n : NodeId} :
    n ∈ marks log q ↔ ∃ e, entryAt log q = some e ∧ n ∈ e.tx.retiredCommittedNodes := by
  unfold marks
  split
  · simp [*]
  · simp [*]

theorem WellFormed.check_iff : Check log ↔ WellFormed log := by
  constructor
  · rintro ⟨hfinal, hsigned, honce⟩
    refine ⟨fun n i j k hij hjk hin hout => ?_, fun q e n he hn => ?_, fun q q' e e' n he he' hn hn' => ?_⟩
    · rw [take_eq_take_min] at hin hout ⊢
      exact hfinal _ (Nat.min_le_right _ _) _ (by omega) _ (by omega) n hin hout
    · obtain ⟨s, hs, hsign, i, hi, hin, hout⟩ := hsigned q (entryAt_eq_some he).2 n (mem_marks.2 ⟨e, he, hn⟩)
      exact ⟨s, i, hs, hsign, hi, hin, hout⟩
    · exact honce q (entryAt_eq_some he).2 q' (entryAt_eq_some he').2 n (mem_marks.2 ⟨e, he, hn⟩)
        (mem_marks.2 ⟨e', he', hn'⟩)
  · intro h
    refine ⟨fun k _ j hj i hi n hin hout => h.final n i j k hi hj hin hout, fun q _ n hn => ?_,
      fun q _ q' _ n hn hn' => ?_⟩
    · obtain ⟨e, he, hn⟩ := mem_marks.1 hn
      obtain ⟨s, i, hs, hsigned, hi, hin, hout⟩ := h.signed q e n he hn
      exact ⟨s, hs, hsigned, i, hi, hin, hout⟩
    · obtain ⟨e, he, hn⟩ := mem_marks.1 hn
      obtain ⟨e', he', hn'⟩ := mem_marks.1 hn'
      exact h.once q q' e e' n he he' hn hn'

instance (log : List Entry) : Decidable (WellFormed log) := decidable_of_iff _ WellFormed.check_iff

end Ccf
