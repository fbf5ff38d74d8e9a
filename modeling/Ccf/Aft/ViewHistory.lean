import Mathlib.Data.List.GetD
import Mathlib.Tactic.Linarith
import Ccf.Lib.SortedList

/-! # The view history of a node

`ViewHistory` is the compressed record a node keeps of the view of every entry of its log: entry `i` of `views` is the
first index of view `i + 1`. Only `update` adds to it, and throws rather than let an index move backwards, so the list
is sorted and the binary searches of the source are counts.

`Faithful h vs` says that `h` is the record of a log whose entries carry the views `vs`. It is kept by extending the
log (`Faithful.update`) and by cutting it (`Faithful.rollback`). -/

namespace Ccf

open List

/-- The first index of every view known to a node, in order. -/
structure ViewHistory where
  views : List ℕ
  sorted : views.Pairwise (· ≤ ·)
deriving DecidableEq, Repr

namespace ViewHistory

/-- `ViewHistory::InvalidView`, the same value as `VIEW_UNKNOWN`. -/
def invalidView : ℕ := 0

def empty : ViewHistory := ⟨[], List.Pairwise.nil⟩

/-- The views that start at or before `idx`: the range below the source's `upper_bound`. -/
def getHistoryUntil (h : ViewHistory) (idx : ℕ) : List ℕ := h.views.takeWhile (· ≤ idx)

variable {idx : ℕ}

theorem le_of_getLast? {l : List ℕ} (hl : l.Pairwise (· ≤ ·))
    (hb : ∀ s ∈ l.getLast?, s ≤ idx) : ∀ s ∈ l, s ≤ idx := by
  intro s hs
  rcases eq_nil_or_concat l with rfl | ⟨init, last, rfl⟩
  · simp at hs
  · have hlast : last ≤ idx := hb last (by simp)
    rw [concat_eq_append, mem_append, mem_singleton] at hs
    rcases hs with hs | rfl
    · rw [concat_eq_append, pairwise_append] at hl
      exact (hl.2.2 s hs last (by simp)).trans hlast
    · exact hlast

/-- `update` appends `idx` until `view` is the latest one; `none` where the source throws. -/
def update (h : ViewHistory) (idx : ℕ) (view : ℕ) : Option ViewHistory :=
  if hb : ∀ s ∈ h.views.getLast?, s ≤ idx then
    some ⟨h.views ++ List.replicate (view - h.views.length) idx, by
      refine pairwise_append.2 ⟨h.sorted, pairwise_replicate.2 (Or.inr le_rfl), ?_⟩
      intro a ha b hbm
      rw [eq_of_mem_replicate hbm]
      exact le_of_getLast? h.sorted hb a ha⟩
  else none

def viewAt (h : ViewHistory) (idx : ℕ) : ℕ := (h.getHistoryUntil idx).length

def startOfView (h : ViewHistory) (view : ℕ) : ℕ :=
  if view > h.views.length ∨ view = invalidView then 0
  else
    let tentative := h.views.getD (view - 1) 0
    if view + 1 ≤ h.views.length ∧ h.views.getD view 0 = tentative then 0 else tentative

def endOfView (h : ViewHistory) (view : ℕ) : ℕ :=
  if h.startOfView view = 0 then 0
  else if view ≥ h.views.length ∨ view = invalidView then 0
  else h.views.getD view 0 - 1

def rollback (h : ViewHistory) (idx : ℕ) : ViewHistory :=
  ⟨h.getHistoryUntil idx, h.sorted.sublist (takeWhile_sublist _)⟩

/-! ### The record of a log -/

/-- The view of entry `i` of a log whose entries carry the views `vs` (indices count from one). -/
def viewOf (vs : List ℕ) : ℕ → ℕ
  | 0 => invalidView
  | i + 1 => vs.getD i invalidView

/-- `h` is the record of a log whose entries carry the views `vs`. -/
structure Faithful (h : ViewHistory) (vs : List ℕ) : Prop where
  viewAt_eq : ∀ i ≤ vs.length, h.viewAt i = viewOf vs i
  length_eq : h.views.length = viewOf vs vs.length

@[simp] theorem viewOf_zero (vs : List ℕ) : viewOf vs 0 = 0 := rfl

@[simp] theorem viewOf_succ (vs : List ℕ) (i : ℕ) : viewOf vs (i + 1) = vs.getD i 0 := rfl

variable {i k t n : ℕ} {ws : List ℕ}

theorem viewOf_append_left {vs : List ℕ} (hi : i ≤ vs.length) : viewOf (vs ++ ws) i = viewOf vs i := by
  cases i with
  | zero => rfl
  | succ i => rw [viewOf_succ, viewOf_succ, getD_append _ _ _ _ hi]

theorem viewOf_append_right {vs : List ℕ} (hi : 0 < i) : viewOf (vs ++ ws) (vs.length + i) = viewOf ws i := by
  obtain ⟨i, rfl⟩ : ∃ j, i = j + 1 := ⟨i - 1, by omega⟩
  rw [← add_assoc, viewOf_succ, viewOf_succ, getD_append_right _ _ _ _ (Nat.le_add_right _ _),
    Nat.add_sub_cancel_left]

theorem viewOf_replicate (hi : 0 < i) (hn : i ≤ n) : viewOf (List.replicate n t) i = t := by
  obtain ⟨i, rfl⟩ : ∃ j, i = j + 1 := ⟨i - 1, by omega⟩
  rw [viewOf_succ, getD_eq_getElem _ _ (by rw [length_replicate]; omega), getElem_replicate]

theorem viewOf_take {vs : List ℕ} (hi : i ≤ k) : viewOf (vs.take k) i = viewOf vs i := by
  cases i with
  | zero => rfl
  | succ i => simp only [viewOf_succ, getD_eq_getElem?_getD, getElem?_take_of_lt hi]

variable {h h' : ViewHistory} {j view s : ℕ}

theorem getHistoryUntil_eq_filter (idx : ℕ) : h.getHistoryUntil idx = h.views.filter (· ≤ idx) := by
  refine takeWhile_eq_filter (h.sorted.imp ?_)
  intro s t hst ht
  simp only [decide_eq_true_eq] at ht ⊢
  exact hst.trans ht

theorem viewAt_eq_countP (idx : ℕ) : h.viewAt idx = h.views.countP (· ≤ idx) := by
  rw [viewAt, getHistoryUntil_eq_filter, countP_eq_length_filter]

theorem viewAt_le_length (idx : ℕ) : h.viewAt idx ≤ h.views.length := by
  rw [viewAt_eq_countP]
  exact countP_le_length

theorem viewAt_mono (hij : i ≤ j) : h.viewAt i ≤ h.viewAt j := by
  simp only [viewAt_eq_countP]
  refine countP_mono_left fun s _ hs => ?_
  simp only [decide_eq_true_eq] at hs ⊢
  exact hs.trans hij

theorem update_eq_some (hu : h.update idx view = some h') :
    (∀ s ∈ h.views, s ≤ idx) ∧ h'.views = h.views ++ List.replicate (view - h.views.length) idx := by
  unfold update at hu
  split_ifs at hu with hb
  cases hu
  exact ⟨le_of_getLast? h.sorted hb, rfl⟩

theorem exists_update (hb : ∀ s ∈ h.views, s ≤ idx) (view : ℕ) : ∃ h', h.update idx view = some h' := by
  have hlast : ∀ s ∈ h.views.getLast?, s ≤ idx := fun s hs => hb s (mem_of_getLast? hs)
  unfold update
  rw [dif_pos hlast]
  exact ⟨_, rfl⟩

theorem update_eq_self (hb : ∀ s ∈ h.views, s ≤ idx)
    (hv : view ≤ h.views.length) : h.update idx view = some h := by
  obtain ⟨h', hu⟩ := exists_update hb view
  have hviews := (update_eq_some hu).2
  rw [Nat.sub_eq_zero_of_le hv, replicate_zero, append_nil] at hviews
  rw [hu]
  cases h
  cases h'
  subst hviews
  rfl

/-- The first index of view `j + 1` is at or below `idx` exactly when that view has started by then. -/
theorem getElem_le_iff (hj : j < h.views.length) (idx : ℕ) : h.views[j] ≤ idx ↔ j < h.viewAt idx := by
  obtain ⟨views, sorted⟩ := h
  simp only [viewAt, getHistoryUntil] at hj ⊢
  induction views generalizing j with
  | nil => simp at hj
  | cons s rest ih =>
    rw [pairwise_cons] at sorted
    by_cases hs : s ≤ idx
    · rw [takeWhile_cons_of_pos (by simpa using hs), length_cons]
      cases j with
      | zero => simp [hs]
      | succ j =>
        have hj' : j < rest.length := by simpa using hj
        simpa using ih sorted.2 hj'
    · rw [takeWhile_cons_of_neg (by simpa using hs)]
      have : s ≤ (s :: rest)[j] := by
        cases j with
        | zero => simp
        | succ j => exact sorted.1 _ (by simp)
      simp only [length_nil, Nat.not_lt_zero, iff_false, not_le]
      omega

namespace Faithful

variable {vs : List ℕ}

theorem nil : Faithful empty [] where
  viewAt_eq i hi := by
    rw [length_nil, Nat.le_zero] at hi
    subst hi
    rfl
  length_eq := rfl

variable (hf : Faithful h vs) {v m : ℕ}
include hf

theorem le_length : ∀ s ∈ h.views, s ≤ vs.length := by
  have hcount : h.views.countP (· ≤ vs.length) = h.views.length := by
    rw [← viewAt_eq_countP, hf.viewAt_eq _ le_rfl, hf.length_eq]
  intro s hs
  simpa using countP_eq_length.1 hcount s hs

theorem viewAt_of_length_le (hi : vs.length ≤ i) : h.viewAt i = h.views.length := by
  rw [viewAt_eq_countP, countP_eq_length]
  intro s hs
  have := hf.le_length s hs
  simp only [decide_eq_true_eq]
  omega

/-- Histories of logs that agree up to `v` agree up to `v`. -/
theorem getHistoryUntil_eq {vs' : List ℕ} (hf' : Faithful h' vs')
    (hv : v ≤ vs.length) (hv' : v ≤ vs'.length) (heq : vs.take v = vs'.take v) :
    h.getHistoryUntil v = h'.getHistoryUntil v := by
  have hviewAt : ∀ i ≤ v, h.viewAt i = h'.viewAt i := by
    intro i hi
    rw [hf.viewAt_eq i (hi.trans hv), hf'.viewAt_eq i (hi.trans hv'), ← viewOf_take hi, heq, viewOf_take hi]
  have hle : ∀ {h h' : ViewHistory}, (∀ i ≤ v, h.viewAt i = h'.viewAt i) → ∀ (j : ℕ) (hj : j < h.views.length)
      (hj' : j < h'.views.length), j < h'.viewAt v → h.views[j] ≤ h'.views[j] := by
    intro h h' hviews j hj hj' hlt
    have hbound := (h'.getElem_le_iff hj' v).2 hlt
    rw [h.getElem_le_iff hj, hviews _ hbound]
    exact (h'.getElem_le_iff hj' _).1 le_rfl
  have htake : ∀ h : ViewHistory, h.getHistoryUntil v = h.views.take (h.viewAt v) := by
    intro h
    exact prefix_iff_eq_take.1 ( takeWhile_prefix _)
  rw [htake h, htake h', hviewAt v le_rfl]
  have hlen := h.viewAt_le_length v
  have hlen' := h'.viewAt_le_length v
  rw [hviewAt v le_rfl] at hlen
  refine ext_getElem (by rw [length_take, length_take]; omega) fun j hj hj' => ?_
  rw [length_take] at hj hj'
  rw [getElem_take, getElem_take]
  exact le_antisymm (hle hviewAt j (by omega) (by omega) (by omega))
    (hle (fun i hi => (hviewAt i hi).symm) j (by omega) (by omega) (by rw [hviewAt v le_rfl]; omega))

/-- Extending a log by entries of one view that is not older: the record is brought up to date by a
single `update` at the first new index. -/
theorem update (ht : viewOf vs vs.length ≤ t) (hm : 0 < m) :
    ∃ h', h.update (vs.length + 1) t = some h' ∧ Faithful h' (vs ++ List.replicate m t) := by
  have hle := hf.le_length
  obtain ⟨h', hu⟩ := exists_update (fun s hs => (hle s hs).trans (Nat.le_succ vs.length)) t
  have hviews := (update_eq_some hu).2
  have hlen : h.views.length ≤ t := hf.length_eq ▸ ht
  refine ⟨h', hu, ?_, ?_⟩
  · intro i hi
    rw [viewAt_eq_countP, hviews, countP_append, ← viewAt_eq_countP, countP_replicate]
    rcases lt_or_ge vs.length i with hlt | hge
    · obtain ⟨k, rfl⟩ := Nat.exists_eq_add_of_lt hlt
      rw [hf.viewAt_of_length_le (by omega), if_pos (by simp only [decide_eq_true_eq]; omega), add_assoc,
        viewOf_append_right (by omega), viewOf_replicate (by omega)]
      · omega
      · rw [length_append, length_replicate] at hi
        omega
    · rw [if_neg (by simp only [decide_eq_true_eq]; omega), add_zero, viewOf_append_left hge,
        hf.viewAt_eq i hge]
  · rw [hviews, length_append, length_replicate, length_append, length_replicate,
      viewOf_append_right hm, viewOf_replicate hm le_rfl]
    omega

theorem extend (ht : viewOf vs vs.length = t) (m : ℕ) : Faithful h (vs ++ List.replicate m t) := by
  rcases Nat.eq_zero_or_pos m with rfl | hm
  · simpa using hf
  · obtain ⟨h', hu, hf'⟩ := hf.update ht.le hm
    have hself := update_eq_self (fun s hs => (hf.le_length s hs).trans (Nat.le_succ vs.length))
      (by rw [hf.length_eq, ht] : t ≤ h.views.length)
    rw [hu, Option.some.injEq] at hself
    exact hself ▸ hf'

theorem update_known (hidx : idx ≤ vs.length)
    (hlast : viewOf vs idx = viewOf vs vs.length) (ht : t ≤ viewOf vs vs.length) : h.update idx t = some h := by
  refine update_eq_self (fun s hs => ?_) (by rw [hf.length_eq]; exact ht)
  have hcount : h.views.countP (· ≤ idx) = h.views.length := by
    rw [← viewAt_eq_countP, hf.viewAt_eq idx hidx, hlast, hf.length_eq]
  simpa using countP_eq_length.1 hcount s hs

theorem rollback (hk : k ≤ vs.length) : Faithful (h.rollback k) (vs.take k) := by
  have hviews : (h.rollback k).views = h.views.filter (· ≤ k) := h.getHistoryUntil_eq_filter k
  refine ⟨?_, ?_⟩
  · intro i hi
    rw [length_take, min_eq_left hk] at hi
    rw [viewOf_take hi, ← hf.viewAt_eq i (hi.trans hk), viewAt_eq_countP, viewAt_eq_countP, hviews,
      countP_filter]
    refine countP_congr fun s _ => ?_
    simp only [Bool.and_eq_true, decide_eq_true_eq]
    omega
  · rw [length_take, min_eq_left hk, viewOf_take le_rfl, ← hf.viewAt_eq k hk]
    rfl

theorem rollback_length : h.rollback vs.length = h := by
  cases h with
  | mk views sorted =>
    have hle := hf.le_length
    simp only [ViewHistory.rollback, getHistoryUntil, mk.injEq]
    exact takeWhile_eq_self_iff.2 fun s hs => by simpa using hle s hs

omit hf

end Faithful

/-- Where the view of an index is known to end, the end is at or after that index and every entry in
between is of the same view; otherwise the view is the latest one. -/
theorem endOfView_viewAt (h0 : h.viewAt 0 = 0) (hs : 0 < h.viewAt s) :
    (h.endOfView (h.viewAt s) = 0 ∧ h.viewAt s = h.views.length) ∨
      (s ≤ h.endOfView (h.viewAt s) ∧ h.endOfView (h.viewAt s) + 1 ∈ h.views ∧
        ∀ i, s ≤ i → i ≤ h.endOfView (h.viewAt s) → h.viewAt i = h.viewAt s) := by
  generalize hv : h.viewAt s = v at hs
  have hvlen : v ≤ h.views.length := hv ▸ h.viewAt_le_length s
  have hprev : v - 1 < h.views.length := by omega
  have hstart : h.views[v - 1] ≠ 0 := by
    intro hz
    have := (h.getElem_le_iff hprev 0).1 (by omega)
    omega
  rcases lt_or_ge v h.views.length with hlt | hge
  · right
    have hnext : s < h.views[v] := by
      by_contra hcon
      have := (h.getElem_le_iff hlt s).1 (by omega)
      omega
    have hle : h.views[v - 1] ≤ s := (h.getElem_le_iff hprev s).2 (by omega)
    have hend : h.endOfView v = h.views[v] - 1 := by
      simp only [endOfView, startOfView, invalidView, getD_eq_getElem _ _ hlt, getD_eq_getElem _ _ hprev]
      rw [if_neg (by omega : ¬(v > h.views.length ∨ v = 0)), if_neg (by omega : ¬(v + 1 ≤ _ ∧ _)),
        if_neg hstart, if_neg (by omega)]
    rw [hend]
    refine ⟨by omega, ?_, ?_⟩
    · rw [Nat.sub_add_cancel (by omega)]
      exact getElem_mem hlt
    · intro i hi hi'
      refine le_antisymm ?_ (hv ▸ h.viewAt_mono hi)
      by_contra hcon
      have := (h.getElem_le_iff hlt i).2 (by omega)
      omega
  · left
    refine ⟨?_, by omega⟩
    unfold endOfView
    split_ifs with h1 h2
    · rfl
    · rfl
    · omega

end ViewHistory
end Ccf
