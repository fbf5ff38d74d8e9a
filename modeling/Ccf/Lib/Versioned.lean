import Mathlib.Data.List.Basic
import Mathlib.Order.Nat

/-! # Versioned tables and histories of write sets

A `Table` maps keys to values tagged with the version that wrote them; a `Delta` maps keys to a new value or, by
`none`, to a removal. A `History` is what a versioned store of many named tables stands for: the tables at a base
version and the write sets of the versions after it. `History.tableAt` replays them up to a version, `push` adds a
version, `skip` adds empty ones, `truncate` forgets the latest ones and `resume` the earliest ones. -/

namespace Ccf.Versioned

open List Std

variable {ι κ α : Type*} {k : κ}

/-- A value with the version of the write that put it there. -/
structure Tagged (α : Type*) where
  version : ℕ
  value : α
deriving DecidableEq, Repr

section Tables

variable [Ord κ]

abbrev Table (κ α : Type*) [Ord κ] := ExtTreeMap κ (Tagged α)

abbrev Delta (κ α : Type*) [Ord κ] := ExtTreeMap κ (Option α)

variable [TransOrd κ] [LawfulEqOrd κ]

/-- One write of a delta: a put tagged with `v`, or a removal. -/
def write (v : ℕ) (t : Table κ α) (p : κ × Option α) : Table κ α :=
  match p.2 with
  | some x => t.insert p.1 ⟨v, x⟩
  | none => t.erase p.1

def Delta.apply (v : ℕ) (d : Delta κ α) (t : Table κ α) : Table κ α := d.toList.foldl (write v) t

variable (v : ℕ) {x : Option α}

theorem getElem?_write [DecidableEq κ] (t : Table κ α) (p : κ × Option α) (k : κ) :
    (write v t p)[k]? = if p.1 = k then p.2.map (Tagged.mk v) else t[k]? := by
  unfold write
  cases p.2 with
  | none => simp [ExtTreeMap.getElem?_erase]
  | some x => simp [ExtTreeMap.getElem?_insert]

theorem getElem?_foldl_write_of_not_mem (l : List (κ × Option α)) (t : Table κ α)
    (hk : ∀ x, (k, x) ∉ l) : (l.foldl (write v) t)[k]? = t[k]? := by
  classical
  induction l generalizing t with
  | nil => rfl
  | cons p l ih =>
    have hp : p.1 ≠ k := fun h => hk p.2 (h ▸ mem_cons_self)
    rw [foldl_cons, ih _ fun x hx => hk x (mem_cons_of_mem _ hx), getElem?_write, if_neg hp]

theorem getElem?_foldl_write_of_mem (l : List (κ × Option α)) (t : Table κ α)
    (hl : l.Pairwise fun p q => ¬compare p.1 q.1 = .eq) (hk : (k, x) ∈ l) :
    (l.foldl (write v) t)[k]? = x.map (Tagged.mk v) := by
  classical
  induction l generalizing t with
  | nil => cases hk
  | cons p l ih =>
    obtain ⟨hp, hl⟩ := pairwise_cons.1 hl
    rw [foldl_cons]
    rcases mem_cons.1 hk with rfl | hk
    · have hnot : ∀ y, (k, y) ∉ l := fun y hy => hp (k, y) hy compare_self
      rw [getElem?_foldl_write_of_not_mem v l _ hnot, getElem?_write, if_pos rfl]
    · exact ih _ hl hk

/-- A delta puts, removes or leaves each key. -/
theorem getElem?_apply (d : Delta κ α) (t : Table κ α) (k : κ) : (d.apply v t)[k]? = match d[k]? with
      | some x => x.map (Tagged.mk v)
      | none => t[k]? := by
  cases hd : d[k]? with
  | some x =>
    exact getElem?_foldl_write_of_mem v _ t ExtTreeMap.distinct_keys_toList
      (ExtTreeMap.mem_toList_iff_getElem?_eq_some.2 hd)
  | none =>
    refine getElem?_foldl_write_of_not_mem v _ t fun x hx => ?_
    rw [ExtTreeMap.mem_toList_iff_getElem?_eq_some, hd] at hx
    cases hx

@[simp] theorem apply_empty (t : Table κ α) : (∅ : Delta κ α).apply v t = t := by
  refine ExtTreeMap.ext_getElem? fun k => ?_
  rw [getElem?_apply, ExtTreeMap.getElem?_empty]

/-- What a table holds after a delta was put there by the delta or was there before. -/
theorem apply_eq_some {v : ℕ} {d : Delta κ α} {t : Table κ α} {x : Tagged α}
    (h : (d.apply v t)[k]? = some x) : x.version = v ∨ t[k]? = some x := by
  rw [getElem?_apply] at h
  split at h
  · obtain ⟨y, -, rfl⟩ := Option.map_eq_some_iff.1 h
    exact .inl rfl
  · exact .inr h

end Tables

/-! ### Histories -/

section Histories

variable [Ord κ] [TransOrd κ] [LawfulEqOrd κ]

/-- The tables at version `base` and the write sets of the versions `base + 1`, `base + 2`, … -/
structure History (ι κ α : Type*) [Ord κ] [TransOrd κ] [LawfulEqOrd κ] where
  base : ℕ
  start : ι → Table κ α
  sets : List (ι → Delta κ α)
  start_le : ∀ (i : ι) (k : κ) (x : Tagged α), (start i)[k]? = some x → x.version ≤ base

namespace History

/-- The history of an empty store. -/
def empty : History ι κ α := ⟨0, fun _ => ∅, [], fun _ k x h => by simp at h⟩

def version (h : History ι κ α) : ℕ := h.base + h.sets.length

/-- The write sets replayed one after the other, the first at version `v + 1`. -/
def replay (i : ι) : ℕ → List (ι → Delta κ α) → Table κ α → Table κ α
  | _, [], t => t
  | v, d :: ds, t => replay i (v + 1) ds ((d i).apply (v + 1) t)

/-- The table `i` at version `w`. -/
def tableAt (h : History ι κ α) (w : ℕ) (i : ι) : Table κ α :=
  replay i h.base (h.sets.take (w - h.base)) (h.start i)

/-- The tables after a further version. -/
def push (h : History ι κ α) (d : ι → Delta κ α) : History ι κ α := { h with sets := h.sets ++ [d] }

/-- `n` further versions that write nothing. -/
def skip : ℕ → History ι κ α → History ι κ α
  | 0, h => h
  | n + 1, h => skip n (h.push fun _ => ∅)

/-- Forget the versions after `w`. -/
def truncate (h : History ι κ α) (w : ℕ) : History ι κ α := { h with sets := h.sets.take (w - h.base) }

variable (h : History ι κ α)

theorem base_le_version : h.base ≤ h.version := Nat.le_add_right _ _

variable (d : ι → Delta κ α)

@[simp] theorem version_push : (h.push d).version = h.version + 1 := by
  simp [version, push, Nat.add_assoc]

theorem version_skip (n : ℕ) (h : History ι κ α) : (skip n h).version = h.version + n := by
  induction n generalizing h with
  | zero => rfl
  | succ n ih => rw [skip, ih, version_push, Nat.add_assoc, Nat.add_comm 1]

variable {w u : ℕ} {x : Tagged α} {i : ι}

theorem version_truncate (hb : h.base ≤ w) (hw : w ≤ h.version) : (h.truncate w).version = w := by
  simp only [version, truncate, length_take] at hw ⊢
  omega

omit [LawfulEqOrd κ] in
theorem replay_append (i : ι) (v : ℕ) (ds es : List (ι → Delta κ α)) (t : Table κ α) :
    replay i v (ds ++ es) t = replay i (v + ds.length) es (replay i v ds t) := by
  induction ds generalizing v t with
  | nil => rfl
  | cons d ds ih =>
    rw [cons_append, replay, replay, ih, length_cons]
    congr 1
    omega

theorem at_push_of_le (hw : w ≤ h.version) (i : ι) : (h.push d).tableAt w i = h.tableAt w i := by
  have hlen : w - h.base ≤ h.sets.length := by unfold version at hw; omega
  simp only [History.tableAt, push, take_append_of_le_length hlen]

theorem at_push_succ (i : ι) :
    (h.push d).tableAt (h.version + 1) i = (d i).apply (h.version + 1) (h.tableAt h.version i) := by
  have hpush : (h.push d).tableAt (h.version + 1) i = replay i h.base (h.sets ++ [d]) (h.start i) := by
    simp only [History.tableAt, push]
    rw [take_of_length_le]
    simp only [length_append, length_singleton, version]
    omega
  have htop : h.tableAt h.version i = replay i h.base h.sets (h.start i) := by
    simp only [History.tableAt]
    rw [take_of_length_le]
    unfold version
    omega
  rw [hpush, replay_append, htop]
  rfl

theorem at_truncate (hu : u ≤ w) (i : ι) : (h.truncate w).tableAt u i = h.tableAt u i := by
  simp only [History.tableAt, truncate, take_take]
  congr 2
  omega

theorem truncate_of_le (hw : h.version ≤ w) : h.truncate w = h := by
  unfold truncate
  rw [take_of_length_le]
  unfold version at hw
  omega

theorem at_base (i : ι) : h.tableAt h.base i = h.start i := by
  simp [History.tableAt, replay]

@[simp] theorem at_empty (w : ℕ) (i : ι) : (empty : History ι κ α).tableAt w i = ∅ := by
  simp [History.tableAt, empty, replay]

/-- A value is new at a version, or was there at the one before. -/
theorem at_succ (hb : h.base ≤ w) (hw : w < h.version) (hx : (h.tableAt (w + 1) i)[k]? = some x) :
    x.version = w + 1 ∨ (h.tableAt w i)[k]? = some x := by
  have hlen : w - h.base < h.sets.length := by unfold version at hw; omega
  have htake : h.sets.take (w + 1 - h.base) = h.sets.take (w - h.base) ++ [h.sets.get ⟨_, hlen⟩] := by
    rw [Nat.succ_sub hb, take_succ_eq_append_getElem hlen]
    rfl
  simp only [History.tableAt, htake, replay_append, length_take, replay] at hx
  rw [show h.base + min (w - h.base) h.sets.length + 1 = w + 1 by omega] at hx
  exact apply_eq_some hx

/-- Every value was written at or before the version it is read at. -/
theorem version_le_of_at (hb : h.base ≤ w) (hw : w ≤ h.version)
    (hx : (h.tableAt w i)[k]? = some x) : x.version ≤ w := by
  induction w, hb using Nat.le_induction with
  | base => exact h.start_le i k x (h.at_base i ▸ hx)
  | succ w hb ih =>
    rcases h.at_succ hb hw hx with heq | hold
    · exact heq.le
    · exact (ih (Nat.le_of_succ_le hw) hold).trans (Nat.le_succ w)

/-- Every value of a table that was empty at the base was written after it. -/
theorem base_lt_of_at (hstart : h.start i = ∅) (hb : h.base ≤ w)
    (hw : w ≤ h.version) (hx : (h.tableAt w i)[k]? = some x) : h.base < x.version := by
  induction w, hb using Nat.le_induction with
  | base => simp [h.at_base, hstart] at hx
  | succ w hb ih =>
    rcases h.at_succ hb hw hx with heq | hold
    · omega
    · exact ih (Nat.le_of_succ_le hw) hold

/-- A value that carries an old version was already there at that version: between the two nothing wrote
the key. -/
theorem at_of_version_le (hb : h.base ≤ u) (huw : u ≤ w) (hw : w ≤ h.version)
    (hx : (h.tableAt w i)[k]? = some x) (hxu : x.version ≤ u) : (h.tableAt u i)[k]? = some x := by
  induction w, huw using Nat.le_induction with
  | base => exact hx
  | succ w huw ih =>
    rcases h.at_succ (hb.trans huw) hw hx with heq | hold
    · omega
    · exact ih (Nat.le_of_succ_le hw) hold

/-- A history that starts with the tables at version `w`. -/
def resume (h : History ι κ α) {w : ℕ} (hb : h.base ≤ w) (hw : w ≤ h.version) : History ι κ α :=
  ⟨w, h.tableAt w, [], fun _ _ _ => h.version_le_of_at hb hw⟩

@[simp] theorem version_resume (hb : h.base ≤ w) (hw : w ≤ h.version) : (h.resume hb hw).version = w := rfl

theorem at_resume (hb : h.base ≤ w) (hw : w ≤ h.version) (i : ι) :
    (h.resume hb hw).tableAt w i = h.tableAt w i := (h.resume hb hw).at_base i

/-- Two histories with the same tables at their last version, which is the same. -/
def SameTop (h h' : History ι κ α) : Prop :=
  h'.version = h.version ∧ ∀ i, h'.tableAt h'.version i = h.tableAt h.version i

theorem SameTop.push {h h' : History ι κ α} (k : SameTop h h') (d : ι → Delta κ α) :
    SameTop (h.push d) (h'.push d) := by
  refine ⟨by rw [version_push, version_push, k.1], fun i => ?_⟩
  rw [version_push, version_push, at_push_succ, at_push_succ, k.2, k.1]

end History
end Histories
end Ccf.Versioned
