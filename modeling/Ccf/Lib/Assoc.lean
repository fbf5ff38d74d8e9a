import Mathlib.Data.List.Basic

/-! # Association lists

Finite maps kept as lists of pairs, with the operations of an ordered or hashed map that the models
use: `List.lookup`, `modify` (assignment to an existing key), `put`, `erase`, `keys`, and `upsert` for maps in the
order of their keys. -/

namespace Ccf.Assoc

open List

variable {κ ν : Type*}

def keys (l : List (κ × ν)) : List κ := l.map Prod.fst

@[simp] theorem keys_nil : keys ([] : List (κ × ν)) = [] := rfl

@[simp] theorem keys_append (l l' : List (κ × ν)) : keys (l ++ l') = keys l ++ keys l' := map_append

variable [DecidableEq κ]

/-- Apply `f` to the value of `k`. -/
def modify (k : κ) (f : ν → ν) (l : List (κ × ν)) : List (κ × ν) :=
  l.map fun p => if p.1 = k then (p.1, f p.2) else p

/-- Assign `v` to `k`. -/
def put (k : κ) (v : ν) (l : List (κ × ν)) : List (κ × ν) :=
  if k ∈ keys l then modify k (fun _ => v) l else l ++ [(k, v)]

def erase (k : κ) (l : List (κ × ν)) : List (κ × ν) := l.filter (·.1 ≠ k)

@[simp] theorem keys_modify (k : κ) (f : ν → ν) (l : List (κ × ν)) : keys (modify k f l) = keys l := by
  simp only [keys, modify, map_map]
  refine map_congr_left fun p _ => ?_
  simp only [Function.comp_apply]
  split_ifs <;> rfl

variable {k k' : κ} {l : List (κ × ν)} {v : ν} {f : ν → ν} {p : κ × ν}

theorem mem_keys_erase : k' ∈ keys (erase k l) ↔ k' ∈ keys l ∧ k' ≠ k := by
  simp only [keys, erase, mem_map, mem_filter, decide_eq_true_eq]
  constructor
  · rintro ⟨p, ⟨hp, hne⟩, rfl⟩
    exact ⟨⟨p, hp, rfl⟩, hne⟩
  · rintro ⟨⟨p, hp, rfl⟩, hne⟩
    exact ⟨p, ⟨hp, hne⟩, rfl⟩

theorem lookup_cons_eq (k : κ) (p : κ × ν) (l : List (κ × ν)) :
    (p :: l).lookup k = if k = p.1 then some p.2 else l.lookup k := by
  by_cases hk : k = p.1
  · have heq : (k == p.1) = true := beq_iff_eq.2 hk
    rw [lookup_cons, heq, if_pos hk]
  · have hne : (k == p.1) = false := beq_eq_false_iff_ne.2 hk
    rw [lookup_cons, hne, if_neg hk]

theorem lookup_isSome_iff : (l.lookup k).isSome ↔ k ∈ keys l := by
  induction l with
  | nil => simp
  | cons p l ih =>
    rw [lookup_cons_eq]
    split_ifs with hk
    · simp [keys, hk]
    · simp [ih, keys, hk]

theorem mem_of_lookup (h : l.lookup k = some v) : (k, v) ∈ l := by
  induction l with
  | nil => simp at h
  | cons p l ih =>
    rw [lookup_cons_eq] at h
    split_ifs at h with hk
    · cases h
      subst hk
      exact mem_cons_self
    · exact mem_cons_of_mem _ (ih h)

theorem mem_modify (h : p ∈ modify k f l) :
    ∃ p₀ ∈ l, p.1 = p₀.1 ∧ (p.1 ≠ k ∧ p = p₀ ∨ p.1 = k ∧ p.2 = f p₀.2) := by
  obtain ⟨p₀, hp₀, rfl⟩ := mem_map.1 h
  refine ⟨p₀, hp₀, ?_⟩
  split_ifs with hk
  · exact ⟨rfl, .inr ⟨hk, rfl⟩⟩
  · exact ⟨rfl, .inl ⟨hk, rfl⟩⟩

theorem lookup_modify (k k' : κ) (f : ν → ν) (l : List (κ × ν)) :
    (modify k f l).lookup k' = if k' = k then (l.lookup k').map f else l.lookup k' := by
  induction l with
  | nil => simp [modify]
  | cons p l ih =>
    simp only [modify, map_cons] at ih ⊢
    rw [lookup_cons_eq, lookup_cons_eq, ih]
    by_cases hp : p.1 = k
    · split_ifs with h1 h2 <;> simp_all
    · split_ifs with h1 h2 <;> simp_all

theorem lookup_eq_none_iff : l.lookup k = none ↔ k ∉ keys l := by
  rw [← lookup_isSome_iff, Option.not_isSome_iff_eq_none]

theorem lookup_put (k k' : κ) (v : ν) (l : List (κ × ν)) :
    (put k v l).lookup k' = if k' = k then some v else l.lookup k' := by
  unfold put
  by_cases hk : k ∈ keys l
  · rw [if_pos hk, lookup_modify]
    split_ifs with heq
    · obtain ⟨x, hx⟩ := Option.isSome_iff_exists.1 (lookup_isSome_iff.2 (heq ▸ hk))
      rw [hx, Option.map_some]
    · rfl
  · rw [if_neg hk, lookup_append, lookup_cons_eq]
    split_ifs with heq
    · rw [heq, lookup_eq_none_iff.2 hk, Option.none_or]
    · rw [lookup_nil, Option.or_none]

theorem mem_keys_put : k' ∈ keys (put k v l) ↔ k' = k ∨ k' ∈ keys l := by
  rw [← lookup_isSome_iff, lookup_put]
  split_ifs with heq
  · simp [heq]
  · rw [lookup_isSome_iff]
    simp [heq]

variable (h : (keys l).Nodup)
include h

theorem nodup_put : (keys (put k v l)).Nodup := by
  unfold put
  split_ifs with hk
  · rwa [keys_modify]
  · rw [keys_append, nodup_append]
    refine ⟨h, by simp [keys], ?_⟩
    rintro a ha b hb rfl
    obtain rfl : a = k := by simpa [keys] using hb
    exact hk ha

theorem put_of_lookup (hv : l.lookup k = some v) : put k v l = l := by
  have hk : k ∈ keys l := lookup_isSome_iff.1 (by rw [hv]; rfl)
  rw [put, if_pos hk]
  clear hk
  induction l with
  | nil => rfl
  | cons p l ih =>
    obtain ⟨hp, hl⟩ := nodup_cons.1 h
    rw [lookup_cons_eq] at hv
    rw [modify, map_cons]
    split_ifs at hv with hpk
    · cases hv
      have hrest : l.map (fun q => if q.1 = k then (q.1, p.2) else q) = l := by
        refine (map_congr_left fun q hq => ?_).trans (map_id l)
        have hne : q.1 ≠ k := fun heq => hp (hpk ▸ heq ▸ mem_map_of_mem hq)
        rw [if_neg hne]
        rfl
      rw [if_pos hpk.symm]
      exact congrArg _ hrest
    · rw [if_neg fun h => hpk h.symm]
      exact congrArg _ (ih hl hv)

theorem nodup_erase : (keys (erase k l)).Nodup :=
  h.sublist (filter_sublist.map _)

omit h

theorem lookup_filter (f : κ → Bool) (k : κ) (l : List (κ × ν)) :
    (l.filter (f ·.1)).lookup k = if f k then l.lookup k else none := by
  induction l with
  | nil => simp
  | cons p l ih =>
    rw [filter_cons, lookup_cons_eq]
    by_cases hp : f p.1
    · rw [if_pos hp, lookup_cons_eq, ih]
      split_ifs <;> simp_all
    · rw [if_neg hp, ih]
      split_ifs <;> simp_all

theorem lookup_erase (k k' : κ) (l : List (κ × ν)) :
    (erase k l).lookup k' = if k' = k then none else l.lookup k' := by
  rw [erase, lookup_filter fun x => decide (x ≠ k)]
  split_ifs <;> simp_all

/-- Erasing a key that does not count. -/
theorem countP_erase {f : κ → Bool} (h : k ∈ keys l → f k = false) :
    (erase k l).countP (fun p => f p.1) = l.countP fun p => f p.1 := by
  rw [erase, countP_filter]
  refine countP_congr fun p hp => ?_
  have hne : f p.1 = true → p.1 ≠ k := by
    rintro hf rfl
    rw [h (mem_map_of_mem hp)] at hf
    cases hf
  simpa using hne

theorem countP_le_erase_add_one (h : (keys l).Nodup) (f : κ → Bool) :
    l.countP (fun p => f p.1) ≤ (erase k l).countP (fun p => f p.1) + 1 := by
  induction l with
  | nil => simp
  | cons p l ih =>
    obtain ⟨hp, hl⟩ := nodup_cons.1 h
    rw [countP_cons]
    by_cases hpk : p.1 = k
    · have hsame : erase k (p :: l) = l := by
        rw [erase, filter_cons_of_neg (by simpa using hpk), filter_eq_self.2]
        intro q hq
        have hne : q.1 ≠ k := fun heq => hp (hpk ▸ heq ▸ mem_map_of_mem hq)
        simpa using hne
      rw [hsame]
      split_ifs <;> omega
    · have hcons : erase k (p :: l) = p :: erase k l := filter_cons_of_pos (by simpa using hpk)
      rw [hcons, countP_cons]
      have := ih hl
      omega

/-! ### Maps in the order of their keys -/

section
variable {m : ℕ} {d : ν} {l : List (ℕ × ν)}

/-- Apply `f` to the value of `m`, or to `d` where it has none. -/
def upsert (m : ℕ) (f : ν → ν) (d : ν) : List (ℕ × ν) → List (ℕ × ν)
  | [] => [(m, f d)]
  | p :: l => if m < p.1 then (m, f d) :: p :: l else if m = p.1 then (p.1, f p.2) :: l else p :: upsert m f d l

theorem mem_upsert {p : ℕ × ν} (hl : l.Pairwise fun p q => p.1 < q.1) (hp : p ∈ upsert m f d l) :
    p.1 ≠ m ∧ p ∈ l ∨ p.1 = m ∧ (p.2 = f d ∨ ∃ v, (m, v) ∈ l ∧ p.2 = f v) := by
  induction l with
  | nil =>
    rw [mem_singleton.1 hp]
    exact .inr ⟨rfl, .inl rfl⟩
  | cons q l ih =>
    obtain ⟨hlt, hl⟩ := pairwise_cons.1 hl
    unfold upsert at hp
    split_ifs at hp with hm hm'
    · rcases mem_cons.1 hp with rfl | hp
      · exact .inr ⟨rfl, .inl rfl⟩
      · refine .inl ⟨?_, hp⟩
        rcases mem_cons.1 hp with rfl | hp
        · exact Nat.ne_of_gt hm
        · exact Nat.ne_of_gt (Nat.lt_trans hm (hlt p hp))
    · rcases mem_cons.1 hp with rfl | hp
      · exact .inr ⟨hm'.symm, .inr ⟨q.2, by rw [hm']; exact mem_cons_self, rfl⟩⟩
      · exact .inl ⟨by rw [hm']; exact Nat.ne_of_gt (hlt p hp), mem_cons_of_mem _ hp⟩
    · rcases mem_cons.1 hp with rfl | hp
      · exact .inl ⟨fun h => hm' h.symm, mem_cons_self⟩
      · rcases ih hl hp with ⟨hne, hp⟩ | ⟨heq, hnew | ⟨v, hv, hp⟩⟩
        · exact .inl ⟨hne, mem_cons_of_mem _ hp⟩
        · exact .inr ⟨heq, .inl hnew⟩
        · exact .inr ⟨heq, .inr ⟨v, mem_cons_of_mem _ hv, hp⟩⟩

theorem sorted_upsert (hl : l.Pairwise fun p q => p.1 < q.1) : (upsert m f d l).Pairwise fun p q => p.1 < q.1 := by
  induction l with
  | nil => exact pairwise_singleton _ _
  | cons q l ih =>
    obtain ⟨hlt, hl'⟩ := pairwise_cons.1 hl
    unfold upsert
    split_ifs with hm hm'
    · refine pairwise_cons.2 ⟨fun p hp => ?_, hl⟩
      rcases mem_cons.1 hp with rfl | hp
      · exact hm
      · exact Nat.lt_trans hm (hlt p hp)
    · exact pairwise_cons.2 ⟨hlt, hl'⟩
    · refine pairwise_cons.2 ⟨fun p hp => ?_, ih hl'⟩
      rcases mem_upsert hl' hp with ⟨-, hp⟩ | ⟨heq, -⟩
      · exact hlt p hp
      · omega

end

end Ccf.Assoc
