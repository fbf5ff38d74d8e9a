import Mathlib.Data.List.Nodup

/-! # Tree maps from the list of their entries

An extensional tree map is made by inserting its entries one by one, in any order. -/

namespace Ccf

open List

open Std (ExtTreeMap)

variable {κ β : Type*} [Ord κ] [Std.TransOrd κ] [Std.LawfulEqOrd κ] {l : List (κ × β)}

theorem nodup_keys (t : ExtTreeMap κ β) : (t.toList.map Prod.fst).Nodup := by
  refine pairwise_map.2 (ExtTreeMap.distinct_keys_toList.imp fun {a b} hab heq => hab ?_)
  rw [heq, Std.compare_self]

theorem getElem?_foldl_insert (hl : (l.map Prod.fst).Nodup) (t : ExtTreeMap κ β) (k : κ) :
    (∀ x, (k, x) ∈ l → (l.foldl (fun t p => t.insert p.1 p.2) t)[k]? = some x) ∧
      (k ∉ l.map Prod.fst → (l.foldl (fun t p => t.insert p.1 p.2) t)[k]? = t[k]?) := by
  induction l generalizing t with
  | nil => simp
  | cons p l ih =>
    rw [map_cons, nodup_cons] at hl
    obtain ⟨hin, hout⟩ := ih hl.2 (t.insert p.1 p.2)
    rw [foldl_cons]
    constructor
    · intro x hx
      rcases mem_cons.1 hx with rfl | hx
      · rw [hout hl.1, ExtTreeMap.getElem?_insert_self]
      · exact hin x hx
    · intro hk
      rw [map_cons, mem_cons, not_or] at hk
      rw [hout hk.2, ExtTreeMap.getElem?_insert, if_neg]
      rw [Std.compare_eq_iff_eq]
      exact fun h => hk.1 h.symm

/-- Inserting the elements of a table in any order makes the table. -/
theorem foldl_insert_of_perm {t : ExtTreeMap κ β} (hperm : l.Perm t.toList) :
    l.foldl (fun t p => t.insert p.1 p.2) ∅ = t := by
  have hkeys : (l.map Prod.fst).Nodup := (hperm.map Prod.fst).nodup_iff.2 (nodup_keys _)
  refine ExtTreeMap.ext_getElem? fun key => ?_
  obtain ⟨hin, hout⟩ := getElem?_foldl_insert hkeys ∅ key
  cases hkey : t[key]? with
  | some x => exact hin x (hperm.mem_iff.2 (ExtTreeMap.mem_toList_iff_getElem?_eq_some.2 hkey))
  | none =>
    rw [hout, ExtTreeMap.getElem?_empty]
    intro hmem
    obtain ⟨p, hp, rfl⟩ := mem_map.1 ((hperm.map Prod.fst).mem_iff.1 hmem)
    rw [ExtTreeMap.mem_toList_iff_getElem?_eq_some.1 hp] at hkey
    cases hkey

end Ccf
