import Ccf.Lib.Bytes
import Mathlib.Data.List.GetD
import Mathlib.Data.List.Range
import Mathlib.Data.Nat.ModEq

/-! # Flat memory, and a ring laid over it

`Mem` is a memory of bytes. A ring of `n` bytes uses the cells below `n` for unboundedly many positions:
position `x` is kept in cell `x % n`. Two positions of one window of `n` never share a cell, so a write to
some positions of the window is invisible at all others (`ring_write`). -/

namespace Ccf

open List

/-- A memory of bytes. -/
abbrev Mem := ℕ → UInt8

namespace Mem

variable (mem : Mem)

def write (i : ℕ) (bytes : List UInt8) : Mem :=
  fun j => if i ≤ j ∧ j < i + bytes.length then bytes.getD (j - i) 0 else mem j

/-- The `n` bytes from cell `i` on. -/
def read (i n : ℕ) : List UInt8 := (List.range n).map fun k => mem (i + k)

def read64 (i : ℕ) : ℕ := ofLeBytes (mem.read i 8)

/-- Set `n` bytes to zero. -/
def clear (i n : ℕ) : Mem := mem.write i (List.replicate n 0)

@[simp] theorem length_read (i n : ℕ) : (mem.read i n).length = n := by
  rw [read, length_map, length_range]

variable {mem : Mem} {n i i' : ℕ}

theorem read_congr {mem' : Mem} (h : ∀ k < n, mem (i + k) = mem' (i' + k)) : mem.read i n = mem'.read i' n :=
  map_congr_left fun k hk => h k (mem_range.1 hk)

variable {bytes : List UInt8} {v : ℕ}

theorem read_eq (h : ∀ k, k < bytes.length → mem (i + k) = bytes.getD k 0) : mem.read i bytes.length = bytes := by
  refine ext_getElem (by rw [length_read]) fun k _ hk => ?_
  simp only [read, getElem_map, getElem_range]
  rw [h k hk, getD_eq_getElem _ _ hk]

theorem read_append (mem : Mem) (i m n : ℕ) : mem.read i (m + n) = mem.read i m ++ mem.read (i + m) n := by
  simp only [read, range_add, map_append, map_map, Function.comp_def, add_assoc]

@[simp] theorem write_nil (mem : Mem) (i : ℕ) : mem.write i [] = mem := by
  funext j
  rw [write, length_nil, if_neg (by omega)]

theorem read64_zero (h : ∀ k < 8, mem (i + k) = 0) : mem.read64 i = 0 := by
  have hread : mem.read i 8 = List.replicate 8 0 := by
    rw [show (8 : ℕ) = (List.replicate 8 (0 : UInt8)).length from rfl]
    refine read_eq fun k hk => ?_
    rw [length_replicate] at hk
    rw [h k hk, getD_replicate _ hk]
  rw [read64, hread]
  rfl

theorem read64_leBytes (hv : v < 2 ^ 64)
    (h : ∀ k < 8, mem (i + k) = (leBytes 8 v).getD k 0) : mem.read64 i = v := by
  have hread : mem.read i (leBytes 8 v).length = leBytes 8 v :=
    read_eq fun k hk => h k (by rwa [length_leBytes] at hk)
  rw [length_leBytes] at hread
  rw [read64, hread, ofLeBytes_leBytes (by omega)]

/-! ### A ring over memory -/

/-- The ring of `n` bytes, by position. -/
def ring (mem : Mem) (n : ℕ) : Mem := fun x => mem (x % n)

variable {a t m x : ℕ}

theorem mod_add_lt (h : a % n + t < n) : (a + t) % n = a % n + t := by
  rw [Nat.add_mod, Nat.mod_eq_of_lt (by omega : t < n)]
  exact Nat.mod_eq_of_lt h

/-- Two positions of a window that share a cell are the same. -/
theorem eq_of_mod_eq {h y : ℕ} (hx : h ≤ x) (hx' : x < h + n) (hy : h ≤ y) (hy' : y < h + n)
    (heq : x % n = y % n) : x = y := by
  have hmod : (x - h) % n = (y - h) % n := by
    have hx2 : h + (x - h) = x := by omega
    have hy2 : h + (y - h) = y := by omega
    rw [← hx2, ← hy2] at heq
    exact Nat.ModEq.add_left_cancel' h heq
  rw [Nat.mod_eq_of_lt (by omega), Nat.mod_eq_of_lt (by omega)] at hmod
  omega

section
variable {h y : ℕ} (hcross : a % n + bytes.length ≤ n) (ha : h ≤ a) (ha' : a + bytes.length ≤ h + n)
  (hy : h ≤ y) (hy' : y < h + n)
include hcross ha ha' hy hy'

/-- A write of consecutive positions that does not cross the end of the memory, seen from a position of the
same window. -/
theorem ring_write : (mem.write (a % n) bytes).ring n y =
      if a ≤ y ∧ y < a + bytes.length then bytes.getD (y - a) 0 else mem.ring n y := by
  by_cases hin : a ≤ y ∧ y < a + bytes.length
  · obtain ⟨t, rfl⟩ : ∃ t, y = a + t := ⟨y - a, by omega⟩
    have hcell : (a + t) % n = a % n + t := mod_add_lt (by omega)
    rw [if_pos hin, ring, write, hcell, if_pos (by omega)]
    congr 1
    omega
  · rw [if_neg hin, ring, write, if_neg]
    · rfl
    · rintro ⟨hge, hlt⟩
      have hcell : (a + (y % n - a % n)) % n = y % n := by
        rw [mod_add_lt (by omega)]
        omega
      have := eq_of_mod_eq (h := h) (by omega) (by omega) hy hy' hcell
      omega

theorem ring_write_of_not (hout : y < a ∨ a + bytes.length ≤ y) :
    (mem.write (a % n) bytes).ring n y = mem.ring n y := by
  rw [ring_write hcross ha ha' hy hy', if_neg (by omega)]

end

theorem ring_write_of_mem (hcross : a % n + bytes.length ≤ n)
    (ht : t < bytes.length) : (mem.write (a % n) bytes).ring n (a + t) = bytes.getD t 0 := by
  rw [ring_write hcross (le_refl a) (by omega) (by omega) (by omega), if_pos (by omega), Nat.add_sub_cancel_left]

/-- Cells read in a row are positions read in a row. -/
theorem read_ring (h : a % n + m ≤ n) : mem.read (a % n) m = (mem.ring n).read a m := by
  refine read_congr fun k hk => ?_
  rw [ring, mod_add_lt (by omega)]

theorem read64_ring (h : a % n + 8 ≤ n) : mem.read64 (a % n) = (mem.ring n).read64 a := by
  rw [read64, read64, read_ring h]

end Mem

end Ccf
