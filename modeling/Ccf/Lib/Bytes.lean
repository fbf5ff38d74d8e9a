import Mathlib.Data.List.Basic
import Mathlib.Tactic.Ring

/-! # Reading and writing bytes

Integers are little-endian (`leBytes`, `ofLeBytes`). A `Cursor` reads at an offset into memory that starts at a
pointer: `size` is how many bytes the reader believes it may read, which need not be how many there are. A parser is
a program over a cursor that may throw.

`Parses p bytes x` says that `p`, where the cursor is at `bytes` with all of them inside its size, returns `x` and
leaves the cursor behind them. `Ensures` is about all inputs: nothing outside the memory is read, and what is
returned is as required. -/

namespace Ccf

open List

/-! ### Little-endian integers -/

/-- The low `w` bytes of `n`, lowest first. -/
def leBytes : ℕ → ℕ → List UInt8
  | 0, _ => []
  | w + 1, n => UInt8.ofNat n :: leBytes w (n / 256)

def ofLeBytes : List UInt8 → ℕ
  | [] => 0
  | b :: bytes => b.toNat + 256 * ofLeBytes bytes

@[simp] theorem length_leBytes (w n : ℕ) : (leBytes w n).length = w := by
  induction w generalizing n with
  | zero => rfl
  | succ w ih => rw [leBytes, length_cons, ih]

theorem ofLeBytes_leBytes {n w : ℕ} (h : n < 256 ^ w) : ofLeBytes (leBytes w n) = n := by
  induction w generalizing n with
  | zero =>
    rw [pow_zero, Nat.lt_one_iff] at h
    rw [h]
    rfl
  | succ w ih =>
    have hdiv : n / 256 < 256 ^ w := Nat.div_lt_of_lt_mul (by rwa [pow_succ, Nat.mul_comm] at h)
    rw [leBytes, ofLeBytes, ih hdiv, UInt8.toNat_ofNat']
    exact Nat.mod_add_div n 256

/-! ### Cursors -/

structure Cursor where
  /-- The memory from the pointer on. -/
  memory : List UInt8 := []
  size : ℕ := 0
  offset : ℕ := 0
deriving DecidableEq

/-- Programs that read at a cursor. -/
abbrev Parser (ε : Type) := StateT Cursor (Except ε)

namespace Cursor

/-- The bytes of memory from the offset on. -/
def rest (c : Cursor) : List UInt8 := c.memory.drop c.offset

def skip (n : ℕ) (c : Cursor) : Cursor := { c with offset := c.offset + n }

/-- The size that is left, on 64 bits. -/
def remainder (c : Cursor) : ℕ := if c.offset ≤ c.size then c.size - c.offset else 2 ^ 64 + c.size - c.offset

/-- Whether the cursor is at the end, or past it. -/
def isEos (c : Cursor) : Bool := c.size ≤ c.offset

/-- Copy `n` bytes of memory; reading beyond the memory is `overrun`. -/
def copy {ε : Type} (overrun : ε) (n : ℕ) : Parser ε (List UInt8) := fun c =>
  if c.rest.length < n then .error overrun else .ok (c.rest.take n, c.skip n)

end Cursor

/-- The size that is left. -/
def remaining {ε : Type} : Parser ε ℕ := fun c => .ok (c.remainder, c)

def ensure {ε : Type} (b : Prop) [Decidable b] (e : ε) : Parser ε Unit := if b then pure () else throw e

/-- Run a parser `n` times. -/
def repeatTimes {ε α : Type} (p : Parser ε α) : ℕ → Parser ε (List α)
  | 0 => pure []
  | n + 1 => do
      let x ← p
      let xs ← repeatTimes p n
      return x :: xs

/-! ### What a parser reads -/

/-- The cursor is at `bytes`, which lie inside its size. -/
structure Cursor.At (c : Cursor) (bytes rest : List UInt8) : Prop where
  memory : c.rest = bytes ++ rest
  size : c.offset + bytes.length ≤ c.size

def Parses {ε α : Type} (p : Parser ε α) (bytes : List UInt8) (x : α) : Prop :=
  ∀ (c : Cursor) (rest : List UInt8), c.At bytes rest → p c = .ok (x, c.skip bytes.length)

namespace Cursor

variable {c : Cursor} {bytes bytes' rest : List UInt8} {ε : Type}

theorem skip_skip (m n : ℕ) (c : Cursor) : (c.skip m).skip n = c.skip (m + n) := by
  rw [skip, skip, skip, add_assoc]

theorem rest_skip (n : ℕ) (c : Cursor) : (c.skip n).rest = c.rest.drop n := by
  rw [rest, rest, drop_drop]
  rfl

theorem At.left (h : c.At (bytes ++ bytes') rest) : c.At bytes (bytes' ++ rest) := by
  refine ⟨by rw [h.memory, append_assoc], ?_⟩
  have := h.size
  rw [length_append] at this
  omega

theorem At.right (h : c.At (bytes ++ bytes') rest) : (c.skip bytes.length).At bytes' rest := by
  refine ⟨by rw [rest_skip, h.memory, append_assoc, drop_left], ?_⟩
  have := h.size
  rw [length_append] at this
  show c.offset + bytes.length + bytes'.length ≤ c.size
  omega

theorem At.remainder (h : c.At bytes rest) : c.remainder = c.size - c.offset ∧ bytes.length ≤ c.remainder := by
  have hsize := h.size
  have heq : c.remainder = c.size - c.offset := if_pos (by omega)
  exact ⟨heq, by omega⟩

theorem At.copy (h : c.At bytes rest) (overrun : ε) :
    copy overrun bytes.length c = .ok (bytes, c.skip bytes.length) := by
  rw [Cursor.copy, h.memory, if_neg (by rw [length_append]; omega), take_left]

/-- The bytes are all that is left for the cursor. -/
structure Ends (c : Cursor) (bytes : List UInt8) : Prop where
  memory : ∃ rest, c.rest = bytes ++ rest
  size : c.offset + bytes.length = c.size

theorem Ends.at (h : c.Ends (bytes ++ bytes')) : ∃ rest, c.At bytes rest := by
  obtain ⟨rest, hrest⟩ := h.memory
  exact ⟨bytes' ++ rest, At.left ⟨hrest, h.size.le⟩⟩

theorem Ends.skip (h : c.Ends (bytes ++ bytes')) : (c.skip bytes.length).Ends bytes' := by
  obtain ⟨rest, hrest⟩ := h.memory
  refine ⟨⟨rest, (At.right ⟨hrest, h.size.le⟩).memory⟩, ?_⟩
  have := h.size
  rw [length_append] at this
  show c.offset + bytes.length + bytes'.length = c.size
  omega

theorem Ends.isEos (h : c.Ends bytes) : c.isEos = bytes.isEmpty := by
  have := h.size
  cases bytes with
  | nil => simpa [Cursor.isEos] using this.ge
  | cons b bytes =>
    rw [length_cons] at this
    simp only [Cursor.isEos, isEmpty_cons, decide_eq_false_iff_not]
    omega

end Cursor

variable {b : Prop} {ε α β : Type} {p : Parser ε α} {f : α → Parser ε β} {bytes bytes' : List UInt8} {x : α} {y : β}
  {c c' : Cursor} {γ : Type*}

theorem bind_of_ok (h : p c = .ok (x, c')) : (p >>= f) c = f x c' := by
  show (p c >>= fun r => f r.1 r.2) = _
  rw [h]
  rfl

theorem remaining_bind (f : ℕ → Parser ε β) (c : Cursor) : (remaining >>= f) c = f c.remainder c := rfl

theorem ensure_ok [Decidable b] (h : b) (e : ε) (c : Cursor) : ensure b e c = .ok ((), c) := by
  rw [ensure, if_pos h]
  rfl

theorem parses_pure (x : α) : Parses (pure x : Parser ε α) [] x := fun _ _ _ => rfl

theorem Parses.bind (hp : Parses p bytes x) (hf : Parses (f x) bytes' y) : Parses (p >>= f) (bytes ++ bytes') y := by
  intro c rest h
  show (p c >>= fun r => f r.1 r.2) = _
  rw [hp c _ h.left]
  show f x (c.skip bytes.length) = _
  rw [hf _ _ h.right, Cursor.skip_skip, length_append]

theorem Parses.map (hp : Parses p bytes x) (f : α → β) : Parses (f <$> p) bytes (f x) := by
  intro c rest h
  show ((fun r : α × Cursor => (f r.1, r.2)) <$> p c) = _
  rw [hp c rest h]
  rfl

theorem Parses.andThen (hf : Parses (f x) bytes y) (hp : Parses p [] x) : Parses (p >>= f) bytes y :=
  hp.bind hf

theorem parses_ensure [Decidable b] (h : b) (e : ε) : Parses (ensure b e) [] () :=
  fun c _ _ => ensure_ok h e c

theorem Parses.ends (hp : Parses p bytes x) (h : c.Ends (bytes ++ bytes')) :
    p c = .ok (x, c.skip bytes.length) := by
  obtain ⟨rest, hat⟩ := h.at
  exact hp c rest hat

/-- What is left includes the bytes to be read. -/
theorem Parses.remaining {f : ℕ → Parser ε β} (hf : ∀ n, bytes.length ≤ n → Parses (f n) bytes y) :
    Parses (remaining >>= f) bytes y :=
  fun c rest h => hf c.remainder h.remainder.2 c rest h

theorem parses_copy {n : ℕ} (overrun : ε) (h : bytes.length = n) : Parses (Cursor.copy overrun n) bytes bytes := by
  subst h
  exact fun c rest hc => hc.copy overrun

theorem Parses.repeatTimes {enc : γ → List UInt8} {dec : γ → α} {items : List γ}
    (h : ∀ i ∈ items, Parses p (enc i) (dec i)) :
    Parses (repeatTimes p items.length) (items.flatMap enc) (items.map dec) := by
  induction items with
  | nil => exact parses_pure []
  | cons i items ih =>
    rw [flatMap_cons, map_cons, length_cons]
    refine (h i mem_cons_self).bind ?_
    rw [← append_nil (items.flatMap enc)]
    exact (ih fun j hj => h j (mem_cons_of_mem _ hj)).bind (parses_pure _)

/-! ### Reading inside the size -/

/-- The offset is inside the size, and the size inside the memory. -/
structure Cursor.Valid (c : Cursor) : Prop where
  offset : c.offset ≤ c.size
  size : c.size ≤ c.memory.length

/-- The result is not `overrun`, and one that is returned is as required. -/
def Ensures {ε α : Type} (overrun : ε) (Q : α → Prop) (r : Except ε α) : Prop :=
  r ≠ .error overrun ∧ ∀ x, r = .ok x → Q x

variable {overrun e : ε} {Q : α → Prop} {R : β → Prop} {n : ℕ} {r : Except ε α} (h : c.Valid)
include h

theorem Cursor.Valid.remainder : c.remainder = c.size - c.offset := if_pos h.offset

variable (hn : c.offset + n ≤ c.size) {f : α → Except ε β}
include hn

theorem Cursor.Valid.skip : (c.skip n).Valid := ⟨hn, h.size⟩

theorem Cursor.Valid.length_take : (c.rest.take n).length = n := by
  have := h.size
  rw [List.length_take, Cursor.rest, List.length_drop]
  omega

theorem Cursor.Valid.copy :
    Cursor.copy overrun n c = .ok (c.rest.take n, c.skip n) := by
  have := h.size
  refine if_neg ?_
  rw [Cursor.rest, length_drop]
  omega

omit hn h

theorem bind_of_error {f : α → Parser ε β} (h : p c = .error e) : (p >>= f) c = .error e := by
  show (p c >>= fun r => f r.1 r.2) = _
  rw [h]
  rfl

theorem ensure_error [Decidable b] (h : ¬b) (e : ε) (c : Cursor) : ensure b e c = .error e := by
  rw [ensure, if_neg h]
  rfl

theorem Cursor.copy_error (hfull : c.size = c.memory.length) (hn : ¬c.offset + n ≤ c.size)
    (hoffset : c.offset ≤ c.size) :
    Cursor.copy overrun n c = .error overrun := by
  refine if_pos ?_
  rw [Cursor.rest, length_drop]
  omega

theorem ensures_ok : Ensures overrun Q (.ok x) ↔ Q x :=
  ⟨fun h => h.2 x rfl, fun h => ⟨(by rintro ⟨⟩), (by rintro _ ⟨⟩; exact h)⟩⟩

theorem ensures_error : Ensures overrun Q (.error e) ↔ e ≠ overrun :=
  ⟨fun h heq => h.1 (heq ▸ rfl), fun h => ⟨(by rintro ⟨⟩; exact h rfl), (by rintro _ ⟨⟩)⟩⟩

theorem Ensures.bind (h : Ensures overrun Q r)
    (hf : ∀ x, Q x → Ensures overrun R (f x)) : Ensures overrun R (r >>= f) := by
  cases r with
  | error e => exact ensures_error.2 (ensures_error.1 h)
  | ok x => exact hf x (ensures_ok.1 h)

theorem ensures_map {f : α → β} : Ensures overrun R (f <$> r) ↔ Ensures overrun (fun x => R (f x)) r := by
  cases r with
  | error e => exact ensures_error.trans ensures_error.symm
  | ok x => exact ensures_ok.trans (ensures_ok (Q := fun x => R (f x))).symm

include h hn

theorem Cursor.Valid.ensures_copy :
    Ensures overrun (· = (c.rest.take n, c.skip n)) (Cursor.copy overrun n c) := by
  rw [h.copy hn]
  exact ensures_ok.2 rfl

end Ccf
