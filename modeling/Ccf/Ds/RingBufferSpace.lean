import Ccf.Ds.RingBuffer
import Mathlib.Data.Nat.Bitwise

/-! # Room in the ring buffer

What the offsets that a writer holds say about the room between the tail and the head. A writer that gets
as far as the exchange of the tail either holds a tail that the head has passed, so that the exchange fails,
or there is room behind its tail for the reservation (`Placed`). This needs that no offset a writer holds has
fallen behind the tail by the range of a word (`State.Fresh`). -/

namespace Ccf.RingBuffer

/-! ### Words -/

/-- The sizes a buffer can have. -/
def BufferSize (size : ℕ) : Prop := ∃ k ≤ 63, size = 2 ^ k

namespace BufferSize

variable {size : ℕ} (h : BufferSize size)

include h

theorem pos : 0 < size := by
  obtain ⟨k, -, rfl⟩ := h
  exact Nat.two_pow_pos k

theorem le_half : size ≤ 2 ^ 63 := by
  obtain ⟨k, hk, rfl⟩ := h
  exact Nat.pow_le_pow_right (by decide) hk

theorem index_eq (x : ℕ) : index size x = x % size := by
  obtain ⟨k, hk, rfl⟩ := h
  rw [index, word, Nat.and_two_pow_sub_one_eq_mod, Nat.mod_mod_of_dvd _ (Nat.pow_dvd_pow 2 (by omega))]

theorem eight_dvd (hle : 8 ≤ size) : 8 ∣ size := by
  obtain ⟨k, hk, rfl⟩ := h
  have hk' : 3 ≤ k := by
    by_contra hlt
    have : 2 ^ k ≤ 2 ^ 2 := Nat.pow_le_pow_right (by decide) (by omega)
    omega
  exact Nat.pow_dvd_pow 2 hk'

end BufferSize

variable {y x : ℕ}

theorem wordSub_eq (hle : y ≤ x) (hlt : x < y + 2 ^ 64) : wordSub x y = x - y := by
  unfold wordSub word
  omega

theorem wordSub_eq_of_lt (hlt : x < y) (hle : y < x + 2 ^ 64) : wordSub x y = 2 ^ 64 - (y - x) := by
  unfold wordSub word
  omega

theorem word_ne (hlt : x < y) (hle : y < x + 2 ^ 64) : word y ≠ word x := by
  unfold word
  omega

variable {hd tl : ℕ}

/-- The comparison with wraparound, of a head with a tail that is at most a buffer ahead of it. -/
theorem greaterWithWraparound_iff (hahead : hd < tl + (2 ^ 63 - 1)) (hbehind : tl ≤ hd + 2 ^ 63) :
    greaterWithWraparound hd tl ↔ tl < hd := by
  unfold greaterWithWraparound
  rcases lt_trichotomy hd tl with hlt | rfl | hgt
  · rw [wordSub_eq_of_lt hlt (by omega)]
    omega
  · exact ⟨fun h => absurd rfl h.1, fun h => absurd h (lt_irrefl _)⟩
  · rw [wordSub_eq hgt.le (by omega)]
    exact ⟨fun _ => hgt, fun _ => ⟨word_ne hgt (by omega), by omega⟩⟩

/-! ### Sizes of messages -/

theorem entrySize_eq (n : ℕ) : entrySize n = (n + 15) / 8 * 8 := by
  unfold entrySize alignSize headerSize
  rw [show n + 8 + (8 - 1) = n + 15 by omega]

theorem eight_dvd_room (item : Item) : 8 ∣ item.room := by
  exact Nat.dvd_mul_left _ _

theorem Item.length_add_eight_le_room (item : Item) : item.data.length + 8 ≤ item.room := by
  rw [Item.room, entrySize_eq]
  omega

section writable

variable {size : ℕ} {item : Item} (h : item.Writable size)
include h

theorem Item.Writable.room_le : 2 * item.room ≤ size := by
  have := h.2.2.2
  unfold maxReservationSize at this
  omega

theorem Item.Writable.sixteen_le : 16 ≤ size := by
  have := h.room_le
  have := item.length_add_eight_le_room
  omega

theorem Item.Writable.room_le_word : item.room ≤ 2 ^ 31 := by
  have hle := h.2.2.1
  rw [Item.room, entrySize_eq]
  unfold maxSize headerSize at hle
  omega

omit h

end writable

/-! ### Room behind a tail -/

/-- The reservation at `tl` is free up to one lap behind the head `hd`, and neither the padding nor the message
crosses the end of the buffer. -/
structure Room (size hd tl padding room : ℕ) : Prop where
  free : tl + room + padding ≤ hd + size
  shape : (padding = 0 ∧ tl % size + room ≤ size) ∨ (padding = size - tl % size ∧ padding < room ∧ room ≤ size)

variable {room : ℕ}

theorem Room.mono {size hd' padding : ℕ} (h : Room size hd tl padding room) (hle : hd ≤ hd') :
    Room size hd' tl padding room :=
  ⟨h.free.trans (Nat.add_le_add_right hle _), h.shape⟩

/-- The end of the lap of `x`. -/
theorem add_back_mod {size : ℕ} (hpos : 0 < size) (x : ℕ) : (x + (size - x % size)) % size = 0 := by
  have hmod := Nat.mod_lt x hpos
  have hdiv := Nat.mod_add_div x size
  have heq : x + (size - x % size) = size * (x / size + 1) := by
    rw [mul_add, mul_one]
    omega
  rw [heq, Nat.mul_mod_right]

/-- A message that does not fit between the tail and the end of the buffer, but has room in total, has room
before the head if the index of the head says so: the head is in the lap of the tail. -/
theorem room_front {size h : ℕ} (hpos : 0 < size) (hh : h ≤ hd) (hle : hd ≤ tl)
    (htotal : tl + room ≤ h + size) (hback : size - tl % size < room) (hfront : room ≤ hd % size) :
    Room size hd tl (size - tl % size) room := by
  have hmod := Nat.mod_lt tl hpos
  have hdiv := Nat.mod_add_div tl size
  have hhd : hd % size = hd - size * (tl / size) := by
    have hlt : hd - size * (tl / size) < size := by omega
    have heq : hd = hd - size * (tl / size) + size * (tl / size) := by omega
    conv_lhs => rw [heq, Nat.add_mul_mod_self_left, Nat.mod_eq_of_lt hlt]
  exact ⟨by omega, .inr ⟨rfl, hback, by omega⟩⟩

/-! ### What a writer knows while it reserves -/

namespace Writer

/-- What the local variables of a writer before its exchange say, with the head and the tail as they are. -/
def Placed (size head tail : ℕ) : Writer → Prop
  | .loadCache job => job.item.Writable size
  | .loadTail job hd => job.item.Writable size ∧ hd ≤ head
  | .loadHead job tl _ _ => job.item.Writable size ∧ tl ≤ tail
  | .storeCache job hd tl => job.item.Writable size ∧ hd ≤ head ∧ hd ≤ tl ∧ tl ≤ tail ∧ tl + job.item.room ≤ hd + size
  | .reloadHead job tl => job.item.Writable size ∧ tl ≤ tail ∧ size - tl % size < job.item.room ∧
      ∃ h ≤ head, h ≤ tl ∧ tl + job.item.room ≤ h + size
  | .restoreCache job hd tl => job.item.Writable size ∧ hd ≤ head ∧ tl ≤ tail ∧ size - tl % size < job.item.room ∧
      job.item.room ≤ hd % size ∧ ∃ h ≤ hd, h ≤ tl ∧ tl + job.item.room ≤ h + size
  | .exchange job hd tl tlIndex padding => job.item.Writable size ∧ hd ≤ head ∧ tl ≤ tail ∧
      (tl < head ∨ (tlIndex = tl % size ∧ Room size head tl padding job.item.room))
  | _ => True

/-- The offsets a writer holds have not fallen behind the tail by more than a word can tell. -/
def Fresh (tail : ℕ) : Writer → Prop
  | .loadTail _ hd => tail < hd + 2 ^ 64
  | .loadHead _ tl _ _ => tail < tl + (2 ^ 63 - 1)
  | .exchange _ hd tl _ _ => tail < hd + 2 ^ 64 ∧ tail < tl + 2 ^ 64
  | _ => True

instance (tail : ℕ) (w : Writer) : Decidable (w.Fresh tail) := by cases w <;> unfold Fresh <;> infer_instance

theorem Placed.mono {size head head' tail tail' : ℕ} {w : Writer} (h : w.Placed size head tail) (hh : head ≤ head')
    (ht : tail ≤ tail') : w.Placed size head' tail' := by
  cases w with
  | loadTail job hd => exact ⟨h.1, h.2.trans hh⟩
  | loadHead job tl tlIndex padding => exact ⟨h.1, h.2.trans ht⟩
  | storeCache job hd tl =>
    obtain ⟨hjob, hhd, hle, htl, hroom⟩ := h
    exact ⟨hjob, hhd.trans hh, hle, htl.trans ht, hroom⟩
  | reloadHead job tl =>
    obtain ⟨hjob, htl, hback, h, hhead, hle, hroom⟩ := h
    exact ⟨hjob, htl.trans ht, hback, h, hhead.trans hh, hle, hroom⟩
  | restoreCache job hd tl =>
    obtain ⟨hjob, hhd, htl, hrest⟩ := h
    exact ⟨hjob, hhd.trans hh, htl.trans ht, hrest⟩
  | exchange job hd tl tlIndex padding =>
    obtain ⟨hjob, hhd, htl, hlt | ⟨hindex, hroom⟩⟩ := h
    · exact ⟨hjob, hhd.trans hh, htl.trans ht, .inl (hlt.trans_le hh)⟩
    · exact ⟨hjob, hhd.trans hh, htl.trans ht, .inr ⟨hindex, hroom.mono hh⟩⟩
  | _ => exact h

variable {size head tail tlIndex padding : ℕ} {job : Job}

theorem placed_place (hb : BufferSize size) (hjob : job.item.Writable size) (hhd : hd ≤ head) (hle : hd ≤ tl)
    (htl : tl ≤ tail) (hroom : tl + job.item.room ≤ hd + size) : (place size job hd tl).Placed size head tail := by
  simp only [place, hb.index_eq]
  have hmod := Nat.mod_lt tl hb.pos
  split_ifs with hback hfront
  · exact ⟨hjob, htl, hback, hd, hhd, hle, hroom⟩
  · exact ⟨hjob, hhd, htl, .inr ⟨rfl,
      (room_front hb.pos le_rfl hle hroom hback (Nat.le_of_not_gt hfront)).mono hhd⟩⟩
  · exact ⟨hjob, hhd, htl, .inr ⟨rfl, by omega, .inl ⟨rfl, by omega⟩⟩⟩

theorem placed_attempt (hb : BufferSize size) (hjob : job.item.Writable size) (hhd : hd ≤ head) (hhead : head ≤ tail)
    (hfresh : tail < hd + 2 ^ 64) : (attempt size job hd tail tlIndex padding).Placed size head tail := by
  simp only [attempt, wordSub_eq (hhd.trans hhead) hfresh]
  have hhalf := hb.le_half
  split_ifs with hfull
  · exact ⟨hjob, le_rfl⟩
  · obtain ⟨hgap, havail⟩ := not_or.1 hfull
    rw [wordSub_eq (by omega) (by omega)] at havail
    exact placed_place hb hjob hhd (hhd.trans hhead) le_rfl (by omega)

theorem placed_noRoom (hjob : job.item.Writable size) : (noRoom job).Placed size head tail := by
  unfold noRoom
  split_ifs
  · exact hjob
  · trivial

end Writer

end Ccf.RingBuffer
