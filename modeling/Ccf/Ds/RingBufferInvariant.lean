import Ccf.Ds.RingBufferSpace

/-! # The invariant of the ring buffer

Reservations lie one behind the other; the first ones have been delivered, and the reader is at the next one.
How far the writer of a reservation has got (`Stage`) says what the memory of the reservation holds, and all
memory that is not reserved is zero. The memory is looked at by position (`Mem.ring`), not by cell. -/

namespace Ccf.RingBuffer

open List

/-! ### Reservations -/

namespace Reservation

variable (r : Reservation)

/-- Where the message begins. -/
def body : ℕ := r.start + r.padding

def stop : ℕ := r.body + r.item.room

structure Valid (size : ℕ) (r : Reservation) : Prop where
  writable : r.item.Writable size
  aligned : 8 ∣ r.start
  padding_eq : r.padding = 0 ∨ r.padding = size - r.start % size
  padding_lt : r.padding < r.item.room
  body_le : r.body % size + r.item.room ≤ size

theorem body_add_le_stop : r.body + (r.item.data.length + 8) ≤ r.stop :=
  Nat.add_le_add_left r.item.length_add_eight_le_room _

theorem start_lt_stop : r.start < r.stop := by
  have := r.body_add_le_stop
  unfold body at *
  omega

variable {size : ℕ} {r : Reservation}

theorem Valid.eight_dvd (h : r.Valid size) (hb : BufferSize size) : 8 ∣ size :=
  hb.eight_dvd (by have := h.writable.sixteen_le; omega)

theorem Valid.data_le (h : r.Valid size) : r.body % size + (r.item.data.length + 8) ≤ size :=
  (Nat.add_le_add_left r.item.length_add_eight_le_room _).trans h.body_le

theorem Valid.eight_dvd_padding (h : r.Valid size) (hb : BufferSize size) : 8 ∣ r.padding := by
  rcases h.padding_eq with hp | hp
  · rw [hp]
    exact dvd_zero 8
  · rw [hp]
    have hmod : 8 ∣ r.start % size := (Nat.dvd_mod_iff (h.eight_dvd hb)).2 h.aligned
    exact Nat.dvd_sub (h.eight_dvd hb) hmod

theorem Valid.start_le (h : r.Valid size) (hb : BufferSize size) : r.start % size + r.padding ≤ size := by
  have hmod := Nat.mod_lt r.start hb.pos
  rcases h.padding_eq with hp | hp
  · omega
  · omega

end Reservation

/-- The reservations lie one behind the other, from `a` to `b`. -/
def Chain : ℕ → List Reservation → ℕ → Prop
  | a, [], b => a = b
  | a, r :: rs, b => r.start = a ∧ Chain r.stop rs b

namespace Chain

variable {a b c : ℕ} {rs ts : List Reservation} {r r' : Reservation}

theorem append_iff : Chain a (rs ++ ts) b ↔ ∃ c, Chain a rs c ∧ Chain c ts b := by
  induction rs generalizing a with
  | nil => simp [Chain]
  | cons r rs ih => simp only [cons_append, Chain, ih, and_assoc, exists_and_left]

variable (h : Chain a rs b)
include h

theorem le : a ≤ b := by
  induction rs generalizing a with
  | nil => exact h.le
  | cons r rs ih =>
    obtain ⟨rfl, h⟩ := h
    exact r.start_lt_stop.le.trans (ih h)

theorem bounds (hr : r ∈ rs) : a ≤ r.start ∧ r.stop ≤ b := by
  induction rs generalizing a with
  | nil => cases hr
  | cons t rs ih =>
    obtain ⟨rfl, h⟩ := h
    rcases mem_cons.1 hr with rfl | hr
    · exact ⟨le_rfl, h.le⟩
    · exact ⟨t.start_lt_stop.le.trans (ih h hr).1, (ih h hr).2⟩

/-- Two reservations are the same, or one lies behind the other. -/
theorem apart (hr : r ∈ rs) (hr' : r' ∈ rs) : r = r' ∨ r.stop ≤ r'.start ∨ r'.stop ≤ r.start := by
  induction rs generalizing a with
  | nil => cases hr
  | cons t rs ih =>
    obtain ⟨-, h⟩ := h
    rcases mem_cons.1 hr with heq | hmem
    · rcases mem_cons.1 hr' with heq' | hmem'
      · exact .inl (heq.trans heq'.symm)
      · exact .inr (.inl (heq ▸ (h.bounds hmem').1))
    · rcases mem_cons.1 hr' with heq' | hmem'
      · exact .inr (.inr (heq' ▸ (h.bounds hmem).1))
      · exact ih h hmem hmem'

theorem eq_of_start (hr : r ∈ rs) (hr' : r' ∈ rs) (heq : r.start = r'.start) : r = r' := by
  have := r.start_lt_stop
  have := r'.start_lt_stop
  rcases h.apart hr hr' with h | h | h
  · exact h
  · omega
  · omega

omit h

end Chain

/-! ### How far a writer has got -/

inductive Stage where
  | reserved
  | padded
  | pending (written : ℕ)
  | finished
deriving DecidableEq

/-- The reservation a writer is working on. -/
def Writer.progress : Writer → Option (ℕ × Stage)
  | .writePadding _ start _ _ => some (start, .reserved)
  | .writeHeader _ start _ => some (start, .padded)
  | .writeData _ start _ written => some (start, .pending written)
  | .finishRead job start _ => some (start, .pending job.item.data.length)
  | .finishWrite job start _ _ => some (start, .pending job.item.data.length)
  | _ => none

/-- The stage of the reservation at `start` of a writer. -/
def Writer.stage (w : Writer) (start : ℕ) : Stage :=
  match w.progress with
  | some (start', stage) => if start' = start then stage else .finished
  | none => .finished

def State.stage (s : State) (r : Reservation) : Stage := (s.writers r.writer).stage r.start

variable {stage : Stage} {size n : ℕ}

namespace Writer

variable {w : Writer} {start i : ℕ} {rs : List Reservation}

theorem stage_of_none (h : w.progress = none) : w.stage start = .finished := by
  simp only [stage, h]

theorem stage_of_some (h : w.progress = some (start, stage)) : w.stage start = stage := by
  simp only [Writer.stage, h, if_true]

theorem stage_of_ne {start' : ℕ} (h : w.progress = some (start', stage)) (hne : start' ≠ start) :
    w.stage start = .finished := by
  simp only [Writer.stage, h, if_neg hne]

theorem progress_of_stage (h : w.stage start ≠ .finished) : w.progress = some (start, w.stage start) := by
  unfold stage at h ⊢
  cases hw : w.progress with
  | none =>
    rw [hw] at h
    exact absurd rfl h
  | some q =>
    simp only [hw] at h ⊢
    split_ifs at h ⊢ with heq
    · rw [← heq]
    · exact absurd rfl h

/-- What the local variables of a writer say about its reservation. -/
def Working (size : ℕ) (rs : List Reservation) (i : ℕ) : Writer → Prop
  | .writePadding job start tlIndex padding => padding ≠ 0 ∧ tlIndex = start % size ∧
      ⟨i, job.item, start, padding⟩ ∈ rs
  | .writeHeader job start index => ∃ r ∈ rs, r.writer = i ∧ r.item = job.item ∧ r.start = start ∧
      index = r.body % size
  | .writeData job start index written => ∃ r ∈ rs, r.writer = i ∧ r.item = job.item ∧ r.start = start ∧
      index = r.body % size ∧ written ≤ r.item.data.length
  | .finishRead job start index => ∃ r ∈ rs, r.writer = i ∧ r.item = job.item ∧ r.start = start ∧
      index = r.body % size
  | .finishWrite job start index header => ∃ r ∈ rs, r.writer = i ∧ r.item = job.item ∧ r.start = start ∧
      index = r.body % size ∧ header = makeHeader r.item.m r.item.data.length true
  | .failed => False
  | _ => True

theorem Working.mono {rs' : List Reservation} (h : w.Working size rs i) (hsub : rs ⊆ rs') :
    w.Working size rs' i := by
  cases w with
  | writePadding job start tlIndex padding => exact ⟨h.1, h.2.1, hsub h.2.2⟩
  | writeHeader | writeData | finishRead | finishWrite =>
    obtain ⟨r, hr, hrest⟩ := h
    exact ⟨r, hsub hr, hrest⟩
  | _ => exact h

theorem Working.reservation (h : w.Working size rs i)
    (hp : w.progress = some (start, stage)) :
    ∃ r ∈ rs, r.writer = i ∧ r.start = start ∧ ∀ k, stage = .pending k → k ≤ r.item.data.length := by
  cases w with
  | writePadding job start tlIndex padding =>
    cases hp
    exact ⟨_, h.2.2, rfl, rfl, nofun⟩
  | writeHeader job start index =>
    cases hp
    obtain ⟨r, hr, hi, -, hstart, -⟩ := h
    exact ⟨r, hr, hi, hstart, nofun⟩
  | writeData job start index written =>
    cases hp
    obtain ⟨r, hr, hi, -, hstart, -, hle⟩ := h
    exact ⟨r, hr, hi, hstart, fun k hk => by cases hk; exact hle⟩
  | finishRead job start index | finishWrite job start index header =>
    cases hp
    obtain ⟨r, hr, hi, hitem, hstart, -⟩ := h
    exact ⟨r, hr, hi, hstart, fun k hk => by cases hk; rw [hitem]⟩
  | _ => cases hp

end Writer

/-! ### What memory holds -/

theorem message_makeHeader (m n : ℕ) (pending : Bool) : message (makeHeader m n pending) = m := by
  unfold message makeHeader pendingWriteFlag
  split_ifs <;> omega

theorem length_makeHeader (m : ℕ) (hn : n < 2 ^ 31) (pending : Bool) :
    length (makeHeader m n pending) = n + if pending then pendingWriteFlag else 0 := by
  unfold length makeHeader pendingWriteFlag
  split_ifs <;> omega

theorem makeHeader_lt {m : ℕ} (hm : m < 2 ^ 32) (n : ℕ) (pending : Bool) : makeHeader m n pending < 2 ^ 64 := by
  unfold makeHeader pendingWriteFlag
  split_ifs <;> omega

theorem makeHeader_finished (m : ℕ) (hn : n < 2 ^ 31) :
    makeHeader (message (makeHeader m n true)) (length (makeHeader m n true)) false = makeHeader m n false := by
  rw [message_makeHeader, length_makeHeader m hn]
  unfold makeHeader pendingWriteFlag
  simp only [if_true, Bool.false_eq_true, if_false]
  omega

/-- The header of the padding of a reservation. -/
def Reservation.padHeader (r : Reservation) : ℕ := makeHeader msgPad (r.padding - headerSize) false

/-- The header of its message. -/
def Reservation.header (r : Reservation) (pending : Bool) : ℕ := makeHeader r.item.m r.item.data.length pending

variable {r : Reservation}

theorem Reservation.Valid.header_lt (h : r.Valid size) (pending : Bool) : r.header pending < 2 ^ 64 := by
  refine makeHeader_lt ?_ _ _
  have := h.writable.2.1
  unfold msgMax at this
  omega

theorem Reservation.Valid.length_lt (h : r.Valid size) : r.item.data.length < 2 ^ 31 := by
  have := h.writable.2.2.1
  unfold maxSize at this
  omega

/-- The memory of a reservation from the cursor of the reader on, at each stage. -/
structure Reservation.Holds (ring : Mem) (cursor : ℕ) (r : Reservation) (stage : Stage) : Prop where
  padding : r.padding ≠ 0 → cursor ≤ r.start → ring.read64 r.start = if stage = .reserved then 0 else r.padHeader
  unwritten : stage = .reserved ∨ stage = .padded → ring.read64 r.body = 0
  pending : ∀ written, stage = .pending written → ring.read64 r.body = r.header true ∧
    ring.read (r.body + headerSize) written = r.item.data.take written
  finished : stage = .finished → ring.read64 r.body = r.header false ∧
    ring.read (r.body + headerSize) r.item.data.length = r.item.data

/-- Memory outside of a reservation does not matter to it. -/
theorem Reservation.Holds.congr {ring ring' : Mem} {cursor : ℕ}
    (h : r.Holds ring cursor stage) (hlen : ∀ w, stage = .pending w → w ≤ r.item.data.length)
    (hcursor : cursor ≤ r.body)
    (hsame : ∀ x, cursor ≤ x → r.start ≤ x → x < r.stop → ring' x = ring x) : r.Holds ring' cursor stage := by
  have hstop := r.body_add_le_stop
  have hbody : r.start ≤ r.body := Nat.le_add_right _ _
  have hstart : r.padding ≠ 0 → cursor ≤ r.start → ring'.read64 r.start = ring.read64 r.start := by
    intro hne hle
    exact congrArg ofLeBytes (Mem.read_congr fun k hk => hsame _ (by omega) (by omega) (by omega))
  have hheader : ring'.read64 r.body = ring.read64 r.body :=
    congrArg ofLeBytes (Mem.read_congr fun k hk => hsame _ (by omega) (by omega) (by omega))
  have hdata : ∀ w ≤ r.item.data.length, ring'.read (r.body + headerSize) w = ring.read (r.body + headerSize) w := by
    intro w hw
    refine Mem.read_congr fun k hk => hsame _ (by omega) (by omega) ?_
    unfold headerSize
    omega
  refine ⟨fun hne hle => ?_, fun hs => ?_, fun w hs => ?_, fun hs => ?_⟩
  · rw [hstart hne hle]
    exact h.padding hne hle
  · rw [hheader]
    exact h.unwritten hs
  · rw [hheader, hdata w (hlen w hs)]
    exact h.pending w hs
  · rw [hheader, hdata _ le_rfl]
    exact h.finished hs

/-! ### The reader -/

/-- How far the reader is behind the head. -/
def Reader.advance : Reader → ℕ
  | .readHeader _ _ advance _ | .handle _ _ advance _ _ _ | .clear _ advance | .storeHead _ advance => advance
  | _ => 0

/-- The position of the reader. -/
def State.cursor (s : State) : ℕ := s.head + s.reader.advance

/-- What the local variables of the reader say. -/
def Reader.At (size head : ℕ) : Reader → Prop
  | .readHeader _ hd advance _ => hd = head ∧ advance < size - head % size
  | .handle _ hd advance _ _ _ => hd = head ∧ advance < size - head % size
  | .clear hd advance => hd = head ∧ advance ≤ size - head % size
  | .storeHead hd advance => hd = head ∧ advance ≤ size - head % size
  | .failed => size < 8
  | _ => True

/-! ### The invariant -/

/-- The reservations are `done`, which have been delivered, and then from `p` on `todo`. -/
structure Inv (size origin : ℕ) (s : State) (done todo : List Reservation) (p : ℕ) : Prop where
  split : s.reservations = done ++ todo
  chain_done : Chain origin done p
  chain_todo : Chain p todo s.tail
  valid : ∀ r ∈ s.reservations, r.Valid size
  head_aligned : 8 ∣ s.head
  tail_aligned : 8 ∣ s.tail
  cache_le : s.headCache ≤ s.head
  tail_le : s.tail ≤ s.head + size
  placed : ∀ i, (s.writers i).Placed size s.head s.tail
  working : ∀ i, (s.writers i).Working size s.reservations i
  finished_iff : ∀ r ∈ s.reservations, r.start ∈ s.finished ↔ s.stage r = .finished
  finished_lt : ∀ x ∈ s.finished, x < s.tail
  delivered : s.delivered = done.map Reservation.item
  done_finished : ∀ r ∈ done, s.stage r = .finished
  reader : s.reader.At size s.head
  cursor : s.cursor = p ∨ ∃ r rest, todo = r :: rest ∧ s.cursor = r.body ∧ s.stage r ≠ .reserved
  holds : ∀ r ∈ todo, r.Holds (s.mem.ring size) s.cursor (s.stage r)
  zero : ∀ x, s.tail ≤ x → x < s.head + size → s.mem.ring size x = 0
  cleared : ∀ hd advance, s.reader = .storeHead hd advance → ∀ x, s.head ≤ x → x < s.cursor → s.mem.ring size x = 0
  handled : ∀ limit hd advance count m len, s.reader = .handle limit hd advance count m len →
    ∃ r rest, todo = r :: rest ∧ s.cursor = r.body ∧ s.stage r = .finished ∧ m = r.item.m ∧ len = r.item.data.length

namespace Inv

variable {origin : ℕ} {s : State} {done todo : List Reservation} {p : ℕ}
  (h : Inv size origin s done todo p)

include h

theorem chain : Chain origin s.reservations s.tail :=
  h.split ▸ Chain.append_iff.2 ⟨p, h.chain_done, h.chain_todo⟩

variable {w : ℕ}

theorem mem_todo (hr : r ∈ todo) : r ∈ s.reservations :=
  h.split ▸ mem_append_right _ hr

theorem todo_of_stage (hr : r ∈ s.reservations) (hstage : s.stage r ≠ .finished) : r ∈ todo := by
  rcases mem_append.1 (h.split ▸ hr) with hdone | htodo
  · exact absurd (h.done_finished r hdone) hstage
  · exact htodo

omit h in
theorem head_le_cursor (s : State) : s.head ≤ s.cursor := Nat.le_add_right _ _

theorem cursor_le_body (hr : r ∈ todo) : s.cursor ≤ r.body := by
  have hbounds := h.chain_todo.bounds hr
  rcases h.cursor with heq | ⟨t, rest, rfl, heq, -⟩
  · rw [heq]
    exact hbounds.1.trans (Nat.le_add_right _ _)
  · rw [heq]
    rcases mem_cons.1 hr with rfl | hrest
    · exact le_rfl
    · have hnext := (h.chain_todo.2.bounds hrest).1
      have hle : t.body ≤ t.stop := Nat.le_add_right _ _
      exact (hle.trans hnext).trans (Nat.le_add_right _ _)

/-- The reader does not pass padding that is not written. -/
theorem cursor_le_start (hr : r ∈ todo) (hstage : s.stage r = .reserved) : s.cursor ≤ r.start := by
  rcases h.cursor with heq | ⟨t, rest, rfl, heq, hne⟩
  · rw [heq]
    exact (h.chain_todo.bounds hr).1
  · rcases mem_cons.1 hr with rfl | hrest
    · exact absurd hstage hne
    · have hle : t.body ≤ t.stop := Nat.le_add_right _ _
      rw [heq]
      exact hle.trans (h.chain_todo.2.bounds hrest).1

theorem cursor_le_tail : s.cursor ≤ s.tail := by
  rcases h.cursor with heq | ⟨t, rest, rfl, heq, -⟩
  · exact heq ▸ h.chain_todo.le
  · have hbounds := (h.chain_todo.bounds mem_cons_self).2
    have hle : t.body ≤ t.stop := Nat.le_add_right _ _
    omega

theorem head_le_tail : s.head ≤ s.tail :=
  (head_le_cursor s).trans h.cursor_le_tail

theorem eight_le_padding (hb : BufferSize size) (hr : r ∈ s.reservations) (hne : r.padding ≠ 0) : 8 ≤ r.padding :=
  Nat.le_of_dvd (Nat.pos_of_ne_zero hne) ((h.valid r hr).eight_dvd_padding hb)

theorem written_le (hr : r ∈ s.reservations) (hstage : s.stage r = .pending w) : w ≤ r.item.data.length := by
  have hprogress : (s.writers r.writer).progress = some (r.start, s.stage r) :=
    Writer.progress_of_stage (by rw [State.stage] at hstage; rw [hstage]; exact nofun)
  obtain ⟨r', hr', -, hstart, hle⟩ := (h.working r.writer).reservation hprogress
  rw [← h.chain.eq_of_start hr' hr hstart]
  exact hle w hstage

end Inv

end Ccf.RingBuffer
