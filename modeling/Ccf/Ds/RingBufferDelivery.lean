import Ccf.Ds.RingBufferWriting
import Mathlib.Order.Interval.Finset.Nat

/-! # What the reader delivers

The reader moves over reservations in their order. It stops at one that is not finished, skips padding,
hands a finished message to the handler, and gives the room back when it has cleared it. -/

namespace Ccf.RingBuffer

open Reader List Reservation

variable {size origin : ℕ} {s : State} {done todo : List Reservation} {p : ℕ}

/-! ### Steps of the reader alone -/

variable {r : Reservation}

theorem Reservation.Holds.mono {ring : Mem} {cursor cursor' : ℕ} {stage : Stage}
    (h : r.Holds ring cursor stage) (hle : cursor ≤ cursor') : r.Holds ring cursor' stage :=
  ⟨fun hne hc => h.padding hne (hle.trans hc), h.unwritten, h.pending, h.finished⟩

variable (h : Inv size origin s done todo p) {rest : List Reservation} {rd : Reader} {p' : ℕ} {a : Action}
include h

/-- The reader moves to `rd`, and by this to another position or past a message. -/
theorem Inv.setReader {delivered : List Item}
    {done' todo' : List Reservation} (hsplit : done ++ todo = done' ++ todo')
    (hchain_done : Chain origin done' p') (hchain_todo : Chain p' todo' s.tail) (hsub : todo' ⊆ todo)
    (hdone : ∀ r ∈ done', s.stage r = .finished) (hdelivered : delivered = done'.map item)
    (hle : s.cursor ≤ s.head + rd.advance) (hat : rd.At size s.head)
    (hcursor : s.head + rd.advance = p' ∨
      ∃ r rest, todo' = r :: rest ∧ s.head + rd.advance = r.body ∧ s.stage r ≠ .reserved)
    (hcleared : ∀ hd advance, rd ≠ .storeHead hd advance)
    (hhandled : ∀ limit hd advance count m len, rd = .handle limit hd advance count m len →
      ∃ r rest, todo' = r :: rest ∧ s.head + rd.advance = r.body ∧ s.stage r = .finished ∧ m = r.item.m ∧
        len = r.item.data.length) :
    Inv size origin { s with reader := rd, delivered := delivered } done' todo' p' :=
  ⟨h.split.trans hsplit, hchain_done, hchain_todo, h.valid, h.head_aligned, h.tail_aligned, h.cache_le, h.tail_le,
    h.placed, h.working, h.finished_iff, h.finished_lt, hdelivered, hdone, hat, hcursor,
    fun r hr => (h.holds r (hsub hr)).mono hle, h.zero, fun hd advance hrd => absurd hrd (hcleared hd advance),
    hhandled⟩

theorem Inv.keepReader (hadvance : rd.advance = s.reader.advance)
    (hat : rd.At size s.head) (hcleared : ∀ hd advance, rd ≠ .storeHead hd advance)
    (hhandled : ∀ limit hd advance count m len, rd = .handle limit hd advance count m len →
      ∃ r rest, todo = r :: rest ∧ s.cursor = r.body ∧ s.stage r = .finished ∧ m = r.item.m ∧
        len = r.item.data.length) : Inv size origin { s with reader := rd } done todo p := by
  have hsame : s.head + rd.advance = s.cursor := by rw [hadvance, State.cursor]
  refine h.setReader rfl h.chain_done h.chain_todo (List.Subset.refl _) h.done_finished h.delivered hsame.ge hat
    (hsame ▸ h.cursor) hcleared ?_
  intro limit hd advance count m len hrd
  rw [hsame]
  exact hhandled limit hd advance count m len hrd

omit h

/-! ### The end of the loop -/

variable {limit hd advance count : ℕ}

theorem Reader.advance_loop : (loop size limit hd advance count).advance = advance := by
  simp only [loop]
  split_ifs with hloop hpos
  · rfl
  · rfl
  · simp only [Reader.advance]
    omega

theorem Reader.at_loop (hb : BufferSize size) (hle : advance ≤ size - hd % size) :
    (loop size limit hd advance count).At size hd := by
  simp only [loop, hb.index_eq]
  split_ifs with hloop hpos
  · exact ⟨rfl, hloop.1⟩
  · exact ⟨rfl, hle⟩
  · trivial

theorem Reader.loop_ne_storeHead (hd' advance' : ℕ) : loop size limit hd advance count ≠ .storeHead hd' advance' := by
  simp only [loop]
  split_ifs <;> simp

theorem Reader.loop_ne_handle (limit' hd' advance' count' m len : ℕ) :
    loop size limit hd advance count ≠ .handle limit' hd' advance' count' m len := by
  simp only [loop]
  split_ifs <;> simp

/-! ### Reading a header -/

include h

theorem Inv.cursor_aligned (hb : BufferSize size) : 8 ∣ s.cursor := by
  have hp : 8 ∣ p := by
    cases todo with
    | nil => exact h.chain_todo ▸ h.tail_aligned
    | cons r rest => exact h.chain_todo.1 ▸ (h.valid r (h.mem_todo mem_cons_self)).aligned
  rcases h.cursor with heq | ⟨r, rest, rfl, heq, -⟩
  · exact heq ▸ hp
  · have hvalid := h.valid r (h.mem_todo mem_cons_self)
    exact heq ▸ Nat.dvd_add hvalid.aligned (hvalid.eight_dvd_padding hb)

/-- The eight bytes of a header do not cross the end of the buffer. -/
theorem Inv.header_le (hb : BufferSize size) (hsize : 8 ≤ size) : s.cursor % size + 8 ≤ size := by
  have hdvd := hb.eight_dvd hsize
  obtain ⟨k, hk⟩ := (Nat.dvd_mod_iff hdvd).2 (h.cursor_aligned hb)
  have hlt := Nat.mod_lt s.cursor hb.pos
  omega

omit h

/-- What the reader finds at its position: a header at which it stops, the padding before the next message, or the
next message. -/
inductive Found (s : State) (todo : List Reservation) (header : ℕ) : Prop where
  | nothing (hstop : length header ≥ pendingWriteFlag ∨ message header = msgNone)
      (hnext : ∀ r rest, todo = r :: rest → s.stage r ≠ .finished)
  | padding (r : Reservation) (rest : List Reservation) (htodo : todo = r :: rest) (hcursor : s.cursor = r.start)
      (hne : r.padding ≠ 0) (hstage : s.stage r ≠ .reserved) (hheader : header = r.padHeader)
  | finished (r : Reservation) (rest : List Reservation) (htodo : todo = r :: rest) (hcursor : s.cursor = r.body)
      (hstage : s.stage r = .finished) (hheader : header = r.header false)

theorem message_zero : message 0 = msgNone := rfl

include h

theorem Inv.found_body (htodo : todo = r :: rest) (hcursor : s.cursor = r.body) :
    Found s todo ((s.mem.ring size).read64 s.cursor) := by
  have hr : r ∈ todo := htodo ▸ mem_cons_self
  have hholds := h.holds r hr
  have hvalid := h.valid r (h.mem_todo hr)
  have hnext : s.stage r ≠ .finished → ∀ t rest', todo = t :: rest' → s.stage t ≠ .finished := by
    intro hne t rest' htodo'
    obtain ⟨rfl, -⟩ := List.cons.inj (htodo.symm.trans htodo')
    exact hne
  rw [hcursor]
  cases hstage : s.stage r with
  | reserved =>
    rw [hholds.unwritten (.inl hstage)]
    exact .nothing (.inr message_zero) (hnext (by simp [hstage]))
  | padded =>
    rw [hholds.unwritten (.inr hstage)]
    exact .nothing (.inr message_zero) (hnext (by simp [hstage]))
  | pending w =>
    refine .nothing (.inl ?_) (hnext (by simp [hstage]))
    rw [(hholds.pending w hstage).1, header, length_makeHeader _ hvalid.length_lt, if_pos rfl]
    exact Nat.le_add_left _ _
  | finished => exact .finished r rest htodo hcursor hstage (hholds.finished hstage).1

theorem Inv.found (hroom : s.cursor + 8 ≤ s.head + size) : Found s todo ((s.mem.ring size).read64 s.cursor) := by
  rcases h.cursor with heq | ⟨r, rest, htodo, heq, -⟩
  · cases htodo : todo with
    | nil =>
      have hchain := h.chain_todo
      rw [htodo] at hchain
      have htail : p = s.tail := hchain
      rw [Mem.read64_zero fun k hk => h.zero _ (by omega) (by omega)]
      exact .nothing (.inr message_zero) nofun
    | cons r rest =>
      have hr : r ∈ todo := htodo ▸ mem_cons_self
      have hchain := h.chain_todo
      rw [htodo] at hchain
      have hstart : s.cursor = r.start := heq.trans hchain.1.symm
      by_cases hne : r.padding = 0
      · rw [← htodo]
        exact h.found_body htodo (hstart.trans (by rw [body, hne, add_zero]))
      · have hpad := (h.holds r hr).padding hne hstart.le
        rw [hstart, hpad]
        split_ifs with hstage
        · refine .nothing (.inr message_zero) fun t rest' heq' => ?_
          obtain ⟨rfl, -⟩ := List.cons.inj heq'
          rw [hstage]
          simp
        · exact .padding r rest rfl hstart hne hstage rfl
  · exact h.found_body htodo heq

omit h

/-! ### Skipping, delivering, clearing -/

theorem Reservation.Valid.length_padHeader (h : r.Valid size) : length r.padHeader = r.padding - headerSize := by
  have hlt := h.padding_lt
  have hle := h.writable.room_le_word
  rw [padHeader, length_makeHeader _ (by unfold headerSize; omega), if_neg Bool.false_ne_true, add_zero]

section
variable (hb : BufferSize size)
include h hb

/-- The reader skips padding: it is behind it at the end of the buffer. -/
theorem Inv.skip (htodo : todo = r :: rest) (hcursor : s.cursor = r.start)
    (hstage : s.stage r ≠ .reserved) (hcell : s.cursor % size = s.head % size + s.reader.advance) (limit count : ℕ) :
    Inv size origin { s with reader := loop size limit s.head (s.reader.advance + r.padding) count } done todo p := by
  have hr : r ∈ todo := htodo ▸ mem_cons_self
  have hvalid := h.valid r (h.mem_todo hr)
  have hend := hvalid.start_le hb
  rw [← hcursor, hcell] at hend
  have hc : s.cursor = s.head + s.reader.advance := rfl
  refine h.setReader rfl h.chain_done h.chain_todo (List.Subset.refl _) h.done_finished h.delivered ?_
    (at_loop hb (by omega)) ?_ loop_ne_storeHead
    fun _ _ _ _ _ _ heq => absurd heq (loop_ne_handle _ _ _ _ _ _)
  · rw [advance_loop]
    omega
  · refine .inr ⟨r, rest, htodo, ?_, hstage⟩
    rw [advance_loop, body]
    omega

theorem Inv.deliver (htodo : todo = r :: rest) (hcursor : s.cursor = r.body)
    (hstage : s.stage r = .finished) (hcell : s.cursor % size = s.head % size + s.reader.advance) (limit count : ℕ) :
    Inv size origin { s with
      reader := loop size limit s.head (s.reader.advance + r.item.room) count
      delivered := s.delivered ++ [r.item] } (done ++ [r]) rest r.stop := by
  subst htodo
  have hvalid := h.valid r (h.mem_todo mem_cons_self)
  have hend := hvalid.body_le
  rw [← hcursor, hcell] at hend
  have hc : s.cursor = s.head + s.reader.advance := rfl
  have hstop : s.head + (s.reader.advance + r.item.room) = r.stop := by
    rw [stop]
    omega
  refine h.setReader (append_cons done r rest) ?_ h.chain_todo.2 (subset_cons_self r rest) ?_ ?_ ?_
    (at_loop hb (by omega)) ?_ loop_ne_storeHead
    fun _ _ _ _ _ _ heq => absurd heq (loop_ne_handle _ _ _ _ _ _)
  · exact Chain.append_iff.2 ⟨p, h.chain_done, h.chain_todo.1, rfl⟩
  · exact forall_mem_append.2 ⟨h.done_finished, forall_mem_singleton.2 hstage⟩
  · rw [h.delivered, map_append]
    rfl
  · rw [advance_loop]
    omega
  · rw [advance_loop]
    exact .inl hstop

omit hb in
/-- Clearing what has been read. -/
theorem Inv.clear (hreader : s.reader = .clear s.head advance) (hle : s.head % size + advance ≤ size) :
    Inv size origin { s with reader := .storeHead s.head advance, mem := s.mem.clear (s.head % size) advance }
      done todo p := by
  have hc : s.cursor = s.head + advance := by rw [State.cursor, hreader, Reader.advance]
  have hwin := h.cursor_le_tail
  have htail := h.tail_le
  have hlen : (List.replicate advance (0 : UInt8)).length = advance := length_replicate
  have hsame : ∀ x, s.cursor ≤ x → x < s.head + size →
      (s.mem.clear (s.head % size) advance).ring size x = s.mem.ring size x := fun x hx hx' =>
    Mem.ring_write_of_not (h := s.head) (by rwa [hlen]) le_rfl (by omega) (by omega) hx' (by omega)
  have hcursor : State.cursor
      { s with reader := .storeHead s.head advance, mem := s.mem.clear (s.head % size) advance } = s.cursor := hc.symm
  refine ⟨h.split, h.chain_done, h.chain_todo, h.valid, h.head_aligned, h.tail_aligned, h.cache_le, h.tail_le,
    h.placed, h.working, h.finished_iff, h.finished_lt, h.delivered, h.done_finished,
    ⟨rfl, Nat.le_sub_of_add_le' hle⟩, hcursor ▸ h.cursor,
    fun r hr => ?_, fun x hx hx' => ?_, fun hd adv hrd x hx hx' => ?_, nofun⟩
  · have hmem := h.mem_todo hr
    rw [hcursor]
    refine (h.holds r hr).congr (fun w hw => h.written_le hmem hw) (h.cursor_le_body hr)
      fun x hx _ hxe => hsame x hx ?_
    have hbound := (h.chain_todo.bounds hr).2
    omega
  · exact (hsame x (hwin.trans hx) hx').trans (h.zero x hx hx')
  · obtain ⟨t, rfl⟩ := Nat.exists_eq_add_of_le hx
    have ht : t < advance := by simp only at hx'; omega
    exact (Mem.ring_write_of_mem (by rwa [hlen]) (by rwa [hlen])).trans (getD_replicate _ ht)

theorem Inv.release (hreader : s.reader = .storeHead s.head advance) :
    Inv size origin { s with reader := .idle, head := s.head + advance } done todo p := by
  have hc : s.cursor = s.head + advance := by rw [State.cursor, hreader, Reader.advance]
  have hcursor : ({ s with reader := .idle, head := s.head + advance } : State).cursor = s.cursor := hc.symm
  have htail := h.tail_le
  refine ⟨h.split, h.chain_done, h.chain_todo, h.valid, hc ▸ h.cursor_aligned hb, h.tail_aligned,
    h.cache_le.trans (Nat.le_add_right _ _), ?_, fun i => (h.placed i).mono (Nat.le_add_right _ _) le_rfl, h.working,
    h.finished_iff, h.finished_lt, h.delivered, h.done_finished, trivial, hcursor ▸ h.cursor, fun r hr => ?_,
    fun x hx hx' => ?_, nofun, nofun⟩
  · show s.tail ≤ s.head + advance + size
    omega
  · rw [hcursor]
    exact h.holds r hr
  · -- a position in the room given back is one lap behind a position that has been cleared
    rcases lt_or_ge x (s.head + size) with hlt | hge
    · exact h.zero x hx hlt
    · obtain ⟨y, rfl⟩ := Nat.exists_eq_add_of_le' (le_of_add_le_right hge)
      have hy : s.head ≤ y := by omega
      have hy' : y < s.cursor := by
        have : y + size < s.head + advance + size := hx'
        omega
      have hzero := h.cleared s.head advance hreader y hy hy'
      rw [Mem.ring, Nat.add_mod_right]
      exact hzero

end

/-! ### All steps of the reader -/

theorem Inv.cursor_mod (hadvance : s.reader.advance = advance) (hlt : advance < size - s.head % size) :
    s.cursor % size = s.head % size + advance := by
  rw [State.cursor, hadvance]
  exact Mem.mod_add_lt (by omega)

variable {m : ℕ}
include h

/-- The end of a call that finds nothing more to read. -/
theorem Inv.stop (hadvance : s.reader.advance = advance) (hlt : advance < size - s.head % size) :
    Inv size origin { s with reader := if advance > 0 then .clear s.head advance else .idle } done todo p := by
  split_ifs with hpos
  · exact h.keepReader hadvance.symm ⟨rfl, hlt.le⟩ (by simp) (by simp)
  · exact h.keepReader (by rw [hadvance]; exact (Nat.eq_zero_of_not_pos hpos).symm) trivial (by simp) (by simp)

/-- Reading a header moves the reader and changes nothing else. If the next message is finished, then the reader
has found it, or it has come to the end of the padding before it. -/
theorem Inv.readHeader (hb : BufferSize size)
    (hrd : s.reader = .readHeader limit s.head advance count) (hlt : advance < size - s.head % size) :
    ∃ rd, s.stepReader size = { s with reader := rd } ∧ Inv size origin { s with reader := rd } done todo p ∧
      ∀ r rest, todo = r :: rest → s.stage r = .finished →
        (∃ m len, rd = .handle limit s.head advance count m len) ∨
        (s.cursor < r.body ∧ ∃ advance', rd = .clear s.head advance' ∧ s.head + advance' = r.body) := by
  have hadvance : s.reader.advance = advance := by rw [hrd, Reader.advance]
  have hcell := Inv.cursor_mod hadvance hlt
  have hc : s.cursor = s.head + advance := by rw [State.cursor, hadvance]
  simp only [State.stepReader, hrd, hb.index_eq, ← hcell]
  by_cases hcross : s.cursor % size + 8 > size
  · -- the buffer is smaller than a header, and the reader is at its start
    have hsmall : size < 8 := Nat.lt_of_not_ge fun hsize => absurd (h.header_le hb hsize) (by omega)
    have hzero : advance = 0 := by
      have := h.cursor_aligned hb
      have := h.head_aligned
      omega
    rw [if_pos hcross]
    refine ⟨.failed, rfl, h.keepReader (hadvance.trans hzero).symm hsmall (by simp) (by simp), ?_⟩
    intro r rest htodo _
    have hlarge := (h.valid r (h.mem_todo (htodo ▸ mem_cons_self))).writable.sixteen_le
    omega
  · rw [if_neg hcross, Mem.read64_ring (by omega)]
    cases h.found (by omega) with
    | nothing hstop hnext =>
      rw [if_pos hstop]
      refine ⟨_, rfl, h.stop hadvance hlt, fun r rest htodo hstage => absurd hstage (hnext r rest htodo)⟩
    | padding r rest htodo hcursor hne hstage hheader =>
      have hvalid := h.valid r (h.mem_todo (htodo ▸ mem_cons_self))
      have hmsg : message r.padHeader = msgPad := message_makeHeader _ _ _
      have hless := hvalid.padding_lt
      have hword := hvalid.writable.room_le_word
      have hskip := h.skip hb htodo hcursor hstage (hadvance.symm ▸ hcell) limit count
      have hend : size - s.head % size = advance + r.padding := by
        have hfull := hvalid.padding_eq.resolve_left hne
        rw [← hcursor, hcell] at hfull
        omega
      rw [hadvance] at hskip
      rw [hheader, hmsg, hvalid.length_padHeader, if_neg, if_pos rfl,
        show headerSize + (r.padding - headerSize) = r.padding by unfold headerSize; omega]
      · refine ⟨_, rfl, hskip, fun t rest' htodo' _ => .inr ?_⟩
        obtain ⟨rfl, -⟩ := List.cons.inj (htodo.symm.trans htodo')
        refine ⟨by rw [hcursor, body]; omega, advance + r.padding, ?_, by rw [body]; omega⟩
        simp only [loop, hb.index_eq]
        rw [if_neg (by omega), if_pos (by omega)]
      · unfold pendingWriteFlag headerSize
        exact fun hor => hor.elim (fun hge => by omega) (fun hnone => absurd hnone (by decide))
    | finished r rest htodo hcursor hstage hheader =>
      have hvalid := h.valid r (h.mem_todo (htodo ▸ mem_cons_self))
      have hlen : length (r.header false) = r.item.data.length := by
        rw [header, length_makeHeader _ hvalid.length_lt]
        rfl
      have hmsg : message (r.header false) = r.item.m := message_makeHeader _ _ _
      have hmin := hvalid.writable.1
      have hmax := hvalid.writable.2.1
      have hshort := hvalid.length_lt
      rw [hheader, hmsg, hlen, if_neg, if_neg]
      · refine ⟨_, rfl, h.keepReader hadvance.symm ⟨rfl, hlt⟩ (by simp) ?_, fun _ _ _ _ => .inl ⟨_, _, rfl⟩⟩
        intro limit' hd' advance' count' m len heq
        cases heq
        exact ⟨r, rest, htodo, hcursor, hstage, rfl, rfl⟩
      · unfold msgPad
        unfold msgMax at hmax
        omega
      · unfold pendingWriteFlag msgNone
        unfold msgMin at hmin
        omega

theorem Inv.handle (hb : BufferSize size) {len : ℕ}
    (hrd : s.reader = .handle limit s.head advance count m len) (hlt : advance < size - s.head % size) :
    ∃ r rest rd, todo = r :: rest ∧
      s.stepReader size = { s with reader := rd, delivered := s.delivered ++ [r.item] } ∧
      Inv size origin { s with reader := rd, delivered := s.delivered ++ [r.item] } (done ++ [r]) rest r.stop := by
  obtain ⟨r, rest, htodo, hcursor, hstage, rfl, rfl⟩ := h.handled _ _ _ _ _ _ hrd
  have hr : r ∈ todo := htodo ▸ mem_cons_self
  have hadvance : s.reader.advance = advance := by rw [hrd, Reader.advance]
  have hcell := Inv.cursor_mod hadvance hlt
  have hend := (h.valid r (h.mem_todo hr)).body_le
  have hroom := r.item.length_add_eight_le_room
  rw [← hcursor] at hend
  have hread : s.mem.read (s.cursor % size + headerSize) r.item.data.length = r.item.data := by
    have hdata := ((h.holds r hr).finished hstage).2
    rw [← hcursor] at hdata
    refine (Mem.read_congr fun k hk => ?_).trans hdata
    unfold headerSize
    rw [Mem.ring, add_assoc, add_assoc, Mem.mod_add_lt (by omega)]
  have hdeliver := h.deliver hb htodo hcursor hstage (hadvance.symm ▸ hcell) limit (count + 1)
  refine ⟨r, rest, _, htodo, ?_, hdeliver⟩
  simp only [State.stepReader, hrd, hb.index_eq]
  rw [← hcell, hread, if_neg]
  · rfl
  · show ¬s.head % size + (advance + r.item.room) > size
    omega

theorem Inv.stepReader (hb : BufferSize size) :
    ∃ done' todo' p', Inv size origin (s.stepReader size) done' todo' p' := by
  have hat := h.reader
  have hmod := Nat.mod_lt s.head hb.pos
  cases hrd : s.reader with
  | idle | failed =>
    simp only [State.stepReader, hrd]
    exact ⟨done, todo, p, h⟩
  | loadHead limit =>
    simp only [State.stepReader, hrd]
    refine ⟨done, todo, p, h.keepReader ?_ (at_loop hb (Nat.zero_le _)) loop_ne_storeHead
      fun _ _ _ _ _ _ heq => absurd heq (loop_ne_handle _ _ _ _ _ _)⟩
    rw [advance_loop, hrd]
    rfl
  | readHeader limit hd advance count =>
    rw [hrd] at hat
    obtain ⟨rfl, hlt⟩ := hat
    obtain ⟨rd, heq, hinv, -⟩ := h.readHeader hb hrd hlt
    exact ⟨done, todo, p, heq ▸ hinv⟩
  | handle limit hd advance count m len =>
    rw [hrd] at hat
    obtain ⟨rfl, hlt⟩ := hat
    obtain ⟨r, rest, rd, -, heq, hinv⟩ := h.handle hb hrd hlt
    exact ⟨_, _, _, heq ▸ hinv⟩
  | clear hd advance =>
    rw [hrd] at hat
    obtain ⟨rfl, hle⟩ := hat
    simp only [State.stepReader, hrd, hb.index_eq, if_neg (show ¬s.head % size + advance > size by omega)]
    exact ⟨done, todo, p, h.clear hrd (by omega)⟩
  | storeHead hd advance =>
    rw [hrd] at hat
    obtain ⟨rfl, -⟩ := hat
    simp only [State.stepReader, hrd]
    exact ⟨done, todo, p, h.release hb hrd⟩

omit h

/-! ### Whole runs -/

/-- No writer that takes a step holds an offset that has fallen behind the tail by more than a word can tell. -/
def State.Fresh (s : State) : Action → Prop
  | .writer i _ _ => (s.writers i).Fresh s.tail
  | _ => True

instance (s : State) (a : Action) : Decidable (s.Fresh a) := by cases a <;> unfold State.Fresh <;> infer_instance

theorem inv_init (haligned : 8 ∣ origin) : Inv size origin (init origin) [] [] origin := by
  refine ⟨rfl, rfl, rfl, nofun, haligned, haligned, le_rfl, Nat.le_add_right _ _, fun i => trivial,
    fun i => trivial, nofun, nofun, rfl, nofun, trivial,
    .inl rfl, nofun, fun _ _ _ => rfl, nofun,
    nofun⟩

include h

theorem Inv.next (hb : BufferSize size) (hfresh : s.Fresh a) :
    ∃ done' todo' p', Inv size origin (step size s a) done' todo' p' := by
  cases a with
  | prepare i item wait =>
    simp only [step]
    split_ifs with hidle
    · exact ⟨done, todo, p, h.setWriter (by rw [hidle.1]; rfl) rfl h.cache_le hidle.2 trivial⟩
    · exact ⟨done, todo, p, h⟩
  | writer i spurious chunk =>
    obtain ⟨todo', h'⟩ := h.stepWriter hb hfresh spurious chunk
    exact ⟨done, todo', p, h'⟩
  | read limit =>
    simp only [step]
    split_ifs with hidle
    · exact ⟨done, todo, p, h.keepReader (by rw [hidle]; rfl) trivial (by simp) (by simp)⟩
    · exact ⟨done, todo, p, h⟩
  | reader => exact h.stepReader hb

omit h

theorem inv_run (hb : BufferSize size) (haligned : 8 ∣ origin) {actions : List Action}
    (hfresh : Runs.Along (step size) State.Fresh (init origin) actions) :
    ∃ done todo p, Inv size origin (run size (init origin) actions) done todo p :=
  Runs.exec_induction (I := fun s => ∃ done todo p, Inv size origin s done todo p)
    (fun _ _ ⟨_, _, _, h⟩ ha => h.next hb ha) ⟨[], [], origin, inv_init haligned⟩ hfresh

end Ccf.RingBuffer
