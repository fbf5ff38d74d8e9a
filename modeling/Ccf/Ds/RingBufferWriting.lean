import Ccf.Ds.RingBufferInvariant

/-! # The steps of a writer

A step before the exchange of the tail changes nothing but the writer and the cached head; the exchange adds a
reservation in memory that is zero; every later step writes into the reservation of the writer and takes it
to the next stage. -/

namespace Ccf.RingBuffer

open State List

variable {size origin : ℕ} {s : State} {done todo : List Reservation} {p : ℕ} {i : ℕ} {w : Writer}

/-! ### Steps that write nothing -/

@[simp] theorem State.setWriter_writers (s : State) (i : ℕ) (w : Writer) : (s.setWriter i w).writers i = w :=
  Function.update_self _ _ _

theorem State.forall_setWriter {P : ℕ → Writer → Prop} (hi : P i w) (h : ∀ j, P j (s.writers j)) :
    ∀ j, P j ((s.setWriter i w).writers j) :=
  (Function.forall_update_iff s.writers P).2 ⟨hi, fun j _ => h j⟩

/-- The stages are kept when a writer goes on that has no reservation before or after. -/
theorem State.stage_setWriter (hold : (s.writers i).progress = none) (hnew : w.progress = none)
    (r : Reservation) : (s.setWriter i w).stage r = s.stage r := by
  by_cases hi : r.writer = i
  · rw [stage, stage, hi, setWriter_writers, Writer.stage_of_none hnew, Writer.stage_of_none hold]
  · exact congrArg (Writer.stage · r.start) (Function.update_of_ne hi _ _)

variable (h : Inv size origin s done todo p)
include h

theorem Inv.setWriter {cache : ℕ}
    (hold : (s.writers i).progress = none) (hnew : w.progress = none) (hcache : cache ≤ s.head)
    (hplaced : w.Placed size s.head s.tail) (hworking : w.Working size s.reservations i) :
    Inv size origin { s.setWriter i w with headCache := cache } done todo p := by
  have hstage : ∀ r, ({ s.setWriter i w with headCache := cache } : State).stage r = s.stage r :=
    stage_setWriter hold hnew
  exact { h with
    cache_le := hcache
    placed := forall_setWriter hplaced h.placed
    working := forall_setWriter hworking h.working
    finished_iff := fun r hr => by rw [hstage]; exact h.finished_iff r hr
    done_finished := fun r hr => by rw [hstage]; exact h.done_finished r hr
    cursor := by simp only [hstage]; exact h.cursor
    holds := fun r hr => by rw [hstage]; exact h.holds r hr
    handled := by simp only [hstage]; exact h.handled }

omit h

/-! ### The exchange of the tail -/

namespace Writer

variable (job : Job) (hd tl tlIndex padding : ℕ) {rs : List Reservation}

theorem progress_place : (place size job hd tl).progress = none := by
  simp only [place]
  split_ifs <;> rfl

theorem progress_attempt : (attempt size job hd tl tlIndex padding).progress = none := by
  simp only [attempt]
  split_ifs
  · rfl
  · exact progress_place job hd tl

theorem progress_noRoom : (noRoom job).progress = none := by
  unfold noRoom
  split_ifs <;> rfl

theorem working_place : (place size job hd tl).Working size rs i := by
  simp only [place]
  split_ifs <;> trivial

theorem working_attempt : (attempt size job hd tl tlIndex padding).Working size rs i := by
  simp only [attempt]
  split_ifs
  · trivial
  · exact working_place job hd tl

theorem working_noRoom : (noRoom job).Working size rs i := by
  unfold noRoom
  split_ifs <;> trivial

end Writer

section reserve

variable {job : Job} {tlIndex padding : ℕ} {r : Reservation}

/-- The stage of a new reservation. -/
def firstStage (padding : ℕ) : Stage := if padding ≠ 0 then .reserved else .padded

theorem State.reserve_progress (s : State) (i : ℕ) (job : Job) (tlIndex padding : ℕ) :
    ((s.reserve i job tlIndex padding).writers i).progress = some (s.tail, firstStage padding) := by
  simp only [reserve, setWriter_writers, firstStage]
  split_ifs <;> rfl

theorem State.stage_reserve_new : (s.reserve i job tlIndex padding).stage ⟨i, job.item, s.tail, padding⟩ =
    firstStage padding :=
  Writer.stage_of_some (s.reserve_progress i job tlIndex padding)

theorem State.stage_reserve (hold : (s.writers i).progress = none) (hr : r.start < s.tail) :
    (s.reserve i job tlIndex padding).stage r = s.stage r := by
  by_cases hi : r.writer = i
  · rw [stage, stage, hi, Writer.stage_of_none hold,
      Writer.stage_of_ne (s.reserve_progress i job tlIndex padding) hr.ne']
  · exact congrArg (Writer.stage · r.start) (Function.update_of_ne hi _ _)

theorem Room.valid (hb : BufferSize size) {hd tl : ℕ} (hjob : job.item.Writable size) (haligned : 8 ∣ tl)
    (hroom : Room size hd tl padding job.item.room) : Reservation.Valid size ⟨i, job.item, tl, padding⟩ := by
  refine ⟨hjob, haligned, ?_, ?_, ?_⟩
  · rcases hroom.shape with ⟨hp, -⟩ | ⟨hp, -⟩
    · exact .inl hp
    · exact .inr hp
  · rcases hroom.shape with ⟨rfl, -⟩ | ⟨-, hlt, -⟩
    · have hle := job.item.length_add_eight_le_room
      show 0 < job.item.room
      omega
    · exact hlt
  · rcases hroom.shape with ⟨rfl, hle⟩ | ⟨rfl, -, hle⟩
    · exact hle
    · show (tl + (size - tl % size)) % size + job.item.room ≤ size
      rw [add_back_mod hb.pos, zero_add]
      exact hle

/-- A new reservation lies in memory that is zero. -/
theorem holds_zero {ring : Mem} {cursor : ℕ} {stage : Stage} (hzero : ∀ x, r.start ≤ x → x < r.stop → ring x = 0)
    (hstage : stage = firstStage r.padding) : r.Holds ring cursor stage := by
  have hstop := r.body_add_le_stop
  have hbody : r.body = r.start + r.padding := rfl
  have hread : ring.read64 r.body = 0 := Mem.read64_zero fun k hk => hzero _ (by omega) (by omega)
  unfold firstStage at hstage
  refine ⟨fun hne _ => ?_, fun _ => hread, fun w hw => ?_, fun hf => ?_⟩
  · rw [if_pos hne] at hstage
    rw [if_pos hstage]
    exact Mem.read64_zero fun k hk => hzero _ (by omega) (by omega)
  · rw [hw] at hstage
    split_ifs at hstage
  · rw [hf] at hstage
    split_ifs at hstage

include h

theorem Inv.reserve (hb : BufferSize size) (hold : (s.writers i).progress = none)
    (hjob : job.item.Writable size) (hindex : tlIndex = s.tail % size)
    (hroom : Room size s.head s.tail padding job.item.room) :
    Inv size origin (s.reserve i job tlIndex padding) done (todo ++ [⟨i, job.item, s.tail, padding⟩]) p := by
  have hvalid := hroom.valid (i := i) hb hjob h.tail_aligned
  have hstop : Reservation.stop ⟨i, job.item, s.tail, padding⟩ = s.tail + job.item.room + padding := by
    simp only [Reservation.stop, Reservation.body]
    omega
  have hlt : ∀ r ∈ s.reservations, r.start < s.tail := fun r hr =>
    r.start_lt_stop.trans_le (h.chain.bounds hr).2
  have hstage : ∀ r ∈ s.reservations, (s.reserve i job tlIndex padding).stage r = s.stage r :=
    fun r hr => stage_reserve hold (hlt r hr)
  have hfree := hroom.free
  have hgrows : s.tail ≤ (s.reserve i job tlIndex padding).tail := by
    simp only [State.reserve]
    omega
  refine { h with
    split := ?_
    chain_todo := Chain.append_iff.2 ⟨s.tail, h.chain_todo, rfl, hstop⟩
    valid := forall_mem_append.2 ⟨h.valid, forall_mem_singleton.2 hvalid⟩
    tail_aligned := Nat.dvd_add (Nat.dvd_add h.tail_aligned (eight_dvd_room _)) (hvalid.eight_dvd_padding hb)
    tail_le := hroom.free
    placed := forall_setWriter (P := fun _ w => w.Placed ..) ?_ fun j => (h.placed j).mono le_rfl hgrows
    working := forall_setWriter (P := fun j w => w.Working _ _ j) ?_
      fun j => (h.working j).mono (subset_append_left _ _)
    finished_iff := ?_
    finished_lt := fun x hx => (h.finished_lt x hx).trans_le hgrows
    done_finished := fun r hr => ?_
    cursor := ?_
    holds := ?_
    zero := fun x hx hx' => h.zero x (hgrows.trans hx) hx'
    handled := ?_ }
  · rw [← append_assoc, ← h.split]
    rfl
  · split_ifs <;> trivial
  · split_ifs with hp
    · exact ⟨hp, hindex, mem_append_right _ mem_cons_self⟩
    · refine ⟨_, mem_append_right _ mem_cons_self, rfl, rfl, rfl, ?_⟩
      rw [hindex, Reservation.body, not_not.1 hp, add_zero]
  · refine forall_mem_append.2 ⟨fun r hr => ?_, forall_mem_singleton.2 ?_⟩
    · rw [hstage r hr]
      exact h.finished_iff r hr
    · rw [stage_reserve_new]
      refine ⟨fun hx => absurd (h.finished_lt _ hx) (lt_irrefl _), fun hx => ?_⟩
      unfold firstStage at hx
      split_ifs at hx
  · have hr' : r ∈ s.reservations := h.split ▸ mem_append_left _ hr
    rw [hstage r hr']
    exact h.done_finished r hr
  · rcases h.cursor with heq | ⟨r, rest, htodo, heq, hne⟩
    · exact .inl heq
    · refine .inr ⟨r, rest ++ [⟨i, job.item, s.tail, padding⟩], ?_, heq, ?_⟩
      · rw [htodo, cons_append]
      · rw [hstage r (h.mem_todo (htodo ▸ mem_cons_self))]
        exact hne
  · refine forall_mem_append.2 ⟨fun r hr => ?_, forall_mem_singleton.2 ?_⟩
    · rw [hstage r (h.mem_todo hr)]
      exact h.holds r hr
    · rw [stage_reserve_new]
      exact holds_zero (fun x hx hx' => h.zero x hx (by omega)) rfl
  · intro limit hd advance count m len hreader
    obtain ⟨r, rest, htodo, hcursor, hfinished, hm, hlen⟩ := h.handled limit hd advance count m len hreader
    refine ⟨r, rest ++ [⟨i, job.item, s.tail, padding⟩], ?_, hcursor, ?_, hm, hlen⟩
    · rw [htodo, cons_append]
    · rw [hstage r (h.mem_todo (htodo ▸ mem_cons_self))]
      exact hfinished

omit h

end reserve

/-! ### Writing into a reservation -/

section write

variable {r r' : Reservation} {a chunk : ℕ} {bytes : List UInt8} {stage : Stage}
  {finished : List ℕ}

/-- The state after writer `i` has written into memory. -/
def State.written (s : State) (size i a : ℕ) (bytes : List UInt8) (w : Writer) (finished : List ℕ) : State :=
  { s.setWriter i w with mem := s.mem.write (a % size) bytes, finished := finished }

theorem State.store_eq {next : Writer} (hcross : a % size + bytes.length ≤ size) :
    s.store size i (a % size) bytes next = s.written size i a bytes next s.finished := by
  rw [store, if_neg (by omega)]
  rfl

theorem State.stage_written_of_ne (hold : (s.writers i).progress = some (r.start, stage))
    (hother : ∀ start, start ≠ r.start → w.stage start = .finished) (hne : r'.start ≠ r.start) :
    (s.written size i a bytes w finished).stage r' = s.stage r' := by
  by_cases hi : r'.writer = i
  · rw [State.stage, State.stage, hi, Writer.stage_of_ne hold hne.symm]
    exact (congrArg (fun w => w.stage r'.start) (setWriter_writers s i w)).trans (hother _ hne)
  · exact congrArg (Writer.stage · r'.start) (Function.update_of_ne hi _ _)

variable {v x n : ℕ}
include h

/-- A write into the reservation of the writer takes it to another stage and is not seen elsewhere. -/
theorem Inv.write (hr : r ∈ todo) (hi : r.writer = i)
    (hold : (s.writers i).progress = some (r.start, stage)) (hstage : stage ≠ .finished)
    (hother : ∀ start, start ≠ r.start → w.stage start = .finished) (hnew : w.stage r.start ≠ .reserved)
    (hcursor : s.cursor ≤ a) (hstart : r.start ≤ a) (hstop : a + bytes.length ≤ r.stop)
    (hcross : a % size + bytes.length ≤ size)
    (hfinished : ∀ x, x ∈ finished ↔ x ∈ s.finished ∨ (w.stage r.start = .finished ∧ x = r.start))
    (hplaced : w.Placed size s.head s.tail) (hworking : w.Working size s.reservations i)
    (hholds : r.Holds ((s.mem.write (a % size) bytes).ring size) s.cursor (w.stage r.start)) :
    Inv size origin (s.written size i a bytes w finished) done todo p := by
  have hmem := h.mem_todo hr
  have hrtail := (h.chain.bounds hmem).2
  have htail := h.tail_le
  have hhead := Inv.head_le_cursor s
  -- everything of the window but the written bytes looks as before
  have hsame : ∀ x, s.head ≤ x → x < s.head + size → x < a ∨ a + bytes.length ≤ x →
      (s.mem.write (a % size) bytes).ring size x = s.mem.ring size x := fun x hx hx' hout =>
    Mem.ring_write_of_not hcross (hhead.trans hcursor) (by omega) hx hx' hout
  have hself : (s.written size i a bytes w finished).stage r = w.stage r.start := by
    rw [State.stage, hi]
    exact congrArg (fun w => w.stage r.start) (setWriter_writers s i w)
  have hrest : ∀ r' ∈ s.reservations, r' ≠ r →
      (s.written size i a bytes w finished).stage r' = s.stage r' := fun r' hr' hne =>
    stage_written_of_ne hold hother fun heq => hne (h.chain.eq_of_start hr' hmem heq)
  have hsold : s.stage r = stage := by
    rw [State.stage, hi]
    exact Writer.stage_of_some hold
  refine { h with
    placed := forall_setWriter hplaced h.placed
    working := forall_setWriter hworking h.working
    finished_iff := fun r' hr' => ?_
    finished_lt := fun x hx => ?_
    done_finished := fun r' hr' => ?_
    cursor := ?_
    holds := fun r' hr' => ?_
    zero := fun x hx hx' => ?_
    cleared := fun hd advance hreader x hx hx' => ?_
    handled := ?_ }
  · refine (hfinished r'.start).trans ?_
    by_cases heq : r' = r
    · subst heq
      rw [hself, h.finished_iff r' hmem, hsold]
      exact ⟨fun hor => hor.elim (fun hf => absurd hf hstage) And.left, fun hf => .inr ⟨hf, rfl⟩⟩
    · have hne : r'.start ≠ r.start := fun hs => heq (h.chain.eq_of_start hr' hmem hs)
      rw [hrest r' hr' heq, h.finished_iff r' hr']
      exact ⟨fun hor => hor.elim id fun hf => absurd hf.2 hne, .inl⟩
  · rcases (hfinished x).1 hx with hx | ⟨-, rfl⟩
    · exact h.finished_lt x hx
    · exact r.start_lt_stop.trans_le hrtail
  · have hr'' : r' ∈ s.reservations := h.split ▸ mem_append_left _ hr'
    have hfin := h.done_finished r' hr'
    rw [hrest r' hr'' fun heq => hstage (hsold.symm.trans (heq ▸ hfin))]
    exact hfin
  · rcases h.cursor with heq | ⟨t, rest, htodo, heq, hne⟩
    · exact .inl heq
    · refine .inr ⟨t, rest, htodo, heq, ?_⟩
      by_cases htr : t = r
      · rw [htr, hself]
        exact hnew
      · rw [hrest t (h.mem_todo (htodo ▸ mem_cons_self)) htr]
        exact hne
  · have hr'' := h.mem_todo hr'
    by_cases heq : r' = r
    · rw [heq, hself]
      exact hholds
    · rw [hrest r' hr'' heq]
      refine (h.holds r' hr').congr (fun w hw => h.written_le hr'' hw)
        (h.cursor_le_body hr') fun x hx hxs hxe => hsame x (hhead.trans hx) ?_ ?_
      · have := (h.chain.bounds hr'').2
        omega
      · rcases h.chain.apart hr'' hmem with heq' | hbefore | hafter
        · exact absurd heq' heq
        · omega
        · omega
  · exact (hsame x (h.head_le_tail.trans hx) hx' (by simp only [State.written, State.setWriter] at hx; omega)).trans
      (h.zero x hx hx')
  · have hx'' : x < s.cursor := hx'
    exact (hsame x hx (by omega) (by omega)).trans (h.cleared hd advance hreader x hx hx')
  · intro limit hd advance count m len hreader
    obtain ⟨t, rest, htodo, heq, hfin, hm, hlen⟩ := h.handled limit hd advance count m len hreader
    refine ⟨t, rest, htodo, heq, ?_, hm, hlen⟩
    rw [hrest t (h.mem_todo (htodo ▸ mem_cons_self)) fun htr => hstage (hsold.symm.trans (htr ▸ hfin))]
    exact hfin

omit h

theorem read64_ring_write {mem : Mem} (hv : v < 2 ^ 64) (hcross : a % size + 8 ≤ size) :
    ((mem.write (a % size) (leBytes 8 v)).ring size).read64 a = v := by
  refine Mem.read64_leBytes hv fun k hk => ?_
  rw [Mem.ring_write_of_mem (by rwa [length_leBytes]) (by rwa [length_leBytes])]

include h

/-- Positions of the reservation outside of a write into it are read as before. -/
theorem Inv.read_same (hr : r ∈ todo) (hcursor : s.cursor ≤ a) (hstop : a + bytes.length ≤ r.stop)
    (hcross : a % size + bytes.length ≤ size) (hx : s.cursor ≤ x) (hxe : x + n ≤ r.stop)
    (hout : x + n ≤ a ∨ a + bytes.length ≤ x) :
    ((s.mem.write (a % size) bytes).ring size).read x n = (s.mem.ring size).read x n := by
  have hrtail := (h.chain_todo.bounds hr).2
  have htail := h.tail_le
  have hhead := Inv.head_le_cursor s
  refine Mem.read_congr fun k hk => ?_
  exact Mem.ring_write_of_not hcross (hhead.trans hcursor) (by omega) (by omega) (by omega) (by omega)

theorem Inv.read64_same (hr : r ∈ todo) (hcursor : s.cursor ≤ a)
    (hstop : a + bytes.length ≤ r.stop) (hcross : a % size + bytes.length ≤ size) (hx : s.cursor ≤ x)
    (hxe : x + 8 ≤ r.stop) (hout : x + 8 ≤ a ∨ a + bytes.length ≤ x) :
    ((s.mem.write (a % size) bytes).ring size).read64 x = (s.mem.ring size).read64 x :=
  congrArg ofLeBytes (h.read_same hr hcursor hstop hcross hx hxe hout)

omit h

variable {job : Job} {start : ℕ}

include h

theorem Inv.working_of (hw : s.writers i = w) : w.Working size s.reservations i :=
  hw ▸ h.working i

variable (hb : BufferSize size)
include hb

theorem Inv.store_padding {tlIndex padding : ℕ} (hw : s.writers i = .writePadding job start tlIndex padding) :
    Inv size origin (s.store size i tlIndex (leBytes 8 (makeHeader msgPad (padding - headerSize) false))
      (.writeHeader job start 0)) done todo p := by
  obtain ⟨hne, rfl, hmem⟩ := h.working_of hw
  let r : Reservation := ⟨i, job.item, start, padding⟩
  have hprogress : (s.writers i).progress = some (r.start, .reserved) := by rw [hw]; rfl
  have hstage : s.stage r = .reserved := Writer.stage_of_some hprogress
  have hr : r ∈ todo := h.todo_of_stage hmem (by rw [hstage]; exact nofun)
  have hvalid := h.valid r hmem
  have hpad : 8 ≤ r.padding := h.eight_le_padding hb hmem hne
  have hcross : r.start % size + 8 ≤ size := by
    have := hvalid.start_le hb
    omega
  have hbody : r.body = r.start + r.padding := rfl
  have hstop := r.body_add_le_stop
  have hbody0 : r.body % size = 0 := by
    rw [hbody, hvalid.padding_eq.resolve_left hne, add_back_mod hb.pos]
  have hcursor := h.cursor_le_start hr hstage
  have hwstage : (Writer.writeHeader job start 0).stage r.start = .padded := Writer.stage_of_some rfl
  rw [store_eq (a := r.start) (by rwa [length_leBytes])]
  refine h.write hr rfl hprogress nofun (fun st hst => Writer.stage_of_ne rfl hst.symm)
    (by rw [hwstage]; exact nofun) hcursor le_rfl (by rw [length_leBytes]; omega)
    (by rwa [length_leBytes]) (fun x => ?_) trivial ⟨r, hmem, rfl, rfl, rfl, hbody0.symm⟩ ?_
  · rw [hwstage]
    exact ⟨.inl, fun hx => hx.elim id fun hf => by cases hf.1⟩
  · rw [hwstage]
    refine ⟨fun _ _ => ?_, fun _ => ?_, nofun, nofun⟩
    · exact read64_ring_write (makeHeader_lt (by decide) _ _) hcross
    · rw [h.read64_same hr hcursor (by rw [length_leBytes]; omega) (by rwa [length_leBytes]) (by omega)
        (by omega) (by rw [length_leBytes]; omega)]
      exact (h.holds r hr).unwritten (.inl hstage)

/-- A step of a writer that is past the padding of its reservation: what it writes lies in the message. -/
theorem Inv.write_body (hmem : r ∈ s.reservations)
    (hi : r.writer = i) (hold : (s.writers i).progress = some (r.start, stage))
    (hstage : stage ≠ .finished ∧ stage ≠ .reserved)
    (hother : ∀ start, start ≠ r.start → w.stage start = .finished) (hnew : w.stage r.start ≠ .reserved)
    (hstart : r.body ≤ a) (hstop : a + bytes.length ≤ r.stop) (hcross : a % size + bytes.length ≤ size)
    (hfinished : ∀ x, x ∈ finished ↔ x ∈ s.finished ∨ (w.stage r.start = .finished ∧ x = r.start))
    (hplaced : w.Placed size s.head s.tail) (hworking : w.Working size s.reservations i)
    (hbody : r ∈ todo → r.Holds (s.mem.ring size) s.cursor stage → s.cursor ≤ r.body →
      let ring := (s.mem.write (a % size) bytes).ring size
      (w.stage r.start = .padded → ring.read64 r.body = 0) ∧
      (∀ k, w.stage r.start = .pending k → ring.read64 r.body = r.header true ∧
        ring.read (r.body + headerSize) k = r.item.data.take k) ∧
      (w.stage r.start = .finished → ring.read64 r.body = r.header false ∧
        ring.read (r.body + headerSize) r.item.data.length = r.item.data)) :
    Inv size origin (s.written size i a bytes w finished) done todo p := by
  have hsold : s.stage r = stage := by
    rw [State.stage, hi]
    exact Writer.stage_of_some hold
  have hr : r ∈ todo := h.todo_of_stage hmem (hsold ▸ hstage.1)
  have hholds : r.Holds (s.mem.ring size) s.cursor stage := hsold ▸ h.holds r hr
  have hcursor := h.cursor_le_body hr
  obtain ⟨hpadded, hpending, hfin⟩ := hbody hr hholds hcursor
  have hbs : r.body = r.start + r.padding := rfl
  refine h.write hr hi hold hstage.1 hother hnew (hcursor.trans hstart) (by omega) hstop hcross hfinished hplaced
    hworking ⟨fun hne hle => ?_, fun hs => hpadded (hs.resolve_left hnew), hpending, hfin⟩
  have hpad := h.eight_le_padding hb hmem hne
  rw [h.read64_same hr (hcursor.trans hstart) hstop hcross hle (by omega) (by omega), hholds.padding hne hle,
    if_neg hstage.2, if_neg hnew]

omit hb h

variable {index : ℕ}

include h

theorem Inv.store_header (hb : BufferSize size) (hw : s.writers i = .writeHeader job start index) :
    Inv size origin (s.store size i index (leBytes 8 (makeHeader job.item.m job.item.data.length true))
      (.writeData job start index 0)) done todo p := by
  obtain ⟨r, hmem, hi, hitem, rfl, rfl⟩ := h.working_of hw
  have hvalid := h.valid r hmem
  have hstop := r.body_add_le_stop
  have hdata := hvalid.data_le
  have hcross : r.body % size + 8 ≤ size := by omega
  have hstage : (Writer.writeData job r.start (r.body % size) 0).stage r.start = .pending 0 := Writer.stage_of_some rfl
  rw [store_eq (by rwa [length_leBytes]), ← hitem]
  refine h.write_body hb hmem hi (by rw [hw]; rfl) ⟨(by simp), (by simp)⟩
    (fun st hst => Writer.stage_of_ne rfl hst.symm) (by rw [hstage]; simp) le_rfl (by rw [length_leBytes]; omega)
    (by rwa [length_leBytes]) (fun x => ?_) trivial
    ⟨r, hmem, hi, hitem, rfl, rfl, Nat.zero_le _⟩ fun hr hholds hcursor => ?_
  · rw [hstage]
    simp
  · rw [hstage]
    refine ⟨nofun, fun k hk => ?_, nofun⟩
    cases hk
    exact ⟨read64_ring_write (hvalid.header_lt true) hcross, rfl⟩

omit h

theorem take_append_chunk (data : List UInt8) (written chunk : ℕ) :
    data.take written ++ (data.drop written).take chunk =
      data.take (written + ((data.drop written).take chunk).length) := by
  rw [take_add, length_take]
  congr 1
  rcases le_total chunk (data.drop written).length with hle | hle
  · rw [min_eq_left hle]
  · rw [min_eq_right hle, take_of_length_le hle, take_length]

section
variable {written : ℕ}
include h

/-- Reading the message bytes after a chunk has been written behind those that were there. -/
theorem Inv.read_chunk (hr : r ∈ todo) (hcursor : s.cursor ≤ r.body)
    (hdata : (s.mem.ring size).read (r.body + headerSize) written = r.item.data.take written)
    (hbytes : bytes = (r.item.data.drop written).take chunk) (ha : bytes = [] ∨ a = r.body + headerSize + written)
    (hstop : r.body + headerSize + written + bytes.length ≤ r.stop) (hcross : a % size + bytes.length ≤ size) :
    ((s.mem.write (a % size) bytes).ring size).read (r.body + headerSize) (written + bytes.length) =
      r.item.data.take (written + bytes.length) := by
  rcases ha with hnil | rfl
  · rw [hnil, Mem.write_nil, length_nil, add_zero]
    exact hdata
  · have hbefore := h.read_same (x := r.body + headerSize) (n := written) hr (by omega) hstop hcross (by omega)
      (by omega) (.inl le_rfl)
    have hnew : ((s.mem.write ((r.body + headerSize + written) % size) bytes).ring size).read
        (r.body + headerSize + written) bytes.length = bytes :=
      Mem.read_eq fun k hk => Mem.ring_write_of_mem hcross hk
    rw [Mem.read_append, hbefore, hnew, hdata, hbytes, take_append_chunk]

include hb

theorem Inv.write_chunk
    (hw : s.writers i = .writeData job r.start (r.body % size) written) (hmem : r ∈ s.reservations)
    (hi : r.writer = i) (hitem : r.item = job.item) (hwritten : written ≤ r.item.data.length)
    (hbytes : bytes = (r.item.data.drop written).take chunk)
    (ha : r.body ≤ a ∧ (bytes = [] ∨ a = r.body + headerSize + written))
    (hstop : r.body + headerSize + written + bytes.length ≤ r.stop) (hastop : a + bytes.length ≤ r.stop)
    (hcross : a % size + bytes.length ≤ size) : Inv size origin (s.written size i a bytes
      (if written + bytes.length = job.item.data.length then .finishRead job r.start (r.body % size)
        else .writeData job r.start (r.body % size) (written + bytes.length)) s.finished) done todo p := by
  have hchunk : written + bytes.length ≤ r.item.data.length := by
    rw [hbytes, length_take, length_drop]
    omega
  obtain ⟨next, hnext⟩ : ∃ next, next = if written + bytes.length = job.item.data.length
      then .finishRead job r.start (r.body % size)
      else Writer.writeData job r.start (r.body % size) (written + bytes.length) := ⟨_, rfl⟩
  have hprogress : next.progress = some (r.start, .pending (written + bytes.length)) := by
    rw [hnext]
    split_ifs with heq
    · rw [heq]
      rfl
    · rfl
  have hworking : next.Working size s.reservations i := by
    rw [hnext]
    split_ifs
    · exact ⟨r, hmem, hi, hitem, rfl, rfl⟩
    · exact ⟨r, hmem, hi, hitem, rfl, rfl, hchunk⟩
  have hplaced : next.Placed size s.head s.tail := by
    rw [hnext]
    split_ifs <;> trivial
  have hstage : next.stage r.start = .pending (written + bytes.length) := Writer.stage_of_some hprogress
  rw [← hnext]
  refine h.write_body hb hmem hi (by rw [hw]; rfl) ⟨(by simp), (by simp)⟩
    (fun st hst => Writer.stage_of_ne hprogress hst.symm) (by rw [hstage]; simp) ha.1 hastop hcross
    (fun x => ?_) hplaced
    hworking fun hr hholds hcursor => ?_
  · rw [hstage]
    simp
  · rw [hstage]
    refine ⟨nofun, fun k hk => ?_, nofun⟩
    cases hk
    obtain ⟨hheader, hdata⟩ := hholds.pending written rfl
    refine ⟨?_, h.read_chunk hr hcursor hdata hbytes ha.2 hstop hcross⟩
    rcases ha.2 with hnil | rfl
    · rw [hnil, Mem.write_nil]
      exact hheader
    · rw [h.read64_same hr (hcursor.trans ha.1) hastop hcross hcursor (by unfold headerSize at *; omega)
        (by unfold headerSize at *; omega)]
      exact hheader

theorem Inv.store_data (hw : s.writers i = .writeData job start index written) (chunk : ℕ) :
    Inv size origin (s.store size i (index + headerSize + written) ((job.item.data.drop written).take chunk)
      (if written + ((job.item.data.drop written).take chunk).length = job.item.data.length
        then .finishRead job start index
        else .writeData job start index (written + ((job.item.data.drop written).take chunk).length))) done todo p := by
  obtain ⟨r, hmem, hi, hitem, rfl, rfl, hwritten⟩ := h.working_of hw
  have hstop := r.body_add_le_stop
  have hdata := (h.valid r hmem).data_le
  obtain ⟨bytes, hbytes⟩ : ∃ bytes, bytes = (r.item.data.drop written).take chunk := ⟨_, rfl⟩
  have hlen : written + bytes.length ≤ r.item.data.length := by
    rw [hbytes, length_take, length_drop]
    omega
  rw [← hitem, ← hbytes, hitem]
  have hh : headerSize = 8 := rfl
  by_cases hnil : bytes = []
  · have hstate : ∀ next, s.store size i (r.body % size + headerSize + written) bytes next =
        s.written size i r.body bytes next s.finished := by
      intro next
      rw [State.store, hnil, if_neg (by rw [length_nil]; omega), Mem.write_nil, State.written, Mem.write_nil]
      rfl
    rw [hstate]
    refine h.write_chunk hb hw hmem hi hitem hwritten hbytes ⟨le_rfl, .inl hnil⟩ (by omega) (by omega) ?_
    omega
  · have hpos : 0 < bytes.length := length_pos_iff.2 hnil
    have hcell : (r.body + headerSize + written) % size = r.body % size + headerSize + written := by
      rw [add_assoc, Mem.mod_add_lt (by omega), add_assoc]
    rw [← hcell, store_eq (by omega)]
    exact h.write_chunk hb hw hmem hi hitem hwritten hbytes ⟨by omega, .inr rfl⟩ (by omega) (by omega) (by omega)

theorem Inv.finish_read (hw : s.writers i = .finishRead job start index) : index + 8 ≤ size ∧
    Inv size origin (s.setWriter i (.finishWrite job start index (s.mem.read64 index))) done todo p := by
  obtain ⟨r, hmem, hi, hitem, rfl, rfl⟩ := h.working_of hw
  have hdata := (h.valid r hmem).data_le
  have hprogress : (s.writers i).progress = some (r.start, .pending job.item.data.length) := by rw [hw]; rfl
  have hsold : s.stage r = .pending job.item.data.length := by
    rw [stage, hi]
    exact Writer.stage_of_some hprogress
  have hr : r ∈ todo := h.todo_of_stage hmem (by rw [hsold]; simp)
  have hheader : s.mem.read64 (r.body % size) = r.header true := by
    rw [Mem.read64_ring (by omega)]
    exact ((h.holds r hr).pending _ hsold).1
  refine ⟨by omega, ?_⟩
  have hstate : s.setWriter i (.finishWrite job r.start (r.body % size) (s.mem.read64 (r.body % size))) =
      s.written size i r.body [] (.finishWrite job r.start (r.body % size) (s.mem.read64 (r.body % size)))
      s.finished := by
    rw [written, Mem.write_nil]
    rfl
  have hstage : (Writer.finishWrite job r.start (r.body % size) (s.mem.read64 (r.body % size))).stage r.start =
      .pending job.item.data.length := Writer.stage_of_some rfl
  have hstop := r.body_add_le_stop
  rw [hstate]
  refine h.write_body hb hmem hi hprogress ⟨(by simp), (by simp)⟩ (fun st hst => Writer.stage_of_ne rfl hst.symm)
    (by rw [hstage]; simp) le_rfl (by rw [length_nil]; omega) (by rw [length_nil]; omega) (fun x => ?_) trivial
    ⟨r, hmem, hi, hitem, rfl, rfl, hheader⟩ fun _ hholds _ => ?_
  · rw [hstage]
    simp
  · rw [hstage, Mem.write_nil]
    exact ⟨by rintro ⟨⟩, hholds.pending, by rintro ⟨⟩⟩

theorem Inv.finish_write
    {header : ℕ} (hw : s.writers i = .finishWrite job start index header) : index + 8 ≤ size ∧
    Inv size origin { s.store size i index (leBytes 8 (makeHeader (message header) (length header) false)) .idle with
      finished := s.finished ++ [start] } done todo p := by
  obtain ⟨r, hmem, hi, hitem, rfl, rfl, rfl⟩ := h.working_of hw
  have hvalid := h.valid r hmem
  have hdata := hvalid.data_le
  have hstop := r.body_add_le_stop
  have hcross : r.body % size + 8 ≤ size := by omega
  refine ⟨hcross, ?_⟩
  rw [makeHeader_finished _ hvalid.length_lt, store_eq (by rwa [length_leBytes])]
  show Inv size origin (s.written size i r.body (leBytes 8 (r.header false)) .idle (s.finished ++ [r.start]))
      done todo p
  refine h.write_body hb hmem hi (by rw [hw]; rfl) ⟨(by simp), (by simp)⟩ (fun st _ => Writer.stage_of_none rfl)
    (by rw [Writer.stage_of_none rfl]; simp) le_rfl (by rw [length_leBytes]; omega) (by rwa [length_leBytes])
    (fun x => ?_) trivial trivial fun hr hholds hcursor => ?_
  · rw [Writer.stage_of_none rfl]
    simp
  · refine ⟨nofun, nofun, fun _ => ⟨read64_ring_write (hvalid.header_lt false) hcross, ?_⟩⟩
    obtain ⟨-, hdata⟩ := hholds.pending _ rfl
    rw [← hitem, take_length] at hdata
    have hh : headerSize = 8 := rfl
    refine (h.read_same hr hcursor ?_ (by rwa [length_leBytes]) (by omega) ?_ (.inr ?_)).trans hdata
    · rw [length_leBytes]
      omega
    · omega
    · rw [length_leBytes]
      omega

omit hb

end

end write

/-! ### All steps of a writer -/

include h

theorem Inv.stepWriter (hb : BufferSize size) (hfresh : (s.writers i).Fresh s.tail) (spurious : Bool) (chunk : ℕ) :
    ∃ todo', Inv size origin (s.stepWriter size i spurious chunk) done todo' p := by
  have hplaced := h.placed i
  have hht := h.head_le_tail
  have htail := h.tail_le
  have hhalf := hb.le_half
  -- steps before the exchange of the tail
  have hmove : ∀ w : Writer, (s.writers i).progress = none → w.progress = none → w.Placed size s.head s.tail →
      w.Working size s.reservations i → ∃ todo', Inv size origin (s.setWriter i w) done todo' p :=
    fun w hold hnew hp hw => ⟨todo, h.setWriter hold hnew h.cache_le hp hw⟩
  cases hw : s.writers i with
  | idle =>
    simp only [State.stepWriter, hw]
    exact ⟨todo, h⟩
  | failed => exact absurd (h.working i) (by rw [hw]; exact id)
  | loadCache job =>
    rw [hw] at hplaced
    simp only [State.stepWriter, hw]
    exact hmove _ (by rw [hw]; rfl) rfl ⟨hplaced, h.cache_le⟩ trivial
  | loadTail job hd =>
    rw [hw] at hplaced hfresh
    simp only [State.stepWriter, hw]
    exact hmove _ (by rw [hw]; rfl) (Writer.progress_attempt ..)
      (Writer.placed_attempt hb hplaced.1 hplaced.2 hht hfresh) (Writer.working_attempt ..)
  | loadHead job tl tlIndex padding =>
    rw [hw] at hplaced hfresh
    obtain ⟨hjob, htl⟩ := hplaced
    simp only [Writer.Fresh] at hfresh
    have hgreater : greaterWithWraparound s.head tl ↔ tl < s.head :=
      greaterWithWraparound_iff (by omega) (by omega)
    simp only [State.stepWriter, hw, hgreater]
    split_ifs with hpassed hfull
    · exact hmove _ (by rw [hw]; rfl) rfl ⟨hjob, le_rfl, htl, .inl hpassed⟩ trivial
    · exact hmove _ (by rw [hw]; rfl) (Writer.progress_noRoom job) (Writer.placed_noRoom hjob)
        (Writer.working_noRoom job)
    · rw [wordSub_eq (x := tl) (by omega) (by omega), wordSub_eq (by omega) (by omega)] at hfull
      exact hmove _ (by rw [hw]; rfl) rfl ⟨hjob, le_rfl, by omega, htl, by omega⟩ trivial
  | storeCache job hd tl =>
    rw [hw] at hplaced
    obtain ⟨hjob, hhd, hle, htl, hroom⟩ := hplaced
    simp only [State.stepWriter, hw]
    exact ⟨todo, h.setWriter (by rw [hw]; rfl) (Writer.progress_place ..) hhd
      (Writer.placed_place hb hjob hhd hle htl hroom) (Writer.working_place ..)⟩
  | reloadHead job tl =>
    rw [hw] at hplaced
    obtain ⟨hjob, htl, hback, h', hh', hle, hroom⟩ := hplaced
    simp only [State.stepWriter, hw, hb.index_eq]
    split_ifs with hfull
    · exact hmove _ (by rw [hw]; rfl) (Writer.progress_noRoom job) (Writer.placed_noRoom hjob)
        (Writer.working_noRoom job)
    · exact hmove _ (by rw [hw]; rfl) rfl ⟨hjob, le_rfl, htl, hback, by omega, h', hh', hle, hroom⟩ trivial
  | restoreCache job hd tl =>
    rw [hw] at hplaced
    obtain ⟨hjob, hhd, htl, hback, hfront, h', hh', hle, hroom⟩ := hplaced
    simp only [State.stepWriter, hw, hb.index_eq]
    refine ⟨todo, h.setWriter (by rw [hw]; rfl) rfl hhd ⟨hjob, hhd, htl, ?_⟩ trivial⟩
    -- the head has passed the tail, or it is in the lap of the tail
    rcases lt_or_ge tl hd with hpassed | hbehind
    · exact .inl (hpassed.trans_le hhd)
    · exact .inr ⟨rfl, (room_front hb.pos hh' hbehind hroom hback hfront).mono hhd⟩
  | exchange job hd tl tlIndex padding =>
    rw [hw] at hplaced hfresh
    obtain ⟨hjob, hhd, htl, hroom⟩ := hplaced
    obtain ⟨hfreshHead, hfreshTail⟩ := hfresh
    simp only [State.stepWriter, hw]
    split_ifs with hsame
    · have heq : s.tail = tl := by
        rcases lt_or_ge tl s.tail with hlt | hge
        · exact absurd hsame.1 (word_ne hlt hfreshTail)
        · omega
      subst heq
      obtain ⟨hindex, hroom⟩ := hroom.resolve_left (by omega)
      exact ⟨_, h.reserve hb (by rw [hw]; rfl) hjob hindex hroom⟩
    · exact hmove _ (by rw [hw]; rfl) (Writer.progress_attempt ..)
        (Writer.placed_attempt hb hjob hhd hht hfreshHead) (Writer.working_attempt ..)
  | writePadding job start tlIndex padding =>
    simp only [State.stepWriter, hw]
    exact ⟨todo, h.store_padding hb hw⟩
  | writeHeader job start index =>
    simp only [State.stepWriter, hw]
    exact ⟨todo, h.store_header hb hw⟩
  | writeData job start index written =>
    simp only [State.stepWriter, hw]
    exact ⟨todo, h.store_data hb hw chunk⟩
  | finishRead job start index =>
    obtain ⟨hle, hinv⟩ := h.finish_read hb hw
    simp only [State.stepWriter, hw, if_neg (not_lt.2 hle)]
    exact ⟨todo, hinv⟩
  | finishWrite job start index header =>
    obtain ⟨hle, hinv⟩ := h.finish_write hb hw
    simp only [State.stepWriter, hw, if_neg (not_lt.2 hle)]
    exact ⟨todo, hinv⟩

omit h

end Ccf.RingBuffer
