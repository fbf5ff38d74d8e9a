import Ccf.Ds.RingBufferDelivery

/-! # Exactly once, in the order of reservations

The invariant says that what has been delivered is a beginning of the reservations. Here the reader is
followed from any of its states to its next delivery, so that a finished message whose predecessors are
finished is delivered by the reader alone.

The code compares the tail modulo `2^64`. A writer that stops between its load of the tail and the exchange of it can
thus find the tail where it was, a whole range of words later, and reserve room that is in use. -/

namespace Ccf.RingBuffer

variable {size origin b : ℕ} {s s' : State} {done rest todo : List Reservation} {r : Reservation} {p : ℕ}

/-! ### The next delivery -/

/-- Steps of the reader alone deliver `r` next. -/
def Delivering (size origin : ℕ) (s : State) (done : List Reservation) (r : Reservation) (rest : List Reservation) :
    Prop :=
  ∃ actions, (∀ a ∈ actions, a.IsReader) ∧ (run size s actions).reservations = s.reservations ∧
    (run size s actions).finished = s.finished ∧ Inv size origin (run size s actions) (done ++ [r]) rest r.stop

/-- A step of the reader before the delivery. -/
theorem Delivering.of_step {a : Action} (ha : a.IsReader) (hstep : step size s a = s')
    (hres : s'.reservations = s.reservations) (hfin : s'.finished = s.finished)
    (h : Delivering size origin s' done r rest) : Delivering size origin s done r rest := by
  obtain ⟨actions, hreader, hres', hfin', hinv⟩ := h
  refine ⟨a :: actions, ?_, ?_, ?_, ?_⟩
  · intro b hb
    rcases List.mem_cons.1 hb with rfl | hb
    · exact ha
    · exact hreader b hb
  · rw [run, Runs.exec_cons, hstep]
    exact hres'.trans hres
  · rw [run, Runs.exec_cons, hstep]
    exact hfin'.trans hfin
  · rw [run, Runs.exec_cons, hstep]
    exact hinv

section progress

variable (hb : BufferSize size) {m limit hd advance : ℕ}

include hb

theorem Inv.delivering_handle (h : Inv size origin s done (r :: rest) p) {count len : ℕ}
    (hrd : s.reader = .handle limit hd advance count m len) : Delivering size origin s done r rest := by
  have hat := h.reader
  rw [hrd] at hat
  obtain ⟨rfl, hlt⟩ := hat
  obtain ⟨t, rest', rd, htodo, hstep, hinv⟩ := h.handle hb hrd hlt
  obtain ⟨rfl, rfl⟩ := List.cons.inj htodo
  refine ⟨[.reader], fun a ha => ?_, ?_⟩
  · rw [List.mem_singleton.1 ha]
    trivial
  · rw [run, Runs.exec_cons, Runs.exec_nil, step, hstep]
    exact ⟨rfl, rfl, hinv⟩

/-- Every reader that is about to read a header at `cursor` delivers `r` next. -/
def ReadsNext (size origin : ℕ) (done : List Reservation) (r : Reservation) (rest : List Reservation) (p cursor : ℕ) :
    Prop :=
  ∀ (s : State) (limit advance count : ℕ), Inv size origin s done (r :: rest) p → s.stage r = .finished →
    s.cursor = cursor → s.reader = .readHeader limit s.head advance count → Delivering size origin s done r rest

omit hb in
theorem loop_start (hb : BufferSize size) (hlimit : 0 < limit) (hd : ℕ) :
    Reader.loop size limit hd 0 0 = .readHeader limit hd 0 0 := by
  have hmod := Nat.mod_lt hd hb.pos
  simp only [Reader.loop, hb.index_eq]
  rw [if_pos ⟨by omega, hlimit⟩]

section
variable (h : Inv size origin s done (r :: rest) p) (hstage : s.stage r = .finished)
  (hnext : ReadsNext size origin done r rest p s.cursor)
include h hstage hnext

theorem Inv.delivering_idle (hrd : s.reader = .idle) : Delivering size origin s done r rest := by
  have hload : step size s (.read 1) = { s with reader := .loadHead 1 } := by rw [step, if_pos hrd]
  have hread : step size { s with reader := .loadHead 1 } .reader = { s with reader := .readHeader 1 s.head 0 0 } := by
    simp only [step, State.stepReader, loop_start hb Nat.one_pos]
  have hkept : Inv size origin { s with reader := .readHeader 1 s.head 0 0 } done (r :: rest) p := by
    have hmod := Nat.mod_lt s.head hb.pos
    exact h.keepReader (by rw [hrd]; rfl) ⟨rfl, by omega⟩ (by simp) (by simp)
  have hcursor : ({ s with reader := .readHeader 1 s.head 0 0 } : State).cursor = s.cursor := by
    rw [State.cursor, State.cursor, hrd]
    rfl
  exact .of_step (a := .read 1) trivial hload rfl rfl
    (.of_step (a := .reader) trivial hread rfl rfl (hnext _ 1 0 0 hkept hstage hcursor rfl))

theorem Inv.delivering_storeHead (hrd : s.reader = .storeHead hd advance) :
    Delivering size origin s done r rest := by
  have hat := h.reader
  rw [hrd] at hat
  obtain ⟨rfl, -⟩ := hat
  have hstep : step size s .reader = { s with reader := .idle, head := s.head + advance } := by
    simp only [step, State.stepReader, hrd]
  have hcursor : ({ s with reader := .idle, head := s.head + advance } : State).cursor = s.cursor := by
    rw [State.cursor, State.cursor, hrd]
    rfl
  exact .of_step (a := .reader) trivial hstep rfl rfl
    ((h.release hb hrd).delivering_idle hb hstage (hcursor.symm ▸ hnext) rfl)

theorem Inv.delivering_clear (hrd : s.reader = .clear hd advance) :
    Delivering size origin s done r rest := by
  have hat := h.reader
  rw [hrd] at hat
  obtain ⟨rfl, hle⟩ := hat
  have hmod := Nat.mod_lt s.head hb.pos
  have hstep : step size s .reader =
      { s with reader := .storeHead s.head advance, mem := s.mem.clear (s.head % size) advance } := by
    simp only [step, State.stepReader, hrd, hb.index_eq]
    rw [if_neg (by omega)]
  have hcursor : State.cursor
      { s with reader := .storeHead s.head advance, mem := s.mem.clear (s.head % size) advance } = s.cursor := by
    rw [State.cursor, State.cursor, hrd]
    rfl
  exact .of_step (a := .reader) trivial hstep rfl rfl
    ((h.clear hrd (by omega)).delivering_storeHead hb hstage (hcursor.symm ▸ hnext) rfl)

end

/-- A reader at the next message, if it is finished, delivers it. -/
theorem readsNext_body : ReadsNext size origin done r rest p r.body := by
  intro s limit advance count h hstage hcursor hrd
  have hat := h.reader
  rw [hrd] at hat
  obtain ⟨rd, hstep, hinv, hfound⟩ := h.readHeader hb hrd hat.2
  rcases hfound r rest rfl hstage with ⟨m, len, rfl⟩ | ⟨hlt, -⟩
  · exact .of_step (a := .reader) trivial hstep rfl rfl (hinv.delivering_handle hb rfl)
  · omega

/-- A reader before the padding of the next message skips it, and ends its call there. -/
theorem readsNext (cursor : ℕ) : ReadsNext size origin done r rest p cursor := by
  intro s limit advance count h hstage _ hrd
  have hat := h.reader
  rw [hrd] at hat
  obtain ⟨rd, hstep, hinv, hfound⟩ := h.readHeader hb hrd hat.2
  rcases hfound r rest rfl hstage with ⟨m, len, rfl⟩ | ⟨-, advance', rfl, hbody⟩
  · exact .of_step (a := .reader) trivial hstep rfl rfl (hinv.delivering_handle hb rfl)
  · have hcursor : ({ s with reader := .clear s.head advance' } : State).cursor = r.body := hbody
    exact .of_step (a := .reader) trivial hstep rfl rfl
      (hinv.delivering_clear hb hstage (hcursor.symm ▸ readsNext_body hb) rfl)

/-- The next message, if it is finished, is delivered, wherever the reader is. -/
theorem Inv.delivering (h : Inv size origin s done (r :: rest) p) (hstage : s.stage r = .finished) :
    Delivering size origin s done r rest := by
  have hnext : ∀ cursor, ReadsNext size origin done r rest p cursor := readsNext hb
  have hat := h.reader
  cases hrd : s.reader with
  | idle => exact h.delivering_idle hb hstage (hnext _) hrd
  | loadHead limit =>
    have hstep : step size s .reader = { s with reader := Reader.loop size limit s.head 0 0 } := by
      simp only [step, State.stepReader, hrd]
    have hinv : Inv size origin { s with reader := Reader.loop size limit s.head 0 0 } done (r :: rest) p := by
      refine h.keepReader ?_ (Reader.at_loop hb (Nat.zero_le _)) Reader.loop_ne_storeHead
        fun _ _ _ _ _ _ heq => absurd heq (Reader.loop_ne_handle _ _ _ _ _ _)
      rw [Reader.advance_loop, hrd]
      rfl
    refine .of_step (a := .reader) trivial hstep rfl rfl ?_
    rcases Nat.eq_zero_or_pos limit with rfl | hpos
    · refine hinv.delivering_idle hb hstage (hnext _) ?_
      simp only [Reader.loop, Nat.not_lt_zero, and_false, if_false, gt_iff_lt]
    · exact hnext _ _ limit 0 0 hinv hstage rfl (loop_start hb hpos _)
  | readHeader limit hd advance count =>
    rw [hrd] at hat
    exact hnext _ s limit advance count h hstage rfl (hat.1 ▸ hrd)
  | handle limit hd advance count m len => exact h.delivering_handle hb hrd
  | clear hd advance => exact h.delivering_clear hb hstage (hnext _) hrd
  | storeHead hd advance => exact h.delivering_storeHead hb hstage (hnext _) hrd
  | failed =>
    rw [hrd] at hat
    have hlarge := (h.valid r (h.mem_todo List.mem_cons_self)).writable.sixteen_le
    have hsmall : size < 8 := hat
    omega

end progress

/-- All of `more` are delivered, if they are finished. -/
theorem Inv.deliver_all (hb : BufferSize size) {more : List Reservation} :
    ∀ {s : State} {done : List Reservation} {p : ℕ}, Inv size origin s done (more ++ rest) p →
      (∀ t ∈ more, t.start ∈ s.finished) → ∃ actions, (∀ a ∈ actions, a.IsReader) ∧
        (run size s actions).delivered = (done ++ more).map Reservation.item := by
  induction more with
  | nil =>
    intro s done p h _
    exact ⟨[], nofun, by rw [List.append_nil]; exact h.delivered⟩
  | cons r more ih =>
    intro s done p h hfinished
    have hr : r ∈ s.reservations := h.mem_todo List.mem_cons_self
    have hstage := (h.finished_iff r hr).1 (hfinished r List.mem_cons_self)
    obtain ⟨actions, hreader, -, hfin, hinv⟩ := h.delivering hb hstage
    obtain ⟨actions', hreader', hdelivered⟩ := ih hinv fun t ht => hfin ▸ hfinished t (List.mem_cons_of_mem _ ht)
    refine ⟨actions ++ actions', fun a ha => ?_, ?_⟩
    · exact (List.mem_append.1 ha).elim (hreader a) (hreader' a)
    · rw [run, Runs.exec_append, hdelivered, List.append_assoc, List.singleton_append]

/-! ### What holds in every state -/

/-- The cells of the part of a reservation that the reader has not given back. -/
def Reservation.cells (size head : ℕ) (r : Reservation) : Finset ℕ :=
  (Finset.Ico (max r.start head) r.stop).image (· % size)

/-- What the ring buffer promises. -/
structure State.Delivers (size : ℕ) (s : State) : Prop where
  /-- Reservations lie one behind the other. -/
  ordered : s.reservations.Pairwise fun r r' => r.stop ≤ r'.start
  /-- The handler has seen the messages of the first reservations, all of them finished, once each and nothing else. -/
  in_order : ∃ n, s.delivered = (s.reservations.take n).map Reservation.item ∧
    ∀ r ∈ s.reservations.take n, r.start ∈ s.finished
  /-- The reader alone can deliver any number of the first reservations that are finished. -/
  at_least_once : ∀ n, s.delivered.length ≤ n → (∀ r ∈ s.reservations.take n, r.start ∈ s.finished) →
    ∃ actions, (∀ a ∈ actions, a.IsReader) ∧
      (run size s actions).delivered = (s.reservations.take n).map Reservation.item
  apart : s.reservations.Pairwise fun r r' => Disjoint (r.cells size s.head) (r'.cells size s.head)
  no_writer_fails : ∀ i, s.writers i ≠ .failed
  reader_ok : 8 ≤ size → s.reader ≠ .failed

theorem Chain.pairwise {a : ℕ} {rs : List Reservation} (h : Chain a rs b) :
    rs.Pairwise fun r r' => r.stop ≤ r'.start := by
  induction rs generalizing a with
  | nil => exact List.Pairwise.nil
  | cons r rs ih => exact List.Pairwise.cons (fun r' hr' => (h.2.bounds hr').1) (ih h.2)

theorem Inv.disjoint {r' : Reservation} (h : Inv size origin s done todo p)
    (hr' : r' ∈ s.reservations) (hle : r.stop ≤ r'.start) :
    Disjoint (r.cells size s.head) (r'.cells size s.head) := by
  have htail := h.tail_le
  have hstop' := (h.chain.bounds hr').2
  rw [Finset.disjoint_left]
  intro x hx hx'
  obtain ⟨y, hy, rfl⟩ := Finset.mem_image.1 hx
  obtain ⟨z, hz, heq⟩ := Finset.mem_image.1 hx'
  rw [Finset.mem_Ico] at hy hz
  have hsame := Mem.eq_of_mod_eq (h := s.head) (by omega) (by omega) (by omega) (by omega) heq
  omega

theorem Inv.delivers (h : Inv size origin s done todo p) (hb : BufferSize size) : s.Delivers size := by
  have hmem : ∀ r ∈ done, r ∈ s.reservations := fun r hr => h.split ▸ List.mem_append_left _ hr
  refine ⟨h.chain.pairwise, ⟨done.length, ?_, ?_⟩, fun n hn hfinished => ?_, ?_, fun i hi => ?_, fun hsize hfail => ?_⟩
  · rw [h.split, List.take_left, h.delivered]
  · rw [h.split, List.take_left]
    exact fun r hr => (h.finished_iff r (hmem r hr)).2 (h.done_finished r hr)
  · rw [h.delivered, List.length_map] at hn
    obtain ⟨k, rfl⟩ := Nat.exists_eq_add_of_le hn
    have htake : s.reservations.take (done.length + k) = done ++ todo.take k := by
      rw [h.split, List.take_length_add_append]
    rw [htake] at hfinished ⊢
    have h' : Inv size origin s done (todo.take k ++ todo.drop k) p := by rwa [List.take_append_drop]
    exact h'.deliver_all hb fun t ht => hfinished t (List.mem_append_right _ ht)
  · refine h.chain.pairwise.imp_of_mem fun _ hr' hle => h.disjoint hr' hle
  · have hwork := h.working i
    rw [hi] at hwork
    exact hwork
  · have hat := h.reader
    rw [hfail] at hat
    exact absurd hat (not_lt.2 hsize)

/-- **Delivery**: the reader delivers each finished message once, as it was written and in the order of reservations,
as long as no writer goes on with an offset that has fallen behind the tail by the range of a word. -/
theorem delivers_of_fresh (hb : BufferSize size) (haligned : 8 ∣ origin) (actions : List Action)
    (hfresh : Runs.Along (step size) State.Fresh (init origin) actions) :
    (run size (init origin) actions).Delivers size := by
  obtain ⟨done, todo, p, h⟩ := inv_run hb haligned hfresh
  exact h.delivers hb

/-- All the steps of writer `i` with an empty message, in a buffer with room. -/
def writes (i : ℕ) : List Action := .prepare i ⟨1, []⟩ false :: List.replicate 9 (.writer i false 0)

/-- The steps of the reader with two messages. -/
def reads : List Action := .read 2 :: List.replicate 7 .reader

/-- Offsets that wrap around between two messages. -/
theorem delivers_of_fresh_wrapping : 16 = 2 ^ 4 ∧
    Runs.Along (step 16) State.Fresh (init (2 ^ 64 - 16)) (writes 1 ++ writes 2 ++ reads ++ writes 2) ∧
    (run 16 (init (2 ^ 64 - 16)) (writes 1 ++ writes 2 ++ reads ++ writes 2)).Delivers 16 := by
  have hfresh : Runs.Along (step 16) State.Fresh (init (2 ^ 64 - 16)) (writes 1 ++ writes 2 ++ reads ++ writes 2) := by
    decide +kernel
  exact ⟨rfl, hfresh, delivers_of_fresh ⟨4, by decide, rfl⟩ (by decide) _ hfresh⟩

/-! ### Laps of another writer -/

open List

theorem bufferSize_sixteen : BufferSize 16 := ⟨4, by decide, rfl⟩

/-- The buffer is empty, the cached head is that of the lap before, and writer 1 has stopped before its exchange. -/
structure Lapped (n : ℕ) (s : State) : Prop where
  head : s.head = 16 * n + 16
  tail : s.tail = 16 * n + 16
  cache : s.headCache = 16 * n
  stopped : s.writers 1 = .exchange ⟨⟨1, []⟩, false⟩ 0 0 0 0
  writer : s.writers 2 = .idle
  reader : s.reader = .idle

/-- Writer 2 has written two empty messages. -/
structure Filled (n : ℕ) (s t : State) : Prop where
  head : t.head = 16 * n + 16
  tail : t.tail = 16 * n + 32
  cache : t.headCache = 16 * n + 16
  first : t.mem.read64 0 = makeHeader 1 0 false
  second : t.mem.read64 8 = makeHeader 1 0 false
  writers : t.writers = s.writers
  reader : t.reader = .idle
  reservations : t.reservations = s.reservations ++ [⟨2, ⟨1, []⟩, 16 * n + 16, 0⟩, ⟨2, ⟨1, []⟩, 16 * n + 24, 0⟩]

/-- The memory after an empty message has been written at `x`. -/
def written (mem : Mem) (x : ℕ) : Mem :=
  (mem.write x (leBytes 8 (makeHeader 1 0 true))).write x (leBytes 8 (makeHeader 1 0 false))

theorem read64_header (mem : Mem) (x : ℕ) (pending : Bool) :
    (mem.write x (leBytes 8 (makeHeader 1 0 pending))).read64 x = makeHeader 1 0 pending := by
  refine Mem.read64_leBytes (makeHeader_lt (by decide) _ _) fun k hk => ?_
  rw [Mem.write, if_pos (by rw [length_leBytes]; omega), Nat.add_sub_cancel_left]

theorem read64_written (mem : Mem) : (written (written mem 0) 8).read64 0 = makeHeader 1 0 false := by
  refine (congrArg ofLeBytes (Mem.read_congr fun k hk => ?_)).trans
    (read64_header (mem.write 0 (leBytes 8 (makeHeader 1 0 true))) 0 false)
  unfold written
  rw [Mem.write, if_neg (by omega), Mem.write, if_neg (by omega)]

variable {n : ℕ} {t : State}

theorem Lapped.filled (h : Lapped n s) : Filled n s (run 16 s (writes 2 ++ writes 2)) := by
  obtain ⟨head, tail, cache, mem, writers, reader, reservations, finished, delivered⟩ := s
  obtain ⟨rfl, rfl, rfl, -, hw, rfl⟩ := h
  have hindex : index 16 (16 * n + 16) = 0 := by rw [bufferSize_sixteen.index_eq]; omega
  have hindex' : index 16 (16 * n + 16 + 8) = 8 := by rw [bufferSize_sixteen.index_eq]; omega
  have hgap : wordSub (16 * n + 16) (16 * n) = 16 := by unfold wordSub word; omega
  have hgap₀ : wordSub (16 * n + 16) (16 * n + 16) = 0 := by unfold wordSub word; omega
  have hgap₈ : wordSub (16 * n + 16 + 8) (16 * n + 16) = 8 := by unfold wordSub word; omega
  have havail : wordSub 16 16 = 0 ∧ wordSub 16 0 = 16 ∧ wordSub 16 8 = 8 := by decide
  have hroom : Item.room ⟨1, []⟩ = 8 := rfl
  have hwritable : Item.Writable 16 ⟨1, []⟩ := by decide
  have hhead : ¬greaterWithWraparound (16 * n + 16) (16 * n + 16) := fun hgreater => hgreater.1 rfl
  have hself : Function.update writers 2 .idle = writers := by
    exact hw ▸ Function.update_eq_self 2 writers
  simp only at hw
  -- the steps of writer 2, one after the other
  have hrun : run 16 ⟨16 * n + 16, 16 * n + 16, 16 * n, mem, writers, .idle, reservations, finished, delivered⟩
      (writes 2 ++ writes 2) = ⟨16 * n + 16, 16 * n + 16 + 8 + 8, 16 * n + 16, written (written mem 0) 8,
        writers, .idle, reservations ++ [⟨2, ⟨1, []⟩, 16 * n + 16, 0⟩, ⟨2, ⟨1, []⟩, 16 * n + 16 + 8, 0⟩],
        finished ++ [16 * n + 16, 16 * n + 16 + 8], delivered⟩ := by
    simp [run, writes, replicate_succ, step, hw, hwritable, State.stepWriter, State.setWriter, Writer.attempt,
      Writer.place, hindex, hindex', hgap, hgap₀, hgap₈, havail, hroom, hhead, State.reserve, State.store,
      length_leBytes,
      headerSize, read64_header, hself, makeHeader_finished, written]
  rw [hrun]
  exact ⟨rfl, rfl, rfl, read64_written mem, read64_header _ _ _, rfl, rfl, rfl⟩

theorem Lapped.read (hs : Lapped n s) (h : Filled n s t) : Lapped (n + 1) (run 16 t reads) := by
  obtain ⟨head, tail, cache, mem, writers, reader, reservations, finished, delivered⟩ := t
  obtain ⟨rfl, rfl, rfl, hfirst, hsecond, rfl, rfl, -⟩ := h
  have hindex : index 16 (16 * n + 16) = 0 := by rw [bufferSize_sixteen.index_eq]; omega
  have hentry : entrySize 0 = 8 := rfl
  have hheader : message (makeHeader 1 0 false) = 1 ∧ length (makeHeader 1 0 false) = 0 := by decide
  have hrun : run 16 ⟨16 * n + 16, 16 * n + 32, 16 * n + 16, mem, s.writers, .idle, reservations, finished, delivered⟩
      reads = ⟨16 * n + 16 + 16, 16 * n + 32, 16 * n + 16, mem.clear 0 16, s.writers, .idle, reservations, finished,
        delivered ++ [⟨1, []⟩, ⟨1, []⟩]⟩ := by
    simp [run, reads, replicate_succ, step, State.stepReader, Reader.loop, hindex, hfirst, hsecond, hheader, hentry,
      pendingWriteFlag, msgNone, msgPad, Mem.read]
  rw [hrun]
  exact ⟨rfl, rfl, rfl, hs.stopped, hs.writer, rfl⟩

/-! ### A tail that comes round -/

/-- Writer 1 loads the tail, and stops; writer 2 writes two messages, which are read. -/
def stopped : State := run 16 (init 0) ([.prepare 1 ⟨1, []⟩ false, .writer 1 false 0, .writer 1 false 0] ++
  (writes 2 ++ writes 2 ++ reads))

/-- After `n` laps of writer 2 and two more messages of it. -/
def full (n : ℕ) : State :=
  run 16 (run 16 stopped (List.replicate n (writes 2 ++ writes 2 ++ reads)).flatten) (writes 2 ++ writes 2)

theorem lapped_stopped (n : ℕ) :
    Lapped n (run 16 stopped (List.replicate n (writes 2 ++ writes 2 ++ reads)).flatten) := by
  induction n with
  | zero => exact ⟨by decide +kernel, by decide +kernel, by decide +kernel, by decide +kernel,
      by decide +kernel, by decide +kernel⟩
  | succ n ih =>
    rw [replicate_succ', flatten_append, flatten_singleton, run, Runs.exec_append, Runs.exec_append]
    exact ih.read ih.filled

/-- Writer 1 reserves room that writer 2 is using. -/
theorem not_delivers_full (hn : 16 * n + 32 = 2 ^ 64) : ¬(step 16 (full n) (.writer 1 false 0)).Delivers 16 := by
  have hlapped := lapped_stopped n
  have hfull : Filled n _ (full n) := hlapped.filled
  have htail : (full n).tail = 2 ^ 64 := hfull.tail.trans hn
  have hstep : step 16 (full n) (.writer 1 false 0) = (full n).reserve 1 ⟨⟨1, []⟩, false⟩ 0 0 := by
    simp only [step, State.stepWriter, hfull.writers, hlapped.stopped]
    rw [if_pos (by rw [htail]; decide)]
  intro hdelivers
  have hapart := hdelivers.apart
  rw [hstep] at hapart
  simp only [State.reserve, State.setWriter, hfull.reservations, htail, hfull.head] at hapart
  rw [append_assoc, pairwise_append] at hapart
  have hdisjoint := rel_of_pairwise_cons hapart.2.1 (mem_cons_of_mem _ mem_cons_self)
  refine Finset.disjoint_left.1 hdisjoint (Finset.mem_image.2 ⟨16 * n + 16, ?_, rfl⟩)
    (Finset.mem_image.2 ⟨2 ^ 64, ?_, ?_⟩)
  · rw [Finset.mem_Ico]
    simp only [Reservation.stop, Reservation.body, Item.room, entrySize, alignSize, headerSize, length_nil]
    omega
  · rw [Finset.mem_Ico]
    simp only [Reservation.stop, Reservation.body, Item.room, entrySize, alignSize, headerSize, length_nil]
    omega
  · show 2 ^ 64 % 16 = (16 * n + 16) % 16
    omega

/-- Not every interleaving delivers as promised: the tail can come round to where a stopped writer has seen it. -/
theorem not_delivers_of_wrap : ¬∀ actions, (run 16 (init 0) actions).Delivers 16 := by
  intro h
  obtain ⟨n, hn⟩ : ∃ n, 16 * n + 32 = 2 ^ 64 := ⟨2 ^ 60 - 2, by decide⟩
  refine not_delivers_full hn ?_
  have hrun : step 16 (full n) (.writer 1 false 0) =
      run 16 stopped ((List.replicate n (writes 2 ++ writes 2 ++ reads)).flatten ++ (writes 2 ++ writes 2) ++
        [.writer 1 false 0]) := by
    rw [run, Runs.exec_concat, Runs.exec_append, full]
  rw [hrun, stopped, run, run, ← Runs.exec_append]
  exact h _

end Ccf.RingBuffer
