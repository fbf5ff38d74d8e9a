import Ccf.Ds.OversizedPieces

/-! # Writing oversized messages

The invariant ties what handlers have seen of each writer, what its pieces decode to and what it is writing to
the messages that it has been asked to write. Writers do not disturb each other as long as no two of them have
messages under way with one identifier. -/

namespace Ccf.Oversized

open State List Slot

open RingBuffer (Item)

variable {cfg : WriterConfig} {s s' : State} {w v : ℕ} {known : ℕ → Option (ℕ × PartialMessage)}

/-! ### The invariant -/

/-- Writer `w`: `fs` are its finished pieces, `us` those that are not. -/
structure WriterInv (cfg : WriterConfig) (s : State) (w : ℕ) (known : Option (ℕ × PartialMessage)) (fs us : List Slot)
    (out : List (Option ℕ × Item)) (after : Option (ℕ × PartialMessage)) (current : List Item) (ids : List ℕ) :
    Prop where
  pieces : s.pieces w = fs ++ us
  full : ∀ x ∈ fs, x.finished = true ∧ x.written.length = x.size
  decodes : Decodes w known (fs.map item) out after
  writing : Writing cfg w (s.writers w).phase after us current ids
  sent : s.seen w ++ (out.map Prod.snd ++ current) = (s.writers w).sent
  underway : ofOwner w s.underway = out.filterMap Prod.fst ++ ids

structure Inv (cfg : WriterConfig) (s : State) (known : ℕ → Option (ℕ × PartialMessage)) : Prop where
  writer : ∀ w, ∃ fs us out after current ids, WriterInv cfg s w (known w) fs us out after current ids
  known_eq : ∀ w id p, known w = some (id, p) → p.writer = w ∧ s.partialMessages id = some p
  partial_eq : ∀ id p, s.partialMessages id = some p → known p.writer = some (id, p)
  apart : ∀ x ∈ s.underway, ∀ y ∈ s.underway, x.2 = y.2 → x.1 = y.1
  distinct : Distinct s
  no_exception : s.failed = false

variable {after : Option (ℕ × PartialMessage)} {ids : List ℕ} {f : Writer → Writer}
  {sections : List (List UInt8)}

variable {current : List Item} {phase : Phase} {u : Slot} {s'' : State} {out' : List (Option ℕ × Item)}

theorem WriterInv.full_concat {known : Option (ℕ × PartialMessage)} {fs us : List Slot} {out : List (Option ℕ × Item)}
    (h : WriterInv cfg s w known fs us out after current ids) (hu : u.written.length = u.size) :
    ∀ x ∈ fs ++ [u.finish], x.finished = true ∧ x.written.length = x.size :=
  forall_mem_append.2 ⟨h.full, forall_mem_singleton.2 ⟨rfl, hu⟩⟩

/-- What a step of writer `w` leaves alone. -/
structure Leaves (s s' : State) (w : ℕ) : Prop where
  pieces : ∀ v ≠ w, s'.pieces v = s.pieces v
  phase : ∀ v ≠ w, (s'.writers v).phase = (s.writers v).phase
  sent : ∀ v ≠ w, (s'.writers v).sent = (s.writers v).sent
  partialMessages : s'.partialMessages = s.partialMessages
  dispatched : s'.dispatched = s.dispatched
  failed : s'.failed = s.failed

theorem Frame.leaves (h : Frame s s') (hpieces : ∀ v ≠ w, s'.pieces v = s.pieces v) : Leaves s s' w :=
  ⟨hpieces, fun v _ => h.phase v, fun v _ => h.sent v, h.partialMessages, h.dispatched, h.failed⟩

theorem Leaves.trans (h : Leaves s s' w) (h' : Leaves s' s'' w) : Leaves s s'' w :=
  ⟨fun v hv => (h'.pieces v hv).trans (h.pieces v hv), fun v hv => (h'.phase v hv).trans (h.phase v hv),
    fun v hv => (h'.sent v hv).trans (h.sent v hv), h'.partialMessages.trans h.partialMessages,
    h'.dispatched.trans h.dispatched, h'.failed.trans h.failed⟩

/-- A step of writer `w` that begins at most the messages `begun` in fragments. -/
theorem Inv.of_writer (h : Inv cfg s known) (hleaves : Leaves s s' w) (begun : List ℕ)
    (hunderway : s'.underway = s.underway ++ begun.map fun id => (w, id))
    (hbegun : ∀ id ∈ begun, ∀ x ∈ s.underway, x.2 = id → x.1 = w) (hdistinct : Distinct s')
    (hw : ∃ fs us out after current ids, WriterInv cfg s' w (known w) fs us out after current ids) :
    Inv cfg s' known := by
  refine ⟨fun v => ?_, ?_, ?_, ?_, hdistinct, hleaves.failed.trans h.no_exception⟩
  · by_cases hv : v = w
    · exact hv ▸ hw
    · obtain ⟨fs, us, out, after, current, ids, hinv⟩ := h.writer v
      refine ⟨fs, us, out, after, current, ids, (hleaves.pieces v hv).trans hinv.pieces, hinv.full, hinv.decodes,
        (hleaves.phase v hv).symm ▸ hinv.writing, ?_, ?_⟩
      · rw [seen, hleaves.dispatched, hleaves.sent v hv]
        exact hinv.sent
      · rw [hunderway, ofOwner_append, ofOwner_none (Ne.symm hv), append_nil]
        exact hinv.underway
  · rw [hleaves.partialMessages]
    exact h.known_eq
  · rw [hleaves.partialMessages]
    exact h.partial_eq
  · rw [hunderway]
    intro x hx y hy heq
    have hnew : ∀ z ∈ begun.map fun id => (w, id), z.1 = w ∧ z.2 ∈ begun := by
      intro z hz
      obtain ⟨id, hid, rfl⟩ := mem_map.1 hz
      exact ⟨rfl, hid⟩
    rcases mem_append.1 hx with hx | hx
    · rcases mem_append.1 hy with hy | hy
      · exact h.apart x hx y hy heq
      · rw [(hnew y hy).1]
        exact hbegun _ (hnew y hy).2 x hx heq
    · rcases mem_append.1 hy with hy | hy
      · rw [(hnew x hx).1]
        exact (hbegun _ (hnew x hx).2 y hy heq.symm).symm
      · rw [(hnew x hx).1, (hnew y hy).1]

/-! ### Changes of the phase -/

theorem pieces_setWriter (hf : (f (s.writers w)).pending = (s.writers w).pending) :
    (s.setWriter w f).pieces v = s.pieces v := by
  by_cases hv : v = w
  · subst hv
    rw [pieces, setWriter_self, hf]
    rfl
  · rw [pieces, setWriter_of_ne s hv]
    rfl

theorem distinct_setWriter (h : Distinct s) (hf : (f (s.writers w)).pending = (s.writers w).pending)
    (hbuffers : (f (s.writers w)).buffers = (s.writers w).buffers) : Distinct (s.setWriter w f) := by
  refine ⟨h.ring, fun v => ?_⟩
  by_cases hv : v = w
  · subst hv
    rw [setWriter_self]
    have hqueue := h.queue v
    exact ⟨hf ▸ hqueue.nodup, fun x hx => hbuffers ▸ hqueue.base x (hf ▸ hx)⟩
  · rw [setWriter_of_ne s hv]
    exact h.queue v

theorem leaves_setWriter (hf : (f (s.writers w)).pending = (s.writers w).pending) : Leaves s (s.setWriter w f) w :=
  ⟨fun _ _ => pieces_setWriter hf, fun v hv => by rw [setWriter_of_ne s hv],
    fun v hv => by rw [setWriter_of_ne s hv], rfl, rfl, rfl⟩

/-- A writer goes on with its message: what its pieces decode to and what it is writing is together what it was. -/
theorem Inv.setPhase (h : Inv cfg s known) {fs us fs' us' : List Slot} {out : List (Option ℕ × Item)}
    {after' : Option (ℕ × PartialMessage)} {current' : List Item} {ids' : List ℕ}
    (hinv : WriterInv cfg s w (known w) fs us out after current ids) (hs' : Replaces s s' w (fs' ++ us'))
    (hfull : ∀ x ∈ fs', x.finished = true ∧ x.written.length = x.size)
    (hdecodes : Decodes w (known w) (fs'.map item) out' after')
    (hwriting : Writing cfg w phase after' us' current' ids')
    (hsent : out'.map Prod.snd ++ current' = out.map Prod.snd ++ current)
    (hids : out'.filterMap Prod.fst ++ ids' = out.filterMap Prod.fst ++ ids) : Inv cfg (s'.setPhase w phase) known := by
  have hleaves : Leaves s' (s'.setPhase w phase) w := leaves_setWriter rfl
  refine h.of_writer ((hs'.frame.leaves hs'.others).trans hleaves) [] ?_ nofun
    (distinct_setWriter hs'.distinct rfl rfl) ⟨fs', us', out', after', current', ids', ?_, hfull, hdecodes, ?_, ?_, ?_⟩
  · rw [map_nil, append_nil]
    exact hs'.frame.underway
  · exact (pieces_setWriter rfl).trans hs'.pieces
  · rw [State.setPhase, State.setWriter_self]
    exact hwriting
  · rw [State.setPhase, State.setWriter_self, hsent]
    have hseen : (s'.setWriter w fun x => { x with phase := phase }).seen w = s.seen w :=
      congrArg (ofOwner w) hs'.frame.dispatched
    rw [hseen, hinv.sent, hs'.frame.sent]
  · rw [hids, ← hinv.underway, ← hs'.frame.underway]
    rfl

theorem Inv.begin {x : Slot} (h : Inv cfg s known) (hidle : (s.writers w).phase = .idle) {item : Item}
    (hs' : Replaces s s' w (s.pieces w ++ [x])) (hwriting : Writing cfg w phase none [x] [item] ids)
    (hfresh : ∀ id ∈ ids, ∀ y ∈ s.underway, y.2 = id → y.1 = w) : Inv cfg (s'.begin w item ids phase) known := by
  obtain ⟨fs, us, out, after, current, ids', hinv⟩ := h.writer w
  have hold := hinv.writing
  rw [hidle] at hold
  cases hold
  have hleaves : Leaves s' (s'.begin w item ids phase) w := by
    have := leaves_setWriter (s := s') (w := w)
      (f := fun wr => { wr with phase := phase, sent := wr.sent ++ [item] }) rfl
    exact ⟨this.pieces, this.phase, this.sent, rfl, rfl, rfl⟩
  refine h.of_writer ((hs'.frame.leaves hs'.others).trans hleaves) ids ?_ hfresh ?_
    ⟨fs, [x], out, none, [item], ids, ?_, hinv.full, hinv.decodes, ?_, ?_, ?_⟩
  · rw [State.begin, hs'.frame.underway]
  · have := distinct_setWriter hs'.distinct (w := w)
      (f := fun wr => { wr with phase := phase, sent := wr.sent ++ [item] }) rfl rfl
    exact ⟨this.ring, this.queue⟩
  · have hold := hinv.pieces
    rw [append_nil] at hold
    rw [← hold, ← hs'.pieces]
    exact pieces_setWriter (s := s') (f := fun wr => { wr with phase := phase, sent := wr.sent ++ [item] }) rfl
  · simp only [State.begin, State.setWriter_self]
    exact hwriting
  · have hseen : (s'.begin w item ids phase).seen w = s.seen w := congrArg (ofOwner w) hs'.frame.dispatched
    have hold := hinv.sent
    rw [append_nil] at hold
    simp only [State.begin, State.setWriter_self] at hseen ⊢
    rw [hseen, hs'.frame.sent, ← hold, append_assoc]
  · have hold := hinv.underway
    rw [append_nil] at hold
    rw [State.begin, ofOwner_append, ofOwner_all, hs'.frame.underway, hold]

/-! ### The steps of a writer -/

/-- What must hold for a step: a message is not of the type of fragments, no two empty messages are in a queue, and no
other writer has a message under way with the identifier that a message in fragments gets. -/
def State.Safe (cfg : WriterConfig) (s : State) : Action → Prop
  | .prepare w m sections room =>
    m ≠ fragment ∧ (sections.flatten.length = 0 → ∀ x ∈ (s.writers w).pending, x.size ≠ 0) ∧
    (cfg.maxFragmentSize < sections.flatten.length →
      ∀ x ∈ s.underway, x.2 = (s.prepare w fragment cfg.maxFragmentSize room).2.2 → x.1 = w)
  | _ => True

instance (cfg : WriterConfig) (s : State) (a : Action) : Decidable (s.Safe cfg a) := by
  cases a <;> unfold State.Safe <;> infer_instance

theorem length_initialFragmentHeader (id m total : ℕ) : (initialFragmentHeader id m total).length = headerSize := by
  rfl

section
variable (h : Inv cfg s known) {progress : FragmentProgress} {next : Marker}
include h

theorem Inv.prepareMessage {m : ℕ} {room : Option ℕ}
    (hsafe : s.Safe cfg (.prepare w m sections room)) : Inv cfg (s.prepareMessage cfg w m sections room) known := by
  obtain ⟨hm, hempty, hfresh⟩ := hsafe
  simp only [State.prepareMessage]
  split_ifs with hskip hsmall
  · exact h
  · obtain ⟨hidle, -, -⟩ := (not_or.1 hskip).imp id not_or.1
    rcases hprepare : s.prepare w m sections.flatten.length room with ⟨s1, marker, id⟩
    obtain ⟨x, hx⟩ := prepared h.distinct hempty hprepare
    have hwriting : Writing cfg w (.whole x.data x.marker sections) none [x]
        [⟨x.m, x.written ++ sections.flatten⟩] [] :=
      .whole (hx.m_eq ▸ hm) hx.finished (by rw [hx.written, hx.size_eq, nil_append])
    rw [← hx.marker_start, hx.m_eq, hx.written, nil_append] at hwriting
    obtain rfl := hx.marker_eq
    exact h.begin (not_not.1 hidle) hx.replaces hwriting nofun
  · obtain ⟨hidle, htype, htotal⟩ := (not_or.1 hskip).imp id not_or.1
    rcases hprepare : s.prepare w fragment cfg.maxFragmentSize room with ⟨s1, marker, id⟩
    have hheader := cfg.header_lt
    obtain ⟨x, hx⟩ := prepared h.distinct (fun hzero => by omega) hprepare
    obtain ⟨s2, hwrite, hs2⟩ := writeBytes_spec hx.distinct hx.pieces hx.finished
      (initialFragmentHeader id m sections.flatten.length)
      (by rw [hx.written, hx.size_eq, length_initialFragmentHeader, length_nil]; omega)
    rw [hprepare] at hfresh
    simp only [hx.marker_start, hwrite, Option.map_some, orFail, Option.getD_some]
    refine h.begin (not_not.1 hidle) (hx.replaces.trans hs2) ?_ fun id' hid' => ?_
    · let u := x.append (initialFragmentHeader id m sections.flatten.length)
      have hwritten : u.written = initialFragmentHeader id m sections.flatten.length ++ [] := by
        simp only [u, append, hx.written, nil_append, append_nil]
      have hlen : u.written.length = headerSize := by
        rw [hwritten, append_nil, length_initialFragmentHeader]
      have hsize : u.size = cfg.maxFragmentSize := hx.size_eq
      have hlt : m < 2 ^ 32 := by
        have := (not_not.1 htype).2
        unfold RingBuffer.msgMax at this
        omega
      have hwriting : Writing cfg w (.parts u.marker ⟨x.data, id, u.size - u.written.length⟩ [] sections) none [u]
          [⟨m, sections.flatten⟩] [id] :=
        .first hx.m_eq hx.finished hsize hlt hx.identifier_lt rfl (not_le.1 hsmall) (Nat.le_of_not_gt htotal)
          hwritten (by omega) (fun hne => absurd rfl hne)
      rw [hlen, hsize] at hwriting
      rw [← hx.marker_start, hx.marker_eq]
      exact hwriting
    · rw [mem_singleton.1 hid']
      exact hfresh (not_le.1 hsmall)

/-- As much of a section as fits goes into the current fragment. -/
theorem Inv.fillFragment {bytes : List UInt8}
    (hphase : (s.writers w).phase = .parts next progress [] (bytes :: sections))
    (room : Option ℕ) : Inv cfg (s.writeSection cfg w room) known := by
  obtain ⟨fs, us, out, after, current, ids, hinv⟩ := h.writer w
  have hwriting := hinv.writing
  rw [hphase] at hwriting
  cases hwriting with
  | @first u m id payload _ data _ hm hu hsize hlt hid hdata hlong hmax hwritten hle hrest =>
    obtain ⟨n, hn⟩ : ∃ n, n = min bytes.length (u.size - u.written.length) := ⟨_, rfl⟩
    have htake : (bytes.take n).length = n := by
      rw [length_take]
      omega
    obtain ⟨s1, hwrite, hs1⟩ := writeBytes_spec h.distinct hinv.pieces hu (bytes.take n) (by omega)
    have hlen : (u.append (bytes.take n)).written.length = u.written.length + n := by
      rw [append, length_append, htake]
    have hnew : Writing cfg w (.parts (u.append (bytes.take n)).marker ⟨u.data, id,
        (u.append (bytes.take n)).size - (u.append (bytes.take n)).written.length⟩ (bytes.drop n) sections) none
        [u.append (bytes.take n)] [⟨m, data⟩] [id] := by
      have hwritten' : (u.append (bytes.take n)).written =
          initialFragmentHeader id m data.length ++ (payload ++ bytes.take n) := by
        rw [append, hwritten, append_assoc]
      refine .first hm hu hsize hlt hid ?_ hlong hmax hwritten' ?_ fun hne => ?_
      · rw [← hdata, nil_append, flatten_cons, append_assoc, ← append_assoc (bytes.take n),
          take_append_drop]
      · rw [hlen]
        show u.written.length + n ≤ u.size
        omega
      · have hlt : n < bytes.length := not_le.1 fun hle => hne (drop_of_length_le hle)
        rw [hlen]
        show u.written.length + n = u.size
        omega
    simp only [writeSection, hphase, ← hn, hwrite, Option.map_some, orFail, Option.getD_some]
    rw [hlen, ← Nat.sub_sub] at hnew
    exact h.setPhase hinv hs1 hinv.full hinv.decodes hnew rfl rfl
  | @later u p id payload _ data _ hm hu hid hp hdata htotal hwritten hu' =>
    obtain ⟨s1, hwrite, hs1⟩ := writeBytes_spec h.distinct hinv.pieces hu [] (by rw [length_nil]; omega)
    have hnew : Writing cfg w (.parts (u.append []).marker ⟨u.data, id, 0⟩ bytes sections) (some (id, p)) [u.append []]
        [⟨p.m, data⟩] [id] :=
      .later hm hu hid hp hdata htotal (by rw [append, append_nil, hwritten])
        (by rw [append, append_nil, hu'])
    simp only [writeSection, hphase, Nat.min_zero, take_zero, hwrite, Option.map_some, orFail,
      Option.getD_some, drop_zero, Nat.sub_zero]
    exact h.setPhase hinv hs1 hinv.full hinv.decodes hnew rfl rfl

theorem Inv.nextFragment {rest : List UInt8}
    (hphase : (s.writers w).phase = .parts next progress rest sections) (hne : rest ≠ [])
    (room : Option ℕ) : Inv cfg (s.nextFragment cfg w progress rest sections room) known := by
  obtain ⟨fs, us, out, after, current, ids, hinv⟩ := h.writer w
  have hwriting := hinv.writing
  rw [hphase] at hwriting
  obtain ⟨u, p, data, rfl, rfl, rfl, hmarker, -, hid, hfull, hcontinues, hwriter, htotal, hdata⟩ :=
    hwriting.continues fun hnil => absurd hnil hne
  have hpos := length_pos_iff.2 hne
  have hheader := cfg.header_lt
  unfold headerSize at hheader
  obtain ⟨fragSize, hfrag⟩ : ∃ fragSize, fragSize = min (rest.length + idSize) cfg.maxFragmentSize := ⟨_, rfl⟩
  have hfrag8 : 8 ≤ fragSize ∧ fragSize - idSize ≤ rest.length := by
    unfold idSize at *
    omega
  rcases hprepare : s.prepare w fragment fragSize room with ⟨s1, marker, id⟩
  obtain ⟨x, hx⟩ := prepared h.distinct (fun hzero => by omega) hprepare
  have hp1 : s1.pieces w = fs ++ u :: [x] := by rw [hx.pieces, hinv.pieces, append_assoc]; rfl
  have hs2 := finish_spec hx.distinct hp1
  have hp2 : (s1.finish w u.data).pieces w = (fs ++ [u.finish]) ++ [x] := by rw [hs2.pieces, append_assoc]; rfl
  obtain ⟨s3, hwrite3, hs3⟩ := writeBytes_spec hs2.distinct hp2 hx.finished
    (leBytes 8 progress.identifier) (by rw [hx.written, hx.size_eq, length_leBytes, length_nil]; omega)
  have htake : (rest.take (fragSize - idSize)).length = fragSize - idSize := by
    rw [length_take]
    omega
  have hlen3 : (x.append (leBytes 8 progress.identifier)).written.length = 8 := by
    rw [append, hx.written, nil_append, length_leBytes]
  obtain ⟨s4, hwrite4, hs4⟩ := writeBytes_spec hs3.distinct hs3.pieces
    (show (x.append (leBytes 8 progress.identifier)).finished = false from hx.finished)
    (rest.take (fragSize - idSize)) (by
      rw [hlen3, htake]
      show 8 + (fragSize - idSize) ≤ x.size
      rw [hx.size_eq]
      unfold idSize
      omega)
  have hnew : Writing cfg w (.parts ((x.append (leBytes 8 progress.identifier)).append
      (rest.take (fragSize - idSize))).marker
      ⟨x.data, progress.identifier, 0⟩ (rest.drop (fragSize - idSize)) sections) (some (progress.identifier, p))
      [(x.append (leBytes 8 progress.identifier)).append (rest.take (fragSize - idSize))] [⟨p.m, data⟩]
      [progress.identifier] := by
    have hwritten : ((x.append (leBytes 8 progress.identifier)).append (rest.take (fragSize - idSize))).written =
        leBytes 8 progress.identifier ++ rest.take (fragSize - idSize) := by
      rw [append, append, hx.written, nil_append]
    refine .later hx.m_eq hx.finished hid hwriter ?_ htotal hwritten ?_
    · rw [← append_assoc (rest.take _), take_append_drop]
      exact hdata
    · rw [append, length_append, hlen3, htake]
      show 8 + (fragSize - idSize) = x.size
      rw [hx.size_eq]
      unfold idSize
      omega
  simp only [State.nextFragment, ← hfrag, hprepare, hmarker, hx.marker_start, hwrite3, hwrite4, Option.bind_eq_bind,
    Option.bind_some, orFail, Option.pure_def, Option.getD_some]
  rw [← hx.marker_start, hx.marker_eq]
  have hdecodes : Decodes w (known w) ((fs ++ [u.finish]).map item) (out ++ []) (some (progress.identifier, p)) := by
    rw [map_append]
    refine hinv.decodes.append (.more hcontinues ?_ (.nil _))
    rw [htotal, ← hdata, length_append, length_append]
    omega
  refine h.setPhase hinv (((hx.replaces.trans hs2).trans hs3).trans hs4) (hinv.full_concat hfull) hdecodes hnew ?_ ?_
  · rw [append_nil]
  · rw [append_nil]

/-- A section, or a round of the loop. -/
theorem Inv.writeSection (room : Option ℕ) : Inv cfg (s.writeSection cfg w room) known := by
  obtain ⟨fs, us, out, after, current, ids, hinv⟩ := h.writer w
  have hwriting := hinv.writing
  cases hphase : (s.writers w).phase with
  | idle =>
    simp only [State.writeSection, hphase]
    exact h
  | whole initial next sections =>
    rw [hphase] at hwriting
    cases sections with
    | nil =>
      simp only [State.writeSection, hphase]
      exact h
    | cons bytes sections =>
      cases hwriting with
      | @whole u _ hm hu hsize =>
        simp only [flatten_cons, length_append] at hsize
        obtain ⟨s1, hwrite, hs1⟩ := State.writeBytes_spec h.distinct hinv.pieces hu bytes (by omega)
        simp only [State.writeSection, hphase, hwrite, Option.map_some, State.orFail, Option.getD_some]
        have hnew : Writing cfg w (.whole (u.append bytes).data (u.append bytes).marker sections) none [u.append bytes]
            [⟨(u.append bytes).m, (u.append bytes).written ++ sections.flatten⟩] [] :=
          .whole hm hu (by simp only [append, length_append]; omega)
        refine h.setPhase hinv hs1 hinv.full hinv.decodes hnew ?_ rfl
        simp only [append, flatten_cons, append_assoc]
  | parts next progress rest sections =>
    cases rest with
    | nil =>
      cases sections with
      | nil =>
        simp only [State.writeSection, hphase]
        exact h
      | cons bytes sections => exact h.fillFragment hphase room
    | cons b rest =>
      simp only [State.writeSection, hphase]
      exact h.nextFragment hphase (cons_ne_nil b rest) room

theorem Inv.finishPiece {fs : List Slot} {out : List (Option ℕ × Item)}
    (hinv : WriterInv cfg s w (known w) fs [u] out after current ids) (hfull : u.written.length = u.size)
    (hlast : Decodes w after [u.finish.item] out' none) (hsent : out'.map Prod.snd = current)
    (hids : out'.filterMap Prod.fst = ids) : Inv cfg ((s.finish w u.data).setPhase w .idle) known := by
  have hs' := finish_spec h.distinct hinv.pieces
  have hdecodes : Decodes w (known w) ((fs ++ [u.finish]).map item) (out ++ out') none := by
    rw [map_append]
    exact hinv.decodes.append hlast
  rw [← append_nil (fs ++ [u.finish])] at hs'
  refine h.setPhase hinv hs' (hinv.full_concat hfull) hdecodes .idle ?_ ?_
  · rw [append_nil, map_append, hsent]
  · rw [append_nil, filterMap_append, hids]

theorem Inv.finishMessage : Inv cfg (s.finishMessage w) known := by
  obtain ⟨fs, us, out, after, current, ids, hinv⟩ := h.writer w
  have hwriting := hinv.writing
  cases hphase : (s.writers w).phase with
  | idle =>
    simp only [State.finishMessage, hphase]
    exact h
  | whole initial next sections =>
    rw [hphase] at hwriting
    cases sections with
    | cons bytes sections =>
      simp only [State.finishMessage, hphase]
      exact h
    | nil =>
      cases hwriting with
      | @whole u _ hm hu hsize =>
        rw [flatten_nil, append_nil] at hsize
        simp only [State.finishMessage, hphase]
        have hitem : u.finish.item = ⟨u.m, u.written⟩ := item_of_full hsize.symm
        exact h.finishPiece hinv hsize.symm (.whole hm (.nil none)) (by simp [hitem]) rfl
  | parts next progress rest sections =>
    rw [hphase] at hwriting
    cases rest with
    | cons b rest =>
      simp only [State.finishMessage, hphase]
      exact h
    | nil =>
      cases sections with
      | cons bytes sections =>
        simp only [State.finishMessage, hphase]
        exact h
      | nil =>
        obtain ⟨u, p, data, rfl, rfl, rfl, hmarker, hremainder, hid, hfull, hcontinues, hwriter, htotal, hdata⟩ :=
          hwriting.continues fun _ => rfl
        rw [flatten_nil, append_nil, append_nil] at hdata
        simp only [State.finishMessage, hphase, hremainder, hmarker]
        exact h.finishPiece hinv hfull (.last hcontinues (by rw [htotal, hdata]) (.nil none)) (by simp [hdata]) rfl

end

end Ccf.Oversized
