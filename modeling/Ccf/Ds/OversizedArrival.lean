import Ccf.Ds.OversizedDelivery

/-! # Oversized messages arrive intact

Moving a piece from a queue to the ring buffer changes nothing that handlers can tell, and reading a piece takes
what the pieces of its writer decode to one further. What is left when no message is being written can be
flushed and read. -/

namespace Ccf.Oversized

open State List Function
open RingBuffer (Item)

variable {cfg : WriterConfig} {s s' : State} {w v : ℕ} {known : ℕ → Option (ℕ × PartialMessage)}
  {x : Slot} {fs us : List Slot}

/-! ### Moving a piece to the ring buffer -/

theorem split_finished {as bs : List Slot} (h : as ++ x :: bs = fs ++ us) (hx : x.finished = true)
    (hus : ∀ u ∈ us, u.finished = false) : ∃ cs, fs = as ++ x :: cs ∧ bs = cs ++ us := by
  have hnot : x ∉ us := fun hmem => by
    rw [hus x hmem] at hx
    cases hx
  rcases append_eq_append_iff.1 h with ⟨cs, hfs, hbs⟩ | ⟨cs, -, hus'⟩
  · cases cs with
    | nil =>
      rw [nil_append] at hbs
      exact absurd (hbs ▸ mem_cons_self) hnot
    | cons c cs =>
      obtain ⟨rfl, rfl⟩ := List.cons.inj hbs
      exact ⟨cs, hfs, rfl⟩
  · exact absurd (hus' ▸ mem_append_right _ mem_cons_self) hnot

variable (h : Inv cfg s known) {p : PartialMessage} {id : ℕ} {item : Item} {entries : List (ℕ × Slot)}
  {k : Option (ℕ × PartialMessage)} {a : Action}
include h

theorem Inv.flush (room : Option ℕ) : Inv cfg (s.flush w room) known := by
  cases hpending : (s.writers w).pending with
  | nil =>
    simp only [State.flush, hpending]
    exact h
  | cons x pending =>
    cases room with
    | none =>
      simp only [State.flush, hpending]
      exact h
    | some padding =>
      simp only [State.flush, hpending]
      split_ifs with hx
      · obtain ⟨fs, us, out, after, current, ids, hinv⟩ := h.writer w
        have hold : ofOwner w s.ring.entries ++ x :: pending = fs ++ us := by
          rw [← hinv.pieces, pieces, hpending]
        obtain ⟨cs, rfl, rfl⟩ := split_finished hold hx hinv.writing.unfinished
        have hfull := (hinv.full x (mem_append_right _ mem_cons_self)).2
        have hitem := Slot.item_of_full hfull
        obtain ⟨y, hy⟩ : ∃ y : Slot, y = ⟨.ring s.ring.tail, x.m, x.size, x.item.data, true⟩ := ⟨_, rfl⟩
        have hyitem : y.item = x.item := by
          have hyfull : y.written.length = y.size := by rw [hy, hitem]; exact hfull
          rw [Slot.item_of_full hyfull, hitem, hy, hitem]
        rw [← hy]
        refine h.of_writer ⟨fun v hv => ?_, fun v hv => ?_, fun v hv => ?_, rfl, rfl, rfl⟩ []
          (append_nil _).symm (by rintro _ ⟨⟩) ⟨hy ▸ h.distinct.ring.concat rfl .., fun v => ?_⟩
          ⟨ofOwner w s.ring.entries ++ y :: cs, us, out, after, current, ids, ?_, ?_, ?_, ?_, ?_, hinv.underway⟩
        · simp only [pieces, ofOwner_append, ofOwner_cons_of_ne hv.symm, ofOwner_nil, append_nil,
            setWriter_of_ne s hv]
        · simp only [setWriter_of_ne s hv]
        · simp only [setWriter_of_ne s hv]
        · by_cases hv : v = w
          · subst hv
            simp only [setWriter_self]
            have hqueue := h.distinct.queue v
            have hnodup := hqueue.nodup
            rw [hpending, map_cons, nodup_cons] at hnodup
            exact ⟨hnodup.2, fun z hz => hqueue.base z (hpending ▸ mem_cons_of_mem _ hz)⟩
          · simp only [setWriter_of_ne s hv]
            exact h.distinct.queue v
        · simp only [pieces, ofOwner_append, ofOwner_cons_self, ofOwner_nil, setWriter_self,
            append_assoc, cons_append, nil_append]
        · have hall := forall_mem_append.1 hinv.full
          refine forall_mem_append.2 ⟨hall.1, forall_mem_cons.2 ⟨?_, (forall_mem_cons.1 hall.2).2⟩⟩
          rw [hy, hitem]
          exact ⟨rfl, hfull⟩
        · have hdecodes := hinv.decodes
          rw [map_append, map_cons] at hdecodes ⊢
          rw [hyitem]
          exact hdecodes
        · simp only [setWriter_self]
          exact hinv.writing
        · simp only [setWriter_self]
          exact hinv.sent
      · exact h

omit h

/-! ### Reading -/

theorem absorb_writer {known : Option (ℕ × PartialMessage)}
    (hp : Continues w known item id p) (hknown : ∀ x ∈ known, x.2.writer = w) : p.writer = w := by
  have habsorb := hp.absorb_eq
  cases known with
  | none =>
    simp only [Option.map_none, absorb] at habsorb
    split_ifs at habsorb
    cases habsorb
    rfl
  | some x =>
    simp only [Option.map_some, absorb] at habsorb
    split_ifs at habsorb
    cases habsorb
    exact hknown x rfl

/-- The identifier of a message that is handed on, or left under way, by the pieces of a writer is under way. -/
theorem WriterInv.mem_underway {after : Option (ℕ × PartialMessage)} {out : List (Option ℕ × Item)}
    {current : List Item} {ids : List ℕ} (hinv : WriterInv cfg s w k fs us out after current ids)
    (hmem : id ∈ out.filterMap Prod.fst ++ after.toList.map Prod.fst) : (w, id) ∈ s.underway := by
  rw [← mem_ofOwner, hinv.underway]
  rcases mem_append.1 hmem with hmem | hmem
  · exact mem_append_left _ hmem
  · obtain ⟨x, hx, rfl⟩ := mem_map.1 hmem
    exact mem_append_right _ (hinv.writing.id_mem x (Option.mem_toList.1 hx))

include h

/-- The identifier of a message that a writer has under way in the reconstructor is under way. -/
theorem Inv.known_underway (hw : known w = some (id, p)) : (w, id) ∈ s.underway := by
  obtain ⟨fs, us, out, after, current, ids, hinv⟩ := h.writer w
  exact hinv.mem_underway (hinv.decodes.id_mem (id, p) hw)

/-- The reconstructor finds what the writer has under way, and nothing of another writer. -/
theorem Inv.lookup (hp : Continues w (known w) item id p) (hid : (w, id) ∈ s.underway) :
    s.partialMessages id = (known w).map Prod.snd := by
  cases hw : known w with
  | some x =>
    obtain ⟨id', q⟩ := x
    obtain rfl : id' = id := hp.known_id (id', q) hw
    exact (h.known_eq w id' q hw).2
  | none =>
    cases hfound : s.partialMessages id with
    | none => rfl
    | some q =>
      have hq := h.partial_eq id q hfound
      have hsame : q.writer = w := h.apart _ (h.known_underway hq) _ hid rfl
      rw [hsame, hw] at hq
      cases hq

omit h

/-- The state after the reader has taken the first reservation off the ring buffer. -/
def State.taken (s : State) (entries : List (ℕ × Slot)) : State := { s with ring := { s.ring with entries := entries } }

theorem State.taken_pieces_of_ne (hentries : s.ring.entries = (w, x) :: entries)
    (hv : v ≠ w) : (s.taken entries).pieces v = s.pieces v := by
  rw [pieces, pieces, hentries, ofOwner_cons_of_ne hv.symm]
  rfl

theorem distinct_taken {x : ℕ × Slot} (h : Distinct s)
    (hentries : s.ring.entries = x :: entries) : Distinct (s.taken entries) := by
  have hnodup := h.ring.nodup
  rw [hentries, map_cons, nodup_cons] at hnodup
  exact ⟨⟨hnodup.2, fun e he => h.ring.base e (hentries ▸ mem_cons_of_mem _ he)⟩, h.queue⟩

include h

/-- What is known of the messages under way after a fragment of writer `w`. -/
theorem Inv.known_update {k : Option PartialMessage}
    (hp : Continues w (known w) item id p) (hid : (w, id) ∈ s.underway)
    (hk : ∀ q ∈ k, q.writer = w) :
    (∀ v id' q, update known w (k.map fun q => (id, q)) v = some (id', q) →
      q.writer = v ∧ update s.partialMessages id k id' = some q) ∧
    ∀ id' q, update s.partialMessages id k id' = some q →
      update known w (k.map fun q => (id, q)) q.writer = some (id', q) := by
  refine ⟨fun v id' q hq => ?_, fun id' q hq => ?_⟩
  · by_cases hv : v = w
    · subst hv
      rw [update_self] at hq
      obtain ⟨q', hq', heq⟩ := Option.map_eq_some_iff.1 hq
      cases heq
      rw [update_self]
      exact ⟨hk q hq', hq'⟩
    · rw [update_of_ne hv] at hq
      have hne : id' ≠ id := fun heq => hv (h.apart _ (h.known_underway hq) _ hid heq)
      rw [update_of_ne hne]
      exact h.known_eq v id' q hq
  · by_cases heq : id' = id
    · subst heq
      rw [update_self] at hq
      rw [hk q hq, update_self, hq]
      rfl
    · rw [update_of_ne heq] at hq
      have hq' := h.partial_eq id' q hq
      have hne : q.writer ≠ w := fun hw => by
        rw [hw] at hq'
        exact heq (hp.known_id _ hq')
      rw [update_of_ne hne]
      exact hq'

/-- The reader has taken a message of writer `w`, after which `k` is under way. -/
theorem Inv.of_read (hwriters : s'.writers = s.writers)
    (hpieces : ∀ v ≠ w, s'.pieces v = s.pieces v) (hseen : ∀ v ≠ w, s'.seen v = s.seen v)
    (hunderway : ∀ v ≠ w, ofOwner v s'.underway = ofOwner v s.underway) (hsub : s'.underway ⊆ s.underway)
    (hdistinct : Distinct s') (hfailed : s'.failed = s.failed)
    (hknown : (∀ v id q, update known w k v = some (id, q) → q.writer = v ∧ s'.partialMessages id = some q) ∧
      ∀ id q, s'.partialMessages id = some q → update known w k q.writer = some (id, q))
    (hw : ∃ fs us out after current ids, WriterInv cfg s' w k fs us out after current ids) :
    Inv cfg s' (update known w k) := by
  refine ⟨fun v => ?_, hknown.1, hknown.2, fun x hx y hy => h.apart x (hsub hx) y (hsub hy), hdistinct,
    hfailed.trans h.no_exception⟩
  by_cases hv : v = w
  · subst hv
    rw [update_self]
    exact hw
  · rw [update_of_ne hv]
    obtain ⟨fs, us, out, after, current, ids, hinv⟩ := h.writer v
    refine ⟨fs, us, out, after, current, ids, (hpieces v hv).trans hinv.pieces, hinv.full, hinv.decodes,
      hwriters ▸ hinv.writing, ?_, (hunderway v hv).trans hinv.underway⟩
    rw [hseen v hv, hwriters]
    exact hinv.sent

omit h

theorem ofOwner_dispatch_of_ne (hv : v ≠ w) : ofOwner v (s.dispatched ++ [(w, item)]) = ofOwner v s.dispatched := by
  rw [ofOwner_append, ofOwner_cons_of_ne hv.symm, ofOwner_nil, append_nil]

section handle

variable {cs : List Slot} {out : List (Option ℕ × Item)}
  {after : Option (ℕ × PartialMessage)} {current : List Item} {ids : List ℕ}

include h

theorem Inv.handle_whole (hentries : s.ring.entries = (w, x) :: entries)
    (hinv : WriterInv cfg s w (known w) (x :: cs) us ((none, x.item) :: out) after current ids)
    (hpieces : (s.taken entries).pieces w = cs ++ us) (hm : x.item.m ≠ fragment) (hk : known w = none)
    (hrest : Decodes w none (cs.map Slot.item) out after) :
    ∃ known', Inv cfg ((s.taken entries).handle w x.item) known' := by
  have hdistinct := distinct_taken h.distinct hentries
  rw [handle, if_neg hm]
  refine ⟨_, h.of_read (w := w) (k := none) rfl (fun v => taken_pieces_of_ne hentries)
    (fun v hv => ofOwner_dispatch_of_ne hv) (fun _ _ => rfl) (List.Subset.refl _)
    ⟨hdistinct.ring, hdistinct.queue⟩ rfl ?_
    ⟨cs, us, out, after, current, ids, hpieces, fun y hy => hinv.full y (mem_cons_of_mem _ hy), hrest, hinv.writing,
      Eq.trans ?_ hinv.sent, hinv.underway⟩⟩
  · rw [← hk, update_eq_self]
    exact ⟨h.known_eq, h.partial_eq⟩
  · show ofOwner w (s.dispatched ++ [(w, x.item)]) ++ _ = ofOwner w s.dispatched ++ _
    rw [ofOwner_append, ofOwner_cons_self, ofOwner_nil, map_cons, append_assoc]
    rfl

omit h

include h

/-- What the reconstructor finds and makes of a fragment. -/
theorem Inv.absorb_eq (hp : Continues w (known w) x.item id p) (hid : (w, id) ∈ s.underway) :
    absorb ((s.taken entries).partialMessages id) w (x.item.data.drop idSize) = some p := by
  rw [← hp.absorb_eq, ← h.lookup hp hid]
  rfl

theorem Inv.continues_writer (hp : Continues w (known w) x.item id p) : p.writer = w :=
  absorb_writer hp fun y hy => (h.known_eq w y.1 y.2 hy).1

theorem Inv.handle_more (hentries : s.ring.entries = (w, x) :: entries)
    (hinv : WriterInv cfg s w (known w) (x :: cs) us out after current ids)
    (hpieces : (s.taken entries).pieces w = cs ++ us) (hp : Continues w (known w) x.item id p)
    (hne : p.received.length ≠ p.totalSize) (hrest : Decodes w (some (id, p)) (cs.map Slot.item) out after) :
    ∃ known', Inv cfg ((s.taken entries).handle w x.item) known' := by
  have hdistinct := distinct_taken h.distinct hentries
  have hid := hinv.mem_underway (hrest.id_mem (id, p) rfl)
  simp only [handle, if_pos hp.m_eq, if_neg (not_lt.2 hp.long), hp.id_eq, h.absorb_eq hp hid, if_neg hne]
  have hupdate := h.known_update hp hid (k := some p) fun q hq => Option.some.inj hq ▸ h.continues_writer hp
  exact ⟨_, h.of_read (w := w) (k := some (id, p)) rfl (fun v => taken_pieces_of_ne hentries) (fun _ _ => rfl)
    (fun _ _ => rfl) (List.Subset.refl _) ⟨hdistinct.ring, hdistinct.queue⟩ rfl hupdate
    ⟨cs, us, out, after, current, ids, hpieces, fun y hy => hinv.full y (mem_cons_of_mem _ hy), hrest, hinv.writing,
      hinv.sent, hinv.underway⟩⟩

theorem Inv.handle_last (hentries : s.ring.entries = (w, x) :: entries)
    (hinv : WriterInv cfg s w (known w) (x :: cs) us ((some id, ⟨p.m, p.received⟩) :: out) after current ids)
    (hpieces : (s.taken entries).pieces w = cs ++ us) (hp : Continues w (known w) x.item id p)
    (heq : p.received.length = p.totalSize) (hrest : Decodes w none (cs.map Slot.item) out after) :
    ∃ known', Inv cfg ((s.taken entries).handle w x.item) known' := by
  have hdistinct := distinct_taken h.distinct hentries
  have hunderway := hinv.underway
  rw [filterMap_cons_some (by rfl), cons_append] at hunderway
  have hid : (w, id) ∈ s.underway := by
    rw [← mem_ofOwner, hunderway]
    exact mem_cons_self
  have hwriter := h.continues_writer hp
  simp only [handle, if_pos hp.m_eq, if_neg (not_lt.2 hp.long), hp.id_eq, h.absorb_eq hp hid, if_pos heq,
    hwriter]
  have hupdate := h.known_update hp hid (k := none) nofun
  refine ⟨_, h.of_read (w := w) (k := none) rfl (fun v => taken_pieces_of_ne hentries)
    (fun v hv => ofOwner_dispatch_of_ne hv) (fun v hv => ofOwner_erase_of_ne hv.symm) erase_subset
    ⟨hdistinct.ring, hdistinct.queue⟩ rfl hupdate
    ⟨cs, us, out, after, current, ids, hpieces, fun y hy => hinv.full y (mem_cons_of_mem _ hy), hrest, hinv.writing,
      Eq.trans ?_ hinv.sent, ?_⟩⟩
  · show ofOwner w (s.dispatched ++ [(w, _)]) ++ _ = ofOwner w s.dispatched ++ _
    rw [ofOwner_append, ofOwner_cons_self, ofOwner_nil, map_cons, append_assoc]
    rfl
  · show ofOwner w (s.underway.erase (w, id)) = _
    rw [ofOwner_erase_self, hunderway, erase_cons_head]

omit h

end handle

include h

theorem Inv.read : ∃ known', Inv cfg s.read known' := by
  cases hentries : s.ring.entries with
  | nil =>
    simp only [State.read, hentries]
    exact ⟨known, h⟩
  | cons e entries =>
    obtain ⟨w, x⟩ := e
    simp only [State.read, hentries]
    split_ifs with hx
    · obtain ⟨fs, us, out, after, current, ids, hinv⟩ := h.writer w
      have hold : [] ++ x :: (s.taken entries).pieces w = fs ++ us := by
        rw [← hinv.pieces, pieces, pieces, hentries, ofOwner_cons_self]
        rfl
      obtain ⟨cs, rfl, hpieces⟩ := split_finished hold hx hinv.writing.unfinished
      rw [nil_append] at hinv
      obtain ⟨k, hk⟩ : ∃ k, known w = k := ⟨_, rfl⟩
      have hdecodes := hinv.decodes
      rw [hk, map_cons] at hdecodes
      cases hdecodes with
      | whole hm hrest => exact h.handle_whole hentries hinv hpieces hm hk hrest
      | more hp hne hrest => exact h.handle_more hentries hinv hpieces (hk ▸ hp) hne hrest
      | last hp heq hrest => exact h.handle_last hentries hinv hpieces (hk ▸ hp) heq hrest
    · exact ⟨known, h⟩

omit h

/-! ### Whole runs -/

theorem inv_init : Inv cfg init fun _ => none :=
  ⟨fun _ => ⟨[], [], [], none, [], [], rfl, nofun, .nil none, .idle, rfl, rfl⟩,
    nofun, nofun, nofun,
    ⟨⟨nodup_nil, nofun⟩, fun _ => ⟨nodup_nil, nofun⟩⟩, rfl⟩

include h

theorem Inv.next (hsafe : s.Safe cfg a) : ∃ known', Inv cfg (step cfg s a) known' := by
  cases a with
  | prepare w m sections room => exact ⟨known, h.prepareMessage hsafe⟩
  | write w room => exact ⟨known, h.writeSection room⟩
  | finish w => exact ⟨known, h.finishMessage⟩
  | flush w room => exact ⟨known, h.flush room⟩
  | read => exact h.read

omit h

theorem inv_run {actions : List Action} (hsafe : Runs.Along (step cfg) (State.Safe cfg) init actions) :
    ∃ known, Inv cfg (run cfg init actions) known :=
  Runs.exec_induction (I := fun s => ∃ known, Inv cfg s known) (fun _ _ ⟨_, h⟩ ha => h.next ha) ⟨_, inv_init⟩ hsafe

/-! ### All messages arrive -/

theorem handle_frame (s : State) (w : ℕ) (item : Item) :
    (s.handle w item).writers = s.writers ∧ (s.handle w item).ring = s.ring := by
  simp only [handle, dispatch]
  split_ifs
  · exact ⟨rfl, rfl⟩
  · split
    · exact ⟨rfl, rfl⟩
    · split_ifs <;> exact ⟨rfl, rfl⟩
  · exact ⟨rfl, rfl⟩

theorem read_writers (s : State) : s.read.writers = s.writers := by
  unfold State.read
  split
  · split_ifs
    · exact (handle_frame ..).1
    · rfl
  · rfl

include h

/-- The pieces of a writer that is not writing are finished. -/
theorem Inv.finished_of_idle (hidle : (s.writers w).phase = .idle) : ∀ x ∈ s.pieces w, x.finished = true := by
  obtain ⟨fs, us, out, after, current, ids, hinv⟩ := h.writer w
  have hwriting := hinv.writing
  rw [hidle] at hwriting
  cases hwriting
  rw [hinv.pieces, append_nil]
  exact fun x hx => (hinv.full x hx).1

omit h

theorem Inv.flush_all (n : ℕ) : ∀ {s : State} {known : ℕ → Option (ℕ × PartialMessage)}, Inv cfg s known →
    (s.writers w).phase = .idle → (s.writers w).pending.length = n →
    ∃ s' known', run cfg s (List.replicate n (.flush w (some 0))) = s' ∧ Inv cfg s' known' ∧
      (∀ v, (s'.writers v).phase = (s.writers v).phase) ∧ (s'.writers w).sent = (s.writers w).sent ∧
      (s'.writers w).pending = [] := by
  induction n with
  | zero =>
    intro s known h hidle hn
    exact ⟨s, known, rfl, h, fun _ => rfl, rfl, length_eq_zero_iff.1 hn⟩
  | succ n ih =>
    intro s known h hidle hn
    obtain ⟨x, pending, hpending⟩ := exists_cons_of_length_eq_add_one hn
    have hx : x.finished = true :=
      h.finished_of_idle hidle x (mem_append_right _ (hpending ▸ mem_cons_self))
    have hstep : ∀ v, ((s.flush w (some 0)).writers v) =
        if v = w then { s.writers w with pending := pending } else s.writers v := by
      intro v
      simp only [State.flush, hpending, hx, if_true]
      split_ifs with hv
      · subst hv
        exact State.setWriter_self _ _ _
      · exact State.setWriter_of_ne s hv _
    have hphase : ∀ v, ((s.flush w (some 0)).writers v).phase = (s.writers v).phase := by
      intro v
      rw [hstep]
      split_ifs with hv
      · rw [hv]
      · rfl
    obtain ⟨s', known', hrun, hinv, hphase', hsent, hempty⟩ := ih (h.flush (w := w) (some 0))
      ((hphase w).trans hidle) (by rw [hstep, if_pos rfl]; rw [hpending] at hn; exact Nat.succ.inj hn)
    refine ⟨s', known', ?_, hinv, fun v => (hphase' v).trans (hphase v), ?_, hempty⟩
    · exact hrun
    · rw [hsent, hstep, if_pos rfl]

theorem Inv.read_all (n : ℕ) : ∀ {s : State} {known : ℕ → Option (ℕ × PartialMessage)}, Inv cfg s known →
    (∀ v, (s.writers v).phase = .idle) → s.ring.entries.length = n →
    ∃ known', Inv cfg (run cfg s (List.replicate n .read)) known' ∧
      (run cfg s (List.replicate n .read)).writers = s.writers ∧
      (run cfg s (List.replicate n .read)).ring.entries = [] := by
  induction n with
  | zero =>
    intro s known h hidle hn
    exact ⟨known, h, rfl, length_eq_zero_iff.1 hn⟩
  | succ n ih =>
    intro s known h hidle hn
    obtain ⟨e, entries, hentries⟩ := exists_cons_of_length_eq_add_one hn
    obtain ⟨w, x⟩ := e
    have hx : x.finished = true := by
      refine h.finished_of_idle (hidle w) x (mem_append_left _ ?_)
      rw [hentries, ofOwner_cons_self]
      exact mem_cons_self
    have hread : s.read.ring.entries = entries := by
      simp only [State.read, hentries, hx, if_true, handle_frame]
    obtain ⟨known1, h1⟩ := h.read
    obtain ⟨known', hinv, hwriters, hempty⟩ := ih h1 (fun v => by rw [read_writers]; exact hidle v)
      (by rw [hread]; rw [hentries] at hn; exact Nat.succ.inj hn)
    exact ⟨known', hinv, hwriters.trans (read_writers s), hempty⟩

include h

theorem Inv.seen_of_empty (hidle : (s.writers w).phase = .idle) (hpieces : s.pieces w = []) :
    s.seen w = (s.writers w).sent := by
  obtain ⟨fs, us, out, after, current, ids, hinv⟩ := h.writer w
  have hwriting := hinv.writing
  rw [hidle] at hwriting
  cases hwriting
  have hnil : fs = [] := by
    have hold := hinv.pieces
    rw [hpieces, append_nil] at hold
    exact hold.symm
  obtain ⟨k, hk⟩ : ∃ k, known w = k := ⟨_, rfl⟩
  have hdecodes := hinv.decodes
  rw [hnil, map_nil, hk] at hdecodes
  cases hdecodes
  have hsent := hinv.sent
  rw [map_nil, append_nil, append_nil] at hsent
  exact hsent

theorem Inv.intact : s.Intact cfg := by
  refine ⟨h.no_exception, fun w => ?_, fun hidle w => ?_⟩
  · obtain ⟨fs, us, out, after, current, ids, hinv⟩ := h.writer w
    exact ⟨_, hinv.sent⟩
  · obtain ⟨s1, known1, hrun1, h1, hphase, hsent, hpending⟩ := h.flush_all (w := w) _ (hidle w) rfl
    obtain ⟨known2, h2, hwriters, hentries⟩ := h1.read_all _ (fun v => (hphase v).trans (hidle v)) rfl
    refine ⟨List.replicate (s.writers w).pending.length (.flush w (some 0)) ++
      List.replicate s1.ring.entries.length .read, fun a ha => ?_, ?_⟩
    · rcases mem_append.1 ha with ha | ha
      · rw [eq_of_mem_replicate ha]
        trivial
      · rw [eq_of_mem_replicate ha]
        trivial
    · have hrun : run cfg s (List.replicate (s.writers w).pending.length (.flush w (some 0)) ++
          List.replicate s1.ring.entries.length .read) = run cfg s1 (List.replicate s1.ring.entries.length .read) :=
        (Runs.exec_append _ _ _).trans (congrArg (fun t => run cfg t _) hrun1)
      rw [hrun, h2.seen_of_empty, hwriters, hsent]
      · rw [hwriters]
        exact (hphase w).trans (hidle w)
      · rw [pieces, hentries, hwriters, hpending]
        rfl

omit h

/-- Fragments of 24 bytes: four bytes of the message in the first one, sixteen in the others. -/
def smallFragments : WriterConfig := ⟨24, 1000, by decide, by decide, by decide⟩

/-- A small message and two in fragments, the second of which is kept in a queue. -/
def twoWriters : List Action :=
  [.prepare 3 9 [[5]] (some 0), .write 3 none, .prepare 1 7 [List.replicate 30 1] (some 0),
    .prepare 2 8 [List.replicate 36 2] none, .write 1 (some 0), .write 2 none, .write 1 none, .write 2 none,
    .write 1 none,
    .finish 1, .finish 3, .flush 2 (some 0), .read, .flush 1 (some 0), .read]

/-- Two writers that find no room for their first fragments, and whose queues are flushed in turns. -/
def mixedUp : List Action :=
  [.prepare 1 7 [List.replicate 36 1] none, .prepare 2 8 [List.replicate 36 2] none, .write 1 none, .write 1 none,
    .write 1 none, .finish 1, .write 2 none, .write 2 none, .flush 1 (some 0), .flush 2 (some 0), .flush 1 (some 0),
    .read, .read, .read]

/-- Two empty messages in a queue: the second is never marked as finished, and what is behind it is never sent. -/
example : ((run smallFragments init
    [.prepare 1 7 [] none, .finish 1, .prepare 1 7 [] none, .finish 1]).writers 1).pending.map Slot.finished =
    [true, false] := by decide +kernel

end Ccf.Oversized
