import Ccf.Ds.Oversized
import Mathlib.Data.List.Nodup

/-! # What a writer has handed on

The pieces of a writer are its reservations that have not been read, followed by its queue. A new piece goes to
the end of them, wherever it is kept; bytes go to the piece with the marker; and a piece that moves from the queue
to the ring buffer stays where it is among them. Markers say which piece is meant, as no two pieces in use have
the same address (`Distinct`).

What the reconstructor makes of the pieces is `Decodes`, if no other writer uses the identifiers, and `Writing` what
a writer has handed on of the message that it is writing. -/

namespace Ccf.Oversized

open State List
open RingBuffer (Item)

/-- The pieces of writer `w`. -/
def State.pieces (s : State) (w : ℕ) : List Slot := ofOwner w s.ring.entries ++ (s.writers w).pending

/-- The addresses of reservations. -/
structure RingBases (ring : Ring) : Prop where
  nodup : (ring.entries.map fun e => e.2.base).Nodup
  base : ∀ e ∈ ring.entries, ∃ start < ring.tail, e.2.base = .ring start

/-- The addresses of the messages in a queue; at most one of them is empty. -/
structure QueueBases (wr : Writer) : Prop where
  nodup : (wr.pending.map Slot.base).Nodup
  base : ∀ x ∈ wr.pending, (x.base = .null ∧ x.size = 0) ∨ ∃ buffer < wr.buffers, x.base = .heap buffer

structure Distinct (s : State) : Prop where
  ring : RingBases s.ring
  queue : ∀ w, QueueBases (s.writers w)

/-- The two states differ in reservations and queues only. -/
structure Frame (s s' : State) : Prop where
  phase : ∀ w, (s'.writers w).phase = (s.writers w).phase
  sent : ∀ w, (s'.writers w).sent = (s.writers w).sent
  partialMessages : s'.partialMessages = s.partialMessages
  dispatched : s'.dispatched = s.dispatched
  underway : s'.underway = s.underway
  failed : s'.failed = s.failed

variable {s'' : State}

theorem Frame.trans {s s' : State} (h : Frame s s') (h' : Frame s' s'') : Frame s s'' :=
  ⟨fun w => (h'.phase w).trans (h.phase w), fun w => (h'.sent w).trans (h.sent w),
    h'.partialMessages.trans h.partialMessages, h'.dispatched.trans h.dispatched, h'.underway.trans h.underway,
    h'.failed.trans h.failed⟩

variable {s : State} {w v : ℕ} {f : Writer → Writer} {y u : Slot} {xs ys : List Slot}

@[simp] theorem State.setWriter_self (s : State) (w : ℕ) (f : Writer → Writer) :
    (s.setWriter w f).writers w = f (s.writers w) := Function.update_self _ _ _

theorem State.setWriter_of_ne (s : State) (h : v ≠ w) (f : Writer → Writer) :
    (s.setWriter w f).writers v = s.writers v :=
  Function.update_of_ne h _ _

/-- A change to the queue of a writer. -/
theorem frame_setWriter (hphase : (f (s.writers w)).phase = (s.writers w).phase)
    (hsent : (f (s.writers w)).sent = (s.writers w).sent) : Frame s (s.setWriter w f) := by
  refine ⟨fun v => ?_, fun v => ?_, rfl, rfl, rfl, rfl⟩
  · by_cases h : v = w
    · subst h
      rw [setWriter_self, hphase]
    · rw [setWriter_of_ne s h]
  · by_cases h : v = w
    · subst h
      rw [setWriter_self, hsent]
    · rw [setWriter_of_ne s h]

/-- What is in the ring buffer has not the address of what is in a queue. -/
theorem Distinct.base_ne {x : Slot} (h : Distinct s) (hx : x ∈ ofOwner v s.ring.entries)
    (hy : y ∈ (s.writers w).pending) : x.base ≠ y.base := by
  obtain ⟨start, -, hstart⟩ := h.ring.base _ (mem_ofOwner.1 hx)
  rcases (h.queue w).base y hy with ⟨hnull, -⟩ | ⟨buffer, -, hheap⟩
  · rw [hstart, hnull]
    rintro ⟨⟩
  · rw [hstart, hheap]
    rintro ⟨⟩

theorem Distinct.nodup (h : Distinct s) (w : ℕ) : ((s.pieces w).map Slot.base).Nodup := by
  have hring : ((ofOwner w s.ring.entries).map Slot.base).Nodup := by
    rw [ofOwner, map_map]
    exact List.Nodup.sublist (List.Sublist.map _ filter_sublist) h.ring.nodup
  rw [pieces, map_append]
  refine List.Nodup.append hring (h.queue w).nodup fun b hb hb' => ?_
  obtain ⟨x, hx, rfl⟩ := mem_map.1 hb
  obtain ⟨y, hy, heq⟩ := mem_map.1 hb'
  exact h.base_ne hx hy heq.symm

/-- The step leaves `xs` as the pieces of writer `w`, and those of the others as they were. -/
structure Replaces (s s' : State) (w : ℕ) (xs : List Slot) : Prop where
  frame : Frame s s'
  pieces : s'.pieces w = xs
  others : ∀ v ≠ w, s'.pieces v = s.pieces v
  distinct : Distinct s'

theorem Replaces.trans {s' : State} (h : Replaces s s' w xs) (h' : Replaces s' s'' w ys) :
    Replaces s s'' w ys :=
  ⟨h.frame.trans h'.frame, h'.pieces, fun v hv => (h'.others v hv).trans (h.others v hv), h'.distinct⟩

/-! ### A new piece -/

/-- What `prepare` does. -/
structure Prepared (s : State) (w m size : ℕ) (s' : State) (marker : Marker) (identifier : ℕ) (x : Slot) : Prop where
  frame : Frame s s'
  pieces : s'.pieces w = s.pieces w ++ [x]
  others : ∀ v ≠ w, s'.pieces v = s.pieces v
  m_eq : x.m = m
  size_eq : x.size = size
  written : x.written = []
  finished : x.finished = false
  marker_eq : marker = x.data
  identifier_lt : identifier < 2 ^ 64
  distinct : Distinct s'

section
variable {m size identifier : ℕ} {s' : State} {marker : Marker} {x : Slot}
  (h : Prepared s w m size s' marker identifier x)
include h

theorem Prepared.replaces : Replaces s s' w (s.pieces w ++ [x]) :=
  ⟨h.frame, h.pieces, h.others, h.distinct⟩

theorem Prepared.marker_start : marker = x.marker := by
  rw [h.marker_eq, Slot.marker, h.written]
  rfl

end

theorem RingBases.concat {x : Slot} {ring : Ring} (h : RingBases ring) (hx : x.base = .ring ring.tail)
    (w size padding : ℕ) :
    RingBases ⟨ring.tail + RingBuffer.entrySize size + padding, ring.entries ++ [(w, x)]⟩ := by
  have hsize : 0 < RingBuffer.entrySize size := by
    unfold RingBuffer.entrySize RingBuffer.alignSize RingBuffer.headerSize
    omega
  refine ⟨?_, forall_mem_append.2 ⟨fun e he => ?_, forall_mem_singleton.2 ⟨_, by dsimp only; omega, hx⟩⟩⟩
  · rw [map_append]
    refine h.nodup.append (nodup_singleton _) fun b hb hb' => ?_
    obtain ⟨e, he, rfl⟩ := mem_map.1 hb
    obtain ⟨start, hlt, hstart⟩ := h.base e he
    have heq : x.base = .ring start := (mem_singleton.1 hb').symm.trans hstart
    rw [hx, Base.ring.injEq] at heq
    omega
  · obtain ⟨start, hlt, hstart⟩ := h.base e he
    exact ⟨start, by dsimp only; omega, hstart⟩

theorem prepared_reserve (h : Distinct s) (hpending : (s.writers w).pending = []) (m size padding : ℕ) :
    Prepared s w m size (s.reserve w m size padding).1 (s.reserve w m size padding).2.1
      (s.reserve w m size padding).2.2 ⟨.ring s.ring.tail, m, size, [], false⟩ := by
  refine ⟨⟨fun _ => rfl, fun _ => rfl, rfl, rfl, rfl, rfl⟩, ?_, fun v hv => ?_, rfl, rfl, rfl, rfl, rfl,
    Nat.mod_lt _ (by decide), ⟨h.ring.concat rfl w size padding, h.queue⟩⟩
  · simp only [pieces, reserve, ofOwner_append, ofOwner_cons_self, ofOwner_nil, hpending, append_nil]
  · simp only [pieces, reserve, ofOwner_append, ofOwner_cons_of_ne hv.symm, ofOwner_nil, append_nil]

theorem prepared_enqueue (h : Distinct s) {size : ℕ} (hempty : size = 0 → ∀ x ∈ (s.writers w).pending, x.size ≠ 0)
    (m : ℕ) : Prepared s w m size (s.enqueue w m size).1 (s.enqueue w m size).2.1 (s.enqueue w m size).2.2
      ⟨if size = 0 then .null else .heap (s.writers w).buffers, m, size, [], false⟩ := by
  have hqueue := h.queue w
  have hframe : Frame s (s.enqueue w m size).1 := by
    simp only [enqueue]
    exact frame_setWriter rfl rfl
  refine ⟨hframe, ?_, fun v hv => ?_, rfl, rfl, rfl, rfl, rfl, Nat.two_pow_pos 64, ⟨h.ring, fun v => ?_⟩⟩
  · simp only [pieces, enqueue, setWriter_self, ← append_assoc]
    rfl
  · simp only [pieces, enqueue, setWriter_of_ne s hv]
    rfl
  · by_cases hv : v = w
    · subst hv
      simp only [enqueue, setWriter_self]
      refine ⟨?_, fun x hx => ?_⟩
      · simp only [map_append, map_cons, map_nil]
        refine List.Nodup.append hqueue.nodup (nodup_singleton _) fun b hb hb' => ?_
        obtain ⟨x, hx, rfl⟩ := mem_map.1 hb
        rw [mem_singleton] at hb'
        rcases hqueue.base x hx with ⟨hnull, hsize⟩ | ⟨buffer, hlt, hheap⟩
        · rw [hnull] at hb'
          split_ifs at hb' with hzero
          exact hempty hzero x hx hsize
        · rw [hheap] at hb'
          split_ifs at hb'
          cases hb'
          exact lt_irrefl _ hlt
      · rcases mem_append.1 hx with hx | hx
        · exact (hqueue.base x hx).imp id (Exists.imp fun _ => And.imp_left Nat.lt_succ_of_lt)
        · rw [mem_singleton.1 hx]
          split_ifs with hzero
          · exact .inl ⟨rfl, hzero⟩
          · exact .inr ⟨_, Nat.lt_succ_self _, rfl⟩
    · simp only [enqueue, setWriter_of_ne s hv]
      exact h.queue v

theorem State.prepared {s' : State} {m : ℕ} (h : Distinct s) {size identifier : ℕ} {room : Option ℕ} {marker : Marker}
    (hempty : size = 0 → ∀ x ∈ (s.writers w).pending, x.size ≠ 0)
    (hprepare : s.prepare w m size room = (s', marker, identifier)) :
    ∃ x, Prepared s w m size s' marker identifier x := by
  unfold prepare at hprepare
  split at hprepare
  · rename_i padding hpending
    cases hprepare
    exact ⟨_, prepared_reserve h hpending m size padding⟩
  · cases hprepare
    exact ⟨_, prepared_enqueue h hempty m⟩

/-! ### A change to one piece -/

section update

variable {here : Slot → Bool} {f : Slot → Slot}

theorem apart_of_nodup {α : Type} {l : List α} {g : α → Base} (h : (l.map g).Nodup) {p : α → Bool}
    (hp : ∀ x y, p x → p y → g x = g y) : l.Pairwise fun x y => ¬(p x ∧ p y) := by
  rw [List.Nodup, pairwise_map] at h
  exact h.imp fun hne ⟨ha, hb⟩ => hne (hp _ _ ha hb)

theorem ofOwner_updateFirst (hring : RingBases s.ring) (hhere : ∀ x y, here x → here y → x.base = y.base) :
    updateFirst (fun e => here e.2) (fun e => (e.1, f e.2)) s.ring.entries =
      s.ring.entries.map fun e => (e.1, if here e.2 then f e.2 else e.2) := by
  rw [updateFirst_eq_map (apart_of_nodup hring.nodup fun x y => hhere x.2 y.2)]
  refine map_congr_left fun e _ => ?_
  split_ifs <;> rfl

theorem map_keep (h : ∀ x ∈ xs, ¬here x) : xs.map (fun x => if here x then f x else x) = xs :=
  (map_congr_left fun x hx => if_neg (h x hx)).trans (map_id xs)

theorem map_keep_base (hbase : ∀ x, (f x).base = x.base) (xs : List Slot) :
    (xs.map fun x => if here x then f x else x).map Slot.base = xs.map Slot.base := by
  rw [map_map]
  refine map_congr_left fun x _ => ?_
  simp only [Function.comp_apply]
  split_ifs
  · exact hbase x
  · rfl

/-- What `update` does to the pieces of the writer, if one of them is meant. -/
theorem State.update_spec (h : Distinct s) (hhere : ∀ x y, here x → here y → x.base = y.base)
    (hbase : ∀ x, (f x).base = x.base) (hsize : ∀ x, (f x).size = x.size) (hu : u ∈ s.pieces w)
    (hmeant : here u) :
    Replaces s (s.update w here f) w ((s.pieces w).map fun x => if here x then f x else x) := by
  have hqueue := h.queue w
  by_cases hany : (s.writers w).pending.any here
  · -- the piece is in the queue, and so no reservation is meant
    obtain ⟨y, hy, hhy⟩ := any_eq_true.1 hany
    have hring : ∀ x ∈ ofOwner w s.ring.entries, ¬here x := fun x hx hhx => h.base_ne hx hy (hhere x y hhx hhy)
    have hupdate : updateFirst here f (s.writers w).pending =
        (s.writers w).pending.map fun x => if here x then f x else x :=
      updateFirst_eq_map (apart_of_nodup hqueue.nodup hhere)
    have hstate : s.update w here f =
        s.setWriter w fun wr => { wr with pending := updateFirst here f wr.pending } := by
      rw [update, if_pos hany]
    rw [hstate]
    refine ⟨frame_setWriter rfl rfl, ?_, fun v hv => ?_, h.ring, fun v => ?_⟩
    · rw [pieces, setWriter_self, pieces, map_append, map_keep hring, ← hupdate]
      rfl
    · rw [pieces, setWriter_of_ne s hv]
      rfl
    · by_cases hv : v = w
      · subst hv
        rw [setWriter_self]
        refine ⟨?_, fun x hx => ?_⟩
        · simp only [hupdate, map_keep_base hbase]
          exact hqueue.nodup
        · simp only [hupdate, mem_map] at hx
          obtain ⟨z, hz, rfl⟩ := hx
          have hz' := hqueue.base z hz
          split_ifs
          · rw [hbase, hsize]
            exact hz'
          · exact hz'
      · rw [setWriter_of_ne s hv]
        exact h.queue v
  · have hnone : ∀ x ∈ (s.writers w).pending, ¬here x := fun x hx hhx => hany (any_eq_true.2 ⟨x, hx, hhx⟩)
    have hmem : (w, u) ∈ s.ring.entries := by
      rcases mem_append.1 hu with hu | hu
      · exact mem_ofOwner.1 hu
      · exact absurd hmeant (hnone u hu)
    have hothers : ∀ v ≠ w, ∀ x ∈ ofOwner v s.ring.entries, ¬here x := by
      intro v hv x hx hhx
      have heq := inj_on_of_nodup_map h.ring.nodup (mem_ofOwner.1 hx) hmem (hhere x u hhx hmeant)
      exact hv (congrArg Prod.fst heq)
    have hstate : s.update w here f = { s with ring := { s.ring with
        entries := s.ring.entries.map fun e => (e.1, if here e.2 then f e.2 else e.2) } } := by
      rw [update, if_neg hany, ofOwner_updateFirst h.ring hhere]
    rw [hstate]
    refine ⟨⟨fun _ => rfl, fun _ => rfl, rfl, rfl, rfl, rfl⟩, ?_, fun v hv => ?_, ⟨?_, ?_⟩, h.queue⟩
    · simp only [pieces]
      rw [ofOwner_map fun x => if here x then f x else x, map_append, map_keep hnone]
    · simp only [pieces]
      rw [ofOwner_map fun x => if here x then f x else x, map_keep (hothers v hv)]
    · have hmap : (s.ring.entries.map fun e => (e.1, if here e.2 then f e.2 else e.2)).map (fun e => e.2.base) =
          s.ring.entries.map fun e => e.2.base := by
        rw [map_map]
        refine map_congr_left fun e _ => ?_
        simp only [Function.comp_apply]
        split_ifs
        · exact hbase _
        · rfl
      simp only [hmap]
      exact h.ring.nodup
    · intro e he
      obtain ⟨e', he', rfl⟩ := mem_map.1 he
      obtain ⟨start, hlt, hstart⟩ := h.ring.base e' he'
      refine ⟨start, hlt, ?_⟩
      split_ifs
      · rw [hbase, hstart]
      · exact hstart

end update

/-- Pieces other than the one at `u`'s address stay as they are. -/
theorem map_at (h : Distinct s) {here : Slot → Bool} {f : Slot → Slot}
    (hpieces : s.pieces w = xs ++ u :: ys) (hmeant : here u) (hhere : ∀ x, here x → x.base = u.base) :
    (s.pieces w).map (fun x => if here x then f x else x) = xs ++ f u :: ys := by
  have hnodup := h.nodup w
  rw [hpieces, map_append, map_cons, nodup_append, nodup_cons] at hnodup
  obtain ⟨-, ⟨hys, -⟩, hxs⟩ := hnodup
  have hx : ∀ x ∈ xs, ¬here x := fun x hx hhx =>
    hxs _ (mem_map_of_mem hx) _ mem_cons_self (hhere x hhx)
  have hy : ∀ y ∈ ys, ¬here y := fun y hy hhy => hys (hhere y hhy ▸ mem_map_of_mem hy)
  rw [hpieces, map_append, map_cons, map_keep hx, map_keep hy, if_pos hmeant]

theorem State.finish_spec (h : Distinct s) (hpieces : s.pieces w = xs ++ u :: ys) :
    Replaces s (s.finish w u.data) w (xs ++ u.finish :: ys) := by
  have hmem : u ∈ s.pieces w := hpieces ▸ mem_append_right _ mem_cons_self
  have hhere : ∀ x : Slot, (x.data == u.data) = true → x.base = u.base := fun x hx =>
    congrArg Marker.base (beq_iff_eq.1 hx)
  rw [← @map_at s w u xs ys h (fun x => x.data == u.data) Slot.finish hpieces (beq_self_eq_true _) hhere]
  exact update_spec h (fun x y hx hy => (hhere x hx).trans (hhere y hy).symm) (fun _ => rfl) (fun _ => rfl) hmem
    (beq_self_eq_true _)

/-- `writeBytes` adds to the one piece that is not finished. -/
theorem State.writeBytes_spec (h : Distinct s) (hpieces : s.pieces w = xs ++ [u])
    (hfinished : u.finished = false) (bytes : List UInt8) (hroom : u.written.length + bytes.length ≤ u.size) :
    ∃ s', s.writeBytes w u.marker bytes = some (s', (u.append bytes).marker) ∧
      Replaces s s' w (xs ++ [u.append bytes]) := by
  have hmem : u ∈ s.pieces w := hpieces ▸ mem_append_right _ mem_cons_self
  have hmeant : (!u.finished && u.marker == u.marker) = true := by rw [hfinished, beq_self_eq_true]; rfl
  have hhere : ∀ x : Slot, (!x.finished && x.marker == u.marker) = true → x.base = u.base := fun x hx =>
    congrArg Marker.base (beq_iff_eq.1 (Bool.and_eq_true_iff.1 hx).2)
  have hupdate := update_spec h (f := Slot.append bytes)
    (fun x y hx hy => (hhere x hx).trans (hhere y hy).symm) (fun _ => rfl) (fun _ => rfl) hmem hmeant
  rw [map_at h hpieces hmeant hhere] at hupdate
  refine ⟨_, ?_, hupdate⟩
  have hfits : (((s.writers w).pending.find? fun x => !x.finished && x.marker == u.marker).any fun x =>
      x.written.length + bytes.length > x.size) = false := by
    cases hfind : (s.writers w).pending.find? fun x => !x.finished && x.marker == u.marker with
    | none => rfl
    | some x =>
      have hx : x ∈ s.pieces w := mem_append_right _ (mem_of_find?_eq_some hfind)
      obtain rfl := inj_on_of_nodup_map (h.nodup w) hx hmem
          (hhere x (find?_some (p := fun x : Slot => !x.finished && x.marker == u.marker) hfind))
      rw [Option.any_some, decide_eq_false_iff_not]
      omega
  rw [writeBytes, hfits, if_neg Bool.false_ne_true, Slot.marker, Slot.marker, Slot.append, length_append]

/-! ### Fragments of one writer -/

/-- A fragment with identifier `id` after which the message, of which `known` was there, is `p`. -/
structure Continues (w : ℕ) (known : Option (ℕ × PartialMessage)) (item : Item) (id : ℕ) (p : PartialMessage) :
    Prop where
  m_eq : item.m = fragment
  long : idSize ≤ item.data.length
  id_eq : ofLeBytes (item.data.take idSize) = id
  known_id : ∀ x ∈ known, x.1 = id
  absorb_eq : absorb (known.map Prod.snd) w (item.data.drop idSize) = some p

/-- Messages of writer `w`, the first of them perhaps under way as `known`, make up messages, each with its identifier
if it was in fragments, and at last what `after` is under way. -/
inductive Decodes (w : ℕ) : Option (ℕ × PartialMessage) → List Item → List (Option ℕ × Item) →
    Option (ℕ × PartialMessage) → Prop
  | nil (known : Option (ℕ × PartialMessage)) : Decodes w known [] [] known
  | whole {item : Item} {items : List Item} {out : List (Option ℕ × Item)} {after : Option (ℕ × PartialMessage)}
      (hm : item.m ≠ fragment) (h : Decodes w none items out after) :
      Decodes w none (item :: items) ((none, item) :: out) after
  | more {known : Option (ℕ × PartialMessage)} {item : Item} {items : List Item} {out : List (Option ℕ × Item)}
      {after : Option (ℕ × PartialMessage)} {id : ℕ} {p : PartialMessage} (hp : Continues w known item id p)
      (hne : p.received.length ≠ p.totalSize) (h : Decodes w (some (id, p)) items out after) :
      Decodes w known (item :: items) out after
  | last {known : Option (ℕ × PartialMessage)} {item : Item} {items : List Item} {out : List (Option ℕ × Item)}
      {after : Option (ℕ × PartialMessage)} {id : ℕ} {p : PartialMessage} (hp : Continues w known item id p)
      (heq : p.received.length = p.totalSize) (h : Decodes w none items out after) :
      Decodes w known (item :: items) ((some id, ⟨p.m, p.received⟩) :: out) after

namespace Decodes

variable {known mid after : Option (ℕ × PartialMessage)} {xs ys : List Item} {out out' : List (Option ℕ × Item)}

theorem append (h : Decodes w known xs out mid) (h' : Decodes w mid ys out' after) :
    Decodes w known (xs ++ ys) (out ++ out') after := by
  induction h with
  | nil known => exact h'
  | whole hm _ ih => exact .whole hm (ih h')
  | more hp hne _ ih => exact .more hp hne (ih h')
  | last hp heq _ ih => exact .last hp heq (ih h')

/-- The message under way is one of those that come out, or it is still under way. -/
theorem id_mem (h : Decodes w known xs out after) :
    ∀ x ∈ known, x.1 ∈ out.filterMap Prod.fst ++ after.toList.map Prod.fst := by
  induction h with
  | nil known =>
    rintro x rfl
    simp
  | whole _ _ _ => exact nofun
  | more hp _ _ ih =>
    intro x hx
    rw [hp.known_id x hx]
    exact ih _ rfl
  | last hp _ _ _ =>
    intro x hx
    rw [hp.known_id x hx]
    simp

end Decodes

/-! ### The message that is being written -/

/-- A writer in the given phase, after pieces with `after` under way, has `us` unfinished: the message `current`, with
identifier `ids` if it is in fragments. -/
inductive Writing (cfg : WriterConfig) (w : ℕ) : Phase → Option (ℕ × PartialMessage) → List Slot → List Item → List ℕ →
    Prop
  | idle : Writing cfg w .idle none [] [] []
  | whole {u : Slot} {sections : List (List UInt8)} (hm : u.m ≠ fragment) (hu : u.finished = false)
      (hsize : u.size = (u.written ++ sections.flatten).length) :
      Writing cfg w (.whole u.data u.marker sections) none [u] [⟨u.m, u.written ++ sections.flatten⟩] []
  | first {u : Slot} {m id : ℕ} {payload rest data : List UInt8} {sections : List (List UInt8)} (hm : u.m = fragment)
      (hu : u.finished = false) (hsize : u.size = cfg.maxFragmentSize) (hlt : m < 2 ^ 32) (hid : id < 2 ^ 64)
      (hdata : payload ++ (rest ++ sections.flatten) = data) (hlong : cfg.maxFragmentSize < data.length)
      (hmax : data.length ≤ cfg.maxTotalSize) (hwritten : u.written = initialFragmentHeader id m data.length ++ payload)
      (hle : u.written.length ≤ u.size) (hfull : rest ≠ [] → u.written.length = u.size) :
      Writing cfg w (.parts u.marker ⟨u.data, id, u.size - u.written.length⟩ rest sections) none [u] [⟨m, data⟩] [id]
  | later {u : Slot} {p : PartialMessage} {id : ℕ} {payload rest data : List UInt8} {sections : List (List UInt8)}
      (hm : u.m = fragment) (hu : u.finished = false) (hid : id < 2 ^ 64) (hp : p.writer = w)
      (hdata : p.received ++ (payload ++ (rest ++ sections.flatten)) = data) (htotal : p.totalSize = data.length)
      (hwritten : u.written = leBytes 8 id ++ payload) (hfull : u.written.length = u.size) :
      Writing cfg w (.parts u.marker ⟨u.data, id, 0⟩ rest sections) (some (id, p)) [u] [⟨p.m, data⟩] [id]

namespace Writing

variable {cfg : WriterConfig} {phase : Phase} {after : Option (ℕ × PartialMessage)} {us : List Slot}
  {current : List Item} {ids : List ℕ}

variable (h : Writing cfg w phase after us current ids)
include h

theorem id_mem : ∀ x ∈ after, x.1 ∈ ids := by
  cases h with
  | later =>
    intro x hx
    cases hx
    exact mem_singleton.2 rfl
  | _ => exact nofun

theorem unfinished : ∀ u ∈ us, u.finished = false := by
  cases h with
  | idle => exact nofun
  | whole _ hu _ | first _ hu | later _ hu => exact fun u hmem => mem_singleton.1 hmem ▸ hu

omit h

end Writing

/-! ### What a finished piece decodes to -/

theorem Slot.item_of_full {x : Slot} (h : x.written.length = x.size) : x.item = ⟨x.m, x.written⟩ := by
  rw [Slot.item, h, Nat.sub_self, replicate_zero, append_nil]

section decode

variable {id : ℕ} {payload : List UInt8}

theorem take_id (hid : id < 2 ^ 64) (bytes : List UInt8) : ofLeBytes ((leBytes 8 id ++ bytes).take idSize) = id := by
  rw [idSize, take_left' (length_leBytes 8 id), ofLeBytes_leBytes (by omega)]

theorem drop_id (id : ℕ) (bytes : List UInt8) : (leBytes 8 id ++ bytes).drop idSize = bytes :=
  drop_left' (length_leBytes 8 id)

theorem continues_first {m total : ℕ} (hm : u.m = fragment) (hlt : m < 2 ^ 32) (hid : id < 2 ^ 64)
    (htotal : total < 2 ^ 64) (hwritten : u.written = initialFragmentHeader id m total ++ payload)
    (hfull : u.written.length = u.size) (hle : payload.length ≤ total) :
    Continues w none u.item id ⟨w, m, total, payload⟩ := by
  rw [Slot.item_of_full hfull, hwritten, initialFragmentHeader, append_assoc]
  refine ⟨hm, ?_, take_id hid _, nofun, ?_⟩
  · rw [length_append, length_leBytes]
    exact Nat.le_add_right _ _
  · simp only [drop_id, Option.map_none, absorb]
    have htype : ((leBytes 4 m ++ leBytes 8 total ++ payload).take 4) = leBytes 4 m := by
      rw [append_assoc, take_left' (length_leBytes 4 m)]
    have hdrop : (leBytes 4 m ++ leBytes 8 total ++ payload).drop 4 = leBytes 8 total ++ payload := by
      rw [append_assoc, drop_left' (length_leBytes 4 m)]
    have hrest : (leBytes 4 m ++ leBytes 8 total ++ payload).drop 12 = payload :=
      drop_left' (by rw [length_append, length_leBytes, length_leBytes])
    rw [htype, hdrop, hrest, take_left' (length_leBytes 8 total), ofLeBytes_leBytes (by omega),
      ofLeBytes_leBytes (by omega), if_neg]
    simp only [length_append, length_leBytes]
    omega

/-- A later fragment. -/
theorem continues_later {p : PartialMessage} (hm : u.m = fragment) (hid : id < 2 ^ 64)
    (hwritten : u.written = leBytes 8 id ++ payload) (hfull : u.written.length = u.size)
    (hle : p.received.length + payload.length ≤ p.totalSize) :
    Continues w (some (id, p)) u.item id { p with received := p.received ++ payload } := by
  rw [Slot.item_of_full hfull, hwritten]
  refine ⟨hm, ?_, take_id hid _, ?_, ?_⟩
  · rw [length_append, length_leBytes]
    exact Nat.le_add_right _ _
  · intro x hx
    cases hx
    rfl
  · simp only [drop_id, Option.map_some, absorb]
    rw [if_neg (by omega)]

/-- A writer whose fragment is full, as it is before the next one and at the end of the message. -/
theorem Writing.continues {cfg : WriterConfig} {next : Marker} {progress : FragmentProgress} {rest : List UInt8}
    {sections : List (List UInt8)} {after : Option (ℕ × PartialMessage)} {us : List Slot} {current : List Item}
    {ids : List ℕ} (h : Writing cfg w (.parts next progress rest sections) after us current ids)
    (hfull : rest = [] → sections = []) :
    ∃ u p data, us = [u] ∧ current = [⟨p.m, data⟩] ∧ ids = [progress.identifier] ∧ progress.marker = u.data ∧
      progress.remainder = 0 ∧ progress.identifier < 2 ^ 64 ∧ u.written.length = u.size ∧
      Continues w after u.item progress.identifier p ∧ p.writer = w ∧ p.totalSize = data.length ∧
      p.received ++ (rest ++ sections.flatten) = data := by
  cases h with
  | @first u m id payload _ data _ hm hu hsize hlt hid hdata hlong hmax hwritten hle hrest =>
    have hlen : u.written.length = headerSize + payload.length := by
      rw [hwritten, length_append]
      simp only [initialFragmentHeader, length_append, length_leBytes, headerSize]
    have htotal := cfg.total_lt
    have hpayload : payload.length + (rest.length + sections.flatten.length) = data.length := by
      rw [← hdata, length_append, length_append]
    have hne : rest ≠ [] := by
      -- the message does not fit in its first fragment
      intro hnil
      rw [hnil, hfull hnil, flatten_nil, length_nil] at hpayload
      unfold headerSize at hlen
      omega
    have hu' := hrest hne
    exact ⟨u, ⟨w, m, data.length, payload⟩, data, rfl, rfl, rfl, rfl, by simp only; omega, hid, hu',
      continues_first hm hlt hid (by omega) hwritten hu' (by omega), rfl, rfl, hdata⟩
  | @later u p id payload _ data _ hm hu hid hp hdata htotal hwritten hu' =>
    have hpayload : p.received.length + (payload.length + (rest.length + sections.flatten.length)) = data.length := by
      rw [← hdata, length_append, length_append, length_append]
    exact ⟨u, { p with received := p.received ++ payload }, data, rfl, rfl, rfl, rfl, rfl, hid, hu',
      continues_later hm hid hwritten hu' (by omega), hp, htotal, by rw [append_assoc]; exact hdata⟩

end decode

end Ccf.Oversized
