import Ccf.Kv.Refinement
import Ccf.Kv.Handles

/-! # What open transactions hold

A change set that was opened on a map of the store stays valid until the map is rolled back: while the rollback
counters agree, the map is still the store's, and the state it reads from is the one of the history at its start
version (`MapChanges.Valid`). Commits, rollbacks and compactions keep this if every map was created by a commit that
put something into it (`Store.Born`): such a map has a local commit at its creation version, so that a rollback that
drops the map also counts. -/

namespace Ccf.Kv

open List Versioned
open Std (ExtTreeMap)

variable {name : Name} {h h' : WriteHistory} {v : ℕ} {e : LocalCommit} {mc : MapChanges} {s s' : Store}

namespace Roll

variable {r : Roll}

theorem find?_eq_some {w : ℕ} (hs : r.commits.Pairwise (·.version < ·.version)) (h : r.find? w = some e) :
    e ∈ r.commits ∧ e.version ≤ w ∧ ∀ e' ∈ r.commits, e'.version ≤ w → e'.version ≤ e.version := by
  rw [find?, find?_reverse] at h
  have hmem : e ∈ r.commits.filter (·.version ≤ w) := mem_of_getLast? h
  rw [mem_filter, decide_eq_true_eq] at hmem
  refine ⟨hmem.1, hmem.2, fun e' he' hle => ?_⟩
  obtain ⟨l, hl⟩ := getLast?_eq_some_iff.1 h
  have hs' : (l ++ [e]).Pairwise (·.version < ·.version) := hl ▸ hs.filter _
  have he : e' ∈ l ++ [e] := by
    rw [← hl, mem_filter, decide_eq_true_eq]
    exact ⟨he', hle⟩
  rcases mem_append.1 he with he | he
  · exact ((pairwise_append.1 hs').2.2 e' he e (by simp)).le
  · rw [mem_singleton.1 he]

theorem Keeps.state_of_mem {floor : ℕ} (k : r.Keeps h name floor)
    (he : e ∈ r.commits) (hb : h.base ≤ e.version) :
    e.version ≤ h.version ∧ e.state = h.tableAt e.version name := by
  have hle : r.head.version ≤ e.version ∧ e.version ≤ h.version := by
    rcases mem_cons.1 he with rfl | he
    · exact ⟨le_rfl, k.head_le.trans k.floor_le⟩
    · exact ⟨k.head_le.trans (k.later_mem e he).1.le, (k.later_mem e he).2⟩
  refine ⟨hle.2, ?_⟩
  have hcontent := k.content e.version hb hle.1 hle.2
  obtain ⟨e', hfind, hstate⟩ := Option.map_eq_some_iff.1 hcontent
  obtain ⟨hmem, hver, hmax⟩ := find?_eq_some k.sorted_commits hfind
  have hnodup : (r.commits.map LocalCommit.version).Nodup :=
    pairwise_map.2 (k.sorted_commits.imp fun hab => hab.ne)
  have hsame : e' = e := inj_on_of_nodup_map hnodup hmem he (le_antisymm hver (hmax e he le_rfl))
  rw [← hstate, hsame]

theorem commits_commit (r : Roll) (w : Write) (v : ℕ) : ∃ l, (r.commit w v false).commits = r.commits ++ l ∧
    (r.commit w v false).head = r.head ∧ (r.commit w v false).later = r.later ++ l ∧
    (r.commit w v false).rollbackCounter = r.rollbackCounter := by
  rcases r.commit_cases w v with ⟨heq, -⟩ | ⟨heq, -, -⟩
  · exact ⟨_, by rw [heq]; rfl, by rw [heq], by rw [heq], by rw [heq]⟩
  · exact ⟨[], by rw [heq, append_nil], by rw [heq], by rw [heq, append_nil], by rw [heq]⟩

end Roll

theorem Map.mem_compact {m : Map} (hs : m.roll.commits.Pairwise (·.version < ·.version))
    (he : e ∈ m.roll.commits) : e.version ≤ (m.compact v).roll.head.version ∨ e ∈ (m.compact v).roll.later := by
  obtain ⟨dropped, c, heq, hversion, -, -, -⟩ :=
    compactLoop_spec m.globalHook v m.roll.head m.roll.later m.commitDeltas hs
  have hcommits : m.roll.commits = dropped ++ c :: (m.compact v).roll.later := heq
  have hhead : (m.compact v).roll.head.version = c.version := hversion
  rw [hcommits] at hs he
  rcases mem_append.1 he with he | he
  · exact .inl (hhead ▸ ((pairwise_append.1 hs).2.2 e he c mem_cons_self).le)
  · rcases mem_cons.1 he with rfl | he
    · exact .inl hhead.ge
    · exact .inr he

theorem Map.head_le_compact {m : Map} (v : ℕ) (hs : m.roll.commits.Pairwise (·.version < ·.version)) :
    m.roll.head.version ≤ (m.compact v).roll.head.version := by
  obtain ⟨dropped, c, heq, hversion, -, -, -⟩ :=
    compactLoop_spec m.globalHook v m.roll.head m.roll.later m.commitDeltas hs
  refine le_of_le_of_eq ?_ hversion.symm
  cases dropped with
  | nil => rw [(List.cons.inj heq).1]
  | cons a dropped =>
    have hc : c ∈ m.roll.later := by rw [(List.cons.inj heq).2]; simp
    exact ((pairwise_cons.1 hs).1 c hc).le

namespace Store

/-- Every map has been created by a commit that is still on its roll, or has been compacted. -/
def Born (s : Store) : Prop :=
  ∀ {name : Name} {c r}, s.maps[name]? = some (c, r) →
    0 < c ∧ (c ≤ (s.objs r).roll.head.version ∨ ∃ e ∈ (s.objs r).roll.later, e.version = c)

/-- The change set `cs` on the map object `r` reads the state of the history at its start version. -/
structure Current (s : Store) (h : WriteHistory) (name : Name) (r : ℕ) (cs : ChangeSet) : Prop where
  map : ∃ c, s.maps[name]? = some (c, r)
  pos : 0 < cs.startVersion
  le : cs.startVersion ≤ h.version
  state : cs.state = h.tableAt cs.startVersion name
  kept : cs.startVersion ≤ s.compacted ∨ ∃ e ∈ (s.objs r).roll.later, e.version = cs.startVersion

end Store

/-- One map of an open transaction. -/
structure MapChanges.Valid (mc : MapChanges) (s : Store) (h : WriteHistory) (name : Name) : Prop where
  recorded : mc.changeset.start.runAll (mc.trace.map Prod.fst) = (mc.trace.map Prod.snd, mc.changeset)
  new : mc.map = none → mc.changeset.state = ∅
  opened : ∀ r, mc.map = some r → r < s.allocated ∧
    mc.changeset.rollbackCounter ≤ (s.objs r).roll.rollbackCounter ∧
    (mc.changeset.rollbackCounter = (s.objs r).roll.rollbackCounter → s.Current h name r mc.changeset)

/-- A step of the store that keeps what change sets rely on, unless the rollback counter moves. -/
structure Store.Holds (s s' : Store) (h h' : WriteHistory) : Prop where
  allocated : s.allocated ≤ s'.allocated
  counter : ∀ r < s.allocated, (s.objs r).roll.rollbackCounter ≤ (s'.objs r).roll.rollbackCounter
  current : ∀ name r cs, s.Current h name r cs →
    (s.objs r).roll.rollbackCounter = (s'.objs r).roll.rollbackCounter → s'.Current h' name r cs

theorem MapChanges.Valid.mono (k : mc.Valid s h name) (hs : Store.Holds s s' h h') : mc.Valid s' h' name where
  recorded := k.recorded
  new := k.new
  opened r hr := by
    obtain ⟨hlt, hle, hcur⟩ := k.opened r hr
    refine ⟨hlt.trans_le hs.allocated, hle.trans (hs.counter r hlt), fun heq => ?_⟩
    have hstep := hs.counter r hlt
    exact hs.current name r _ (hcur (by omega)) (by omega)

namespace Store

variable {s₁ s₃ : Store} {h₁ h₃ h₂ : WriteHistory} {d : Name → Write} {P : ℕ → ℕ → Prop}
  {txid : TxID} {c : ℕ}

/-! ### Commits -/

/-- The object of a map commits, and keeps its rollback counter. -/
theorem Committed.later {r : ℕ} (c : Committed s s' v d) {created : ℕ} (hname : s.maps[name]? = some (created, r)) :
    (s'.objs r).roll.head = (s.objs r).roll.head ∧ (∃ l, (s'.objs r).roll.later = (s.objs r).roll.later ++ l) ∧
      (s'.objs r).roll.rollbackCounter = (s.objs r).roll.rollbackCounter := by
  obtain ⟨l, -, hhead, hlater, hcounter⟩ := (s.objs r).roll.commits_commit (d name) v
  rw [(c.kept hname).2]
  exact ⟨hhead, ⟨l, hlater⟩, hcounter⟩

theorem Committed.holds (c : Committed s s' (h.version + 1) d) (hc : s'.compacted = s.compacted) :
    Holds s s' h (h.push d) where
  allocated := c.allocated
  counter r hr := by
    by_cases hheld : ∃ (name : Name) (created : ℕ), s.maps[name]? = some (created, r)
    · obtain ⟨name, created, hname⟩ := hheld
      exact (c.later hname).2.2.ge
    · rw [c.dropped r hr fun name created hname => hheld ⟨name, created, hname⟩]
  current name r cs k _ := by
    obtain ⟨created, hname⟩ := k.map
    obtain ⟨-, ⟨l, hl⟩, -⟩ := c.later hname
    refine ⟨⟨created, (c.kept hname).1⟩, k.pos, ?_, ?_, ?_⟩
    · rw [History.version_push]
      exact k.le.trans (Nat.le_succ _)
    · rw [History.at_push_of_le h d k.le]
      exact k.state
    · rw [hc, hl]
      exact k.kept.imp id fun ⟨e, he, hev⟩ => ⟨e, mem_append_left _ he, hev⟩

/-- Created maps are born if every map that is created is put something into. -/
theorem Committed.born (c : Committed s s' v d) (hb : s.Born) (hv : 0 < v)
    (hput : ∀ name : Name, s.maps[name]? = none → d name ≠ ∅ → Roll.HasPut (d name)) : s'.Born := by
  intro name created r hname
  rcases c.maps_cases hname with ⟨hold, -⟩ | ⟨hnone, hne, rfl, -, hobj⟩
  · obtain ⟨hhead, ⟨l, hl⟩, -⟩ := c.later hold
    obtain ⟨hpos, hborn⟩ := hb hold
    refine ⟨hpos, ?_⟩
    rw [hhead, hl]
    exact hborn.imp id fun ⟨e, he, hev⟩ => ⟨e, mem_append_left _ he, hev⟩
  · refine ⟨hv, .inr ?_⟩
    rw [hobj]
    rcases ({} : Roll).commit_cases (d name) created with ⟨heq, -⟩ | ⟨-, -, hnot⟩
    · rw [heq]
      exact ⟨_, mem_append_right _ mem_cons_self, rfl⟩
    · exact absurd ((hput name hnone hne).effective _) hnot

/-! ### Rollbacks -/

/-- A map whose rollback counter stays where it is loses no commit. -/
theorem Refines.not_popped {r : ℕ} (k : s.Refines h) {seqno : ℕ} (hname : s.maps[name]? = some (c, r))
    (heq : (s.objs r).roll.rollbackCounter = ((s.objs r).roll.rollback seqno).rollbackCounter) :
    ∀ e ∈ (s.objs r).roll.later, e.version ≤ seqno := by
  intro e he
  by_contra hgt
  exact (Roll.rollbackCounter_lt (k.keeps hname).sorted he (not_le.1 hgt)).ne heq

theorem Refines.holds_rollback (k : s.Refines h) (hb : s.Born) (hbase : h.base = 0) {term : ℕ}
    (hok : s.rollback txid term = .ok s') : Holds s s' h (h.truncate txid.seqno) := by
  obtain ⟨hcompacted, -, hc, ⟨hle, rfl⟩ | ⟨hlt, hv, heq⟩⟩ := rollback_cases hok
  · rw [h.truncate_of_le (k.version.trans_le hle)]
    exact ⟨le_rfl, fun _ _ => le_rfl, fun _ _ _ hcur _ => ⟨hcur.map, hcur.pos, hcur.le, hcur.state, hcur.kept⟩⟩
  · have halloc : s'.allocated = s.allocated := by rw [heq]; rfl
    have hobj : ∀ {name : Name} {c r}, s.maps[name]? = some (c, r) →
        (s'.objs r).roll = (s.objs r).roll.rollback txid.seqno := by
      intro name c r hname
      rw [heq, objs_rolledBack hname]
      rfl
    refine ⟨halloc.ge, fun r _ => ?_, fun name r cs hcur hcounter => ?_⟩
    · by_cases hheld : ∃ (name : Name) (c : ℕ), s.maps[name]? = some (c, r)
      · obtain ⟨name, c, hname⟩ := hheld
        rw [hobj hname]
        exact Roll.rollbackCounter_le _ _
      · rw [heq, objs_rolledBack_of_not fun name c hname => hheld ⟨name, c, hname⟩]
    · obtain ⟨c, hname⟩ := hcur.map
      rw [hobj hname] at hcounter
      have hkept := k.not_popped hname hcounter
      have hfloor := (k.keeps hname).head_le
      rw [hbase, Nat.max_zero] at hfloor
      have hstart : cs.startVersion ≤ txid.seqno := by
        rcases hcur.kept with hle | ⟨e, he, hev⟩
        · exact hle.trans hcompacted
        · exact hev ▸ hkept e he
      have hcreated : c ≤ txid.seqno := by
        rcases (hb hname).2 with hle | ⟨e, he, hev⟩
        · exact hle.trans (hfloor.trans hcompacted)
        · exact hev ▸ hkept e he
      have hversion : (h.truncate txid.seqno).version = txid.seqno :=
        h.version_truncate (hbase ▸ Nat.zero_le _) (k.version ▸ hlt.le)
      refine ⟨⟨c, by rw [heq]; exact maps_rolledBack.2 ⟨hname, hcreated⟩⟩, hcur.pos, hstart.trans_eq hversion.symm,
        ?_, ?_⟩
      · rw [History.at_truncate h hstart]
        exact hcur.state
      · rw [hc, hobj hname, Roll.later_rollback (k.keeps hname).sorted]
        refine hcur.kept.imp id fun ⟨e, he, hev⟩ => ⟨e, ?_, hev⟩
        rw [mem_filter, decide_eq_true_eq]
        exact ⟨he, hkept e he⟩

theorem Refines.born_rollback (k : s.Refines h) (hb : s.Born) {term : ℕ}
    (hok : s.rollback txid term = .ok s') : s'.Born := by
  obtain ⟨-, -, -, ⟨-, rfl⟩ | ⟨-, -, heq⟩⟩ := rollback_cases hok
  · exact hb
  · intro name c r hname
    rw [heq] at hname ⊢
    obtain ⟨hold, hle⟩ := maps_rolledBack.1 hname
    obtain ⟨hpos, hborn⟩ := hb hold
    refine ⟨hpos, ?_⟩
    rw [objs_rolledBack hold]
    refine hborn.imp id fun ⟨e, he, hev⟩ => ⟨e, ?_, hev⟩
    rw [Map.rollback, Roll.later_rollback (k.keeps hold).sorted, mem_filter, decide_eq_true_eq]
    exact ⟨he, hev ▸ hle⟩

/-! ### Compactions -/

theorem Refines.holds_compact (k : s.Refines h) (hbase : h.base = 0) (hv : s.compacted ≤ v) :
    Holds s (s.compact v) h h := by
  rcases lt_or_ge s.version v with hlt | hle
  · rw [compact_of_lt hlt]
    exact ⟨le_rfl, fun _ _ => le_rfl, fun _ _ _ hcur _ => hcur⟩
  · obtain ⟨-, hcompacted, hmaps, halloc⟩ := compact_fields hle
    refine ⟨halloc.ge, fun r _ => ?_, fun name r cs hcur _ => ?_⟩
    · by_cases hheld : ∃ (name : Name) (c : ℕ), s.maps[name]? = some (c, r)
      · obtain ⟨name, c, hname⟩ := hheld
        rw [objs_compact hle hname]
        exact le_rfl
      · rw [objs_compact_of_not v fun name c hname => hheld ⟨name, c, hname⟩]
    · obtain ⟨c, hname⟩ := hcur.map
      refine ⟨⟨c, hmaps ▸ hname⟩, hcur.pos, hcur.le, hcur.state, ?_⟩
      rw [hcompacted, objs_compact hle hname]
      rcases hcur.kept with hold | ⟨e, he, hev⟩
      · exact .inl (hold.trans hv)
      · have hnew := (Map.keeps_compact (k.keeps hname) (k.version ▸ hle)).head_le
        rw [hbase, Nat.max_zero, max_eq_left hv] at hnew
        rcases Map.mem_compact (v := v) (k.keeps hname).sorted_commits (mem_cons_of_mem _ he) with hhead | hmem
        · exact .inl (hev ▸ hhead.trans hnew)
        · exact .inr ⟨e, hmem, hev⟩

theorem Refines.born_compact (k : s.Refines h) (hb : s.Born) (v : ℕ) : (s.compact v).Born := by
  rcases lt_or_ge s.version v with hlt | hle
  · rwa [compact_of_lt hlt]
  · obtain ⟨-, -, hmaps, -⟩ := compact_fields hle
    intro name c r hname
    rw [hmaps] at hname
    obtain ⟨hpos, hborn⟩ := hb hname
    refine ⟨hpos, ?_⟩
    rw [objs_compact hle hname]
    have hsorted := (k.keeps hname).sorted_commits
    rcases hborn with hhead | ⟨e, he, hev⟩
    · exact .inl (hhead.trans (Map.head_le_compact v hsorted))
    · rcases Map.mem_compact (v := v) hsorted (mem_cons_of_mem _ he) with hh | hmem
      · exact .inl (hev ▸ hh)
      · exact .inr ⟨e, hmem, hev⟩

/-! ### Moves -/

/-- What holds of a store and its history all along: they started empty, and every map was put something
into when it was created. -/
structure Good (s : Store) (h : WriteHistory) : Prop where
  refines : s.Refines h
  base : h.base = 0
  start : ∀ name, h.start name = ∅
  born : s.Born

/-- What a step of the system can do to the store and the history. `P` restricts the compactions by the
compacted version and the next one. -/
inductive Moves (P : ℕ → ℕ → Prop) (s : Store) (h : WriteHistory) : Store → WriteHistory → Prop where
  | refl : Moves P s h s h
  | rollback {s₁ s₂ : Store} {h₁ : WriteHistory} {txid : TxID} {term : ℕ} (m : Moves P s h s₁ h₁)
      (hok : s₁.rollback txid term = .ok s₂) : Moves P s h s₂ (h₁.truncate txid.seqno)
  | compact {s₁ : Store} {h₁ : WriteHistory} {v : ℕ} (m : Moves P s h s₁ h₁) (hv : P s₁.compacted v) :
      Moves P s h (s₁.compact v) h₁
  | push {s₁ s₂ : Store} {h₁ : WriteHistory} {d : Name → Write} (m : Moves P s h s₁ h₁)
      (hc : Committed s₁ s₂ (h₁.version + 1) d) (hv : s₂.version = s₁.version + 1)
      (hcomp : s₂.compacted = s₁.compacted)
      (hput : ∀ name : Name, s₁.maps[name]? = none → d name ≠ ∅ → Roll.HasPut (d name)) :
      Moves P s h s₂ (h₁.push d)

theorem Holds.refl (s : Store) (h : WriteHistory) : Holds s s h h :=
  ⟨le_rfl, fun _ _ => le_rfl, fun _ _ _ k _ => k⟩

theorem Holds.trans {s₂ : Store} (hs : s₁.Sound) (k : Holds s₁ s₂ h₁ h₂)
    (k' : Holds s₂ s₃ h₂ h₃) : Holds s₁ s₃ h₁ h₃ where
  allocated := k.allocated.trans k'.allocated
  counter r hr := (k.counter r hr).trans (k'.counter r (hr.trans_le k.allocated))
  current name r cs hcur heq := by
    obtain ⟨c, hname⟩ := hcur.map
    have h₁ := k.counter r (hs.lt hname)
    have h₂ := k'.counter r ((hs.lt hname).trans_le k.allocated)
    exact k'.current name r cs (k.current name r cs hcur (by omega)) (by omega)

/-- Along the moves the store refines the history, and open change sets stay valid. -/
theorem Moves.good (hP : ∀ a v, P a v → a ≤ v) (m : Moves P s h s' h')
    (k : s.Good h) : s'.Good h' ∧ Holds s s' h h' := by
  induction m with
  | refl => exact ⟨k, .refl s h⟩
  | rollback m hok ih =>
    obtain ⟨g, hh⟩ := ih
    exact ⟨⟨g.refines.rollback hok (g.base ▸ Nat.zero_le _), g.base, g.start, g.refines.born_rollback g.born hok⟩,
      hh.trans k.refines.sound (g.refines.holds_rollback g.born g.base hok)⟩
  | compact m hv ih =>
    obtain ⟨g, hh⟩ := ih
    exact ⟨⟨g.refines.compact (hP _ _ hv), g.base, g.start, g.refines.born_compact g.born _⟩,
      hh.trans k.refines.sound (g.refines.holds_compact g.base (hP _ _ hv))⟩
  | push m hc hv hcomp hput ih =>
    obtain ⟨g, hh⟩ := ih
    exact ⟨⟨g.refines.push hc hv hcomp, g.base, g.start, hc.born g.born (Nat.succ_pos _) hput⟩,
      hh.trans k.refines.sound (hc.holds hcomp)⟩

theorem Moves.skip (m : Moves P s h s₁ h₁) (hs : s₁.Sound) (n : ℕ) :
    Moves P s h { s₁ with version := s₁.version + n } (History.skip n h₁) := by
  induction n generalizing s₁ h₁ with
  | zero => exact m
  | succ n ih =>
    have hrefl := Committed.refl (d := fun _ => ∅) hs (h₁.version + 1) fun _ => rfl
    have hc : Committed s₁ { s₁ with version := s₁.version + 1 } (h₁.version + 1) fun _ => ∅ :=
      ⟨rfl, rfl, le_rfl, hrefl.kept, hrefl.absent, hrefl.created, hrefl.dropped, ⟨hs.lt, hs.inj⟩⟩
    have hnext := ih (m.push hc rfl rfl fun _ _ hne => absurd rfl hne) ⟨hs.lt, hs.inj⟩
    simp only [add_assoc, add_comm 1] at hnext
    exact hnext

end Store
/-! ### Commits of transactions -/

namespace Tx

variable {t : Tx}

theorem mem_views {p : Name × Option ℕ × AbstractCommitter} :
    p ∈ t.views ↔ ∃ mc, t.allChanges[p.1]? = some mc ∧ p.2 = (mc.map, mc.changeset.committer) := by
  simp only [views, mem_map]
  constructor
  · rintro ⟨⟨name, mc⟩, hmem, rfl⟩
    exact ⟨mc, ExtTreeMap.mem_toList_iff_getElem?_eq_some.1 hmem, rfl⟩
  · rintro ⟨mc, hmc, hp⟩
    refine ⟨(p.1, mc), ExtTreeMap.mem_toList_iff_getElem?_eq_some.2 hmc, ?_⟩
    rw [← hp]

theorem nodup_views (t : Tx) : (t.views.map Prod.fst).Nodup := by
  have hmap : t.views.map Prod.fst = t.allChanges.toList.map Prod.fst := by
    simp [views, map_map, Function.comp_def]
  rw [hmap]
  exact nodup_keys _

theorem writeSet_of_changes (h : t.allChanges[name]? = some mc) : t.writeSet name = mc.changeset.writes := by
  simp [writeSet, h]

variable {t' : Tx}

/-- What a commit does: a conflict changes nothing, and so does a transaction without writes; the others take
the next version. -/
theorem commit_cases {o : Option ℕ} (h : t.commit s = .ok (o, t', s')) :
    t.committed = false ∧
    ((o = none ∧ t' = t ∧ s' = s) ∨ (o = some noVersion ∧ t'.committed = true ∧ s' = s) ∨
      (o = some (s.version + 1) ∧ t'.committed = true ∧ t'.writeSet = t.writeSet ∧
        (∀ p ∈ t.views, p.2.1 = none → s.getMap s.version p.1 = none) ∧
        (∀ p ∈ t.views, p.2.2.prepare (s.obj p.2.1)) ∧
        ∃ s₁, Store.addDynamicMaps (s.version + 1) t.views s.nextVersion.2 = .ok s₁ ∧
          s' = t.views.foldl (Store.commitView (s.version + 1) false) s₁)) := by
  unfold commit at h
  split_ifs at h with hcommitted hempty
  · cases h
    exact ⟨by simpa using hcommitted, .inr (.inl ⟨rfl, rfl, rfl⟩)⟩
  · refine ⟨by simpa using hcommitted, ?_⟩
    obtain ⟨⟨o', s₀⟩, happly, h⟩ := bind_eq_ok h
    cases o' with
    | none =>
      cases h
      exact .inl ⟨rfl, rfl, Store.applyChanges_conflict happly⟩
    | some v =>
      cases h
      obtain ⟨hnew, ⟨rfl, rfl, -⟩ | ⟨-, hprepare, s₁, hadd, rfl, rfl⟩⟩ := Store.applyChanges_cases happly
      · exact .inr (.inl ⟨rfl, rfl, rfl⟩)
      · exact .inr (.inr ⟨rfl, rfl, rfl, hnew, hprepare, s₁, hadd, rfl⟩)

variable (k : s.Refines h)
  (hmap : ∀ (name : Name) (mc : MapChanges) (r : ℕ), t.allChanges[name]? = some mc → mc.map = some r →
    mc.changeset.committer.prepare (s.obj mc.map) → ∃ c, s.maps[name]? = some (c, r))
include k hmap

/-- A transaction that passes the preparation views the maps of the store, if the maps it has opened are still
those of the store. -/
theorem viewing (hnew : ∀ p ∈ t.views, p.2.1 = none → s.getMap s.version p.1 = none)
    (hprepare : ∀ p ∈ t.views, p.2.2.prepare (s.obj p.2.1)) : s.nextVersion.2.Viewing t.views t.writeSet where
  nodup := t.nodup_views
  view p hp := by
    obtain ⟨mc, hmc, hp⟩ := mem_views.1 hp
    exact ⟨mc.changeset, by rw [hp], (writeSet_of_changes hmc).symm⟩
  other name hname := by
    unfold writeSet
    cases hmc : t.allChanges[name]? with
    | none => rfl
    | some mc =>
      have hmem : (name, mc.map, mc.changeset.committer) ∈ t.views := mem_views.2 ⟨mc, hmc, rfl⟩
      exact absurd (mem_map_of_mem hmem) hname
  ref p hp := by
    obtain ⟨mc, hmc, hview⟩ := mem_views.1 hp
    have href : p.2.1 = mc.map := by rw [hview]
    have hprep := hprepare p hp
    rw [show p.2.2 = mc.changeset.committer by rw [hview], href] at hprep
    show p.2.1 = s.ref? p.1
    cases hr : mc.map with
    | some r =>
      obtain ⟨c, hc⟩ := hmap p.1 mc r hmc hr hprep
      rw [href, hr, Store.ref?_eq_some.2 ⟨c, hc⟩]
    | none =>
      rw [href, hr]
      have hnone := hnew p hp (href.trans hr)
      refine (Store.ref?_eq_none.2 ?_).symm
      cases hs : s.maps[p.1]? with
      | none => rfl
      | some q =>
        have hle := k.created_le (c := q.1) (r := q.2) hs
        simp [Store.getMap, hs, hle] at hnone

theorem committed_of_commit (hcommit : t.commit s = .ok (some v, t', s')) (hv : v ≠ noVersion) :
    v = h.version + 1 ∧ Store.Committed s s' (h.version + 1) t.writeSet ∧
      s'.toBookkeeping = s.toBookkeeping.nextVersion ∧
      ∀ (name : Name) (mc : MapChanges), t.allChanges[name]? = some mc → mc.map = s.ref? name := by
  obtain ⟨-, ⟨ho, -⟩ | ⟨ho, -⟩ | ⟨ho, -, -, hnew, hprepare, s₁, hadd, rfl⟩⟩ := commit_cases hcommit
  · cases ho
  · exact absurd (Option.some.inj ho) hv
  · cases ho
    have hview := viewing k hmap hnew hprepare
    have hsound : s.nextVersion.2.Sound := ⟨k.sound.lt, k.sound.inj⟩
    have hc := hview.committed hsound hadd
    have hb := (Store.added_of_ok hsound hview.nodup hadd).bookkeeping
    have heq := Store.foldl_commitView_eq (s.version + 1) false t.views s₁
    rw [k.version]
    refine ⟨rfl, ⟨hc.hooks, hc.fired, hc.allocated, hc.kept, hc.absent, hc.created, hc.dropped, hc.sound⟩, ?_,
      fun name mc hmc => hview.ref (name, mc.map, mc.changeset.committer) (mem_views.2 ⟨mc, hmc, rfl⟩)⟩
    rw [heq]
    exact hb

end Tx

end Ccf.Kv
