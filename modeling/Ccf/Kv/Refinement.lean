import Ccf.Kv.Committing

/-! # The store refines a history of write sets

`Store.Refines s h` relates a store to the abstract history of its versions: every map keeps its table of
the history from the compacted version on, and a map that is missing, or is read before it was created, has
an empty table. Commits push a version, rollbacks truncate the history and compactions leave it alone. The
blocks of a deserialised entry become one change set for each map, whose writes are pushed. -/

namespace Ccf.Kv

open List Versioned
open Std (ExtTreeMap)

variable {s s' : Store} {h : WriteHistory} {d : Name → Write} {term v : ℕ}

namespace Store

structure Refines (s : Store) (h : WriteHistory) : Prop where
  version : h.version = s.version
  compacted_le : s.compacted ≤ s.version
  absent : ∀ {name : Name}, s.maps[name]? = none → ∀ w, h.base ≤ w → w ≤ h.version → h.tableAt w name = ∅
  created_le : ∀ {name : Name} {c r}, s.maps[name]? = some (c, r) → c ≤ s.version
  before : ∀ {name : Name} {c r}, s.maps[name]? = some (c, r) → ∀ w, h.base ≤ w → w < c → h.tableAt w name = ∅
  keeps : ∀ {name : Name} {c r}, s.maps[name]? = some (c, r) → (s.objs r).roll.Keeps h name (max s.compacted h.base)
  sound : s.Sound

theorem refines_empty (hv : s.version = 0) (hc : s.compacted = 0) (hm : s.maps = ∅) : s.Refines History.empty where
  version := hv.symm
  compacted_le := by rw [hc]; exact Nat.zero_le _
  absent _ w _ _ := History.at_empty w _
  created_le hname := by simp [hm] at hname
  before hname := by simp [hm] at hname
  keeps hname := by simp [hm] at hname
  sound := ⟨fun hname => by simp [hm] at hname, fun hname => by simp [hm] at hname⟩

namespace Refines

theorem floor_le (k : s.Refines h) : max s.compacted h.base ≤ h.version :=
  max_le (k.version ▸ k.compacted_le) h.base_le_version

/-- A store that differs only in what the relation does not mention. -/
theorem congr (k : s.Refines h) (hv : s'.version = s.version) (hc : s'.compacted = s.compacted)
    (hm : s'.maps = s.maps) (ho : s'.objs = s.objs) (ha : s'.allocated = s.allocated) : s'.Refines h where
  version := by rw [hv, k.version]
  compacted_le := by rw [hv, hc]; exact k.compacted_le
  absent hname := k.absent (hm ▸ hname)
  created_le hname := by rw [hv]; exact k.created_le (hm ▸ hname)
  before hname := k.before (hm ▸ hname)
  keeps hname := by rw [hc, ho]; exact k.keeps (hm ▸ hname)
  sound := ⟨fun hname => by rw [ha]; exact k.sound.lt (hm ▸ hname), fun h₁ h₂ => k.sound.inj (hm ▸ h₁) (hm ▸ h₂)⟩

theorem push (k : s.Refines h) (c : Committed s s' (h.version + 1) d)
    (hv : s'.version = s.version + 1) (hc : s'.compacted = s.compacted) : s'.Refines (h.push d) := by
  have habsent : ∀ {name : Name}, s.maps[name]? = none → ∀ w, h.base ≤ w → w ≤ h.version →
      (h.push d).tableAt w name = ∅ := by
    intro name hname w hw hle
    rw [History.at_push_of_le h d hle, k.absent hname w hw hle]
  refine ⟨?_, ?_, ?_, ?_, ?_, ?_, c.sound⟩
  · rw [History.version_push, k.version, hv]
  · rw [hc, hv]
    exact k.compacted_le.trans (Nat.le_succ _)
  · intro name hname w hw hle
    obtain ⟨hold, hempty⟩ := c.maps_none hname
    rw [History.version_push] at hle
    rcases Nat.le_succ_iff.1 hle with hle | rfl
    · exact habsent hold w hw hle
    · rw [History.at_push_succ, hempty, apply_empty, k.absent hold _ h.base_le_version le_rfl]
  · intro name created r hname
    rw [hv]
    rcases c.maps_cases hname with ⟨hold, -⟩ | ⟨-, -, rfl, -, -⟩
    · exact (k.created_le hold).trans (Nat.le_succ _)
    · rw [k.version]
  · intro name created r hname w hw hlt
    rcases c.maps_cases hname with ⟨hold, -⟩ | ⟨hnone, -, rfl, -, -⟩
    · have hle : w ≤ h.version := k.version ▸ hlt.le.trans (k.created_le hold)
      rw [History.at_push_of_le h d hle]
      exact k.before hold w hw hlt
    · exact habsent hnone w hw (Nat.lt_succ_iff.1 hlt)
  · intro name created r hname
    rw [hc]
    rcases c.maps_cases hname with ⟨hold, hobj⟩ | ⟨hnone, -, -, -, hobj⟩
    · rw [hobj]
      exact (k.keeps hold).commit d
    · rw [hobj]
      exact (Roll.Keeps.new (le_max_right _ _) k.floor_le (k.absent hnone)).commit d

end Refines

/-! ### Rolling back -/

/-- The store after a rollback that takes versions away. -/
def rolledBack (s : Store) (b : Bookkeeping PendingTx) (seqno : ℕ) : Store :=
  { s with
    toBookkeeping := b
    objs := s.onMaps (·.rollback seqno)
    maps := s.maps.filter fun _ p => p.1 ≤ seqno }

variable {txid : TxID}

/-- What a rollback does: it updates the terms, and takes the versions after `seqno` away. -/
theorem rollback_cases (h : s.rollback txid term = .ok s') :
    s.compacted ≤ txid.seqno ∧ s'.termOfLastVersion = txid.view ∧ s'.compacted = s.compacted ∧
      ((s.version ≤ txid.seqno ∧
        s' = { s with termOfNextVersion := term, termOfLastVersion := txid.view }) ∨
      (txid.seqno < s.version ∧ s'.version = txid.seqno ∧ s' = s.rolledBack s'.toBookkeeping txid.seqno)) := by
  obtain ⟨b, hb, h⟩ := bind_eq_ok h
  simp only [Bookkeeping.rollback] at hb
  split_ifs at hb with hcompacted hversion
  · rw [if_pos hversion] at h
    cases h
    cases hb
    exact ⟨not_lt.1 hcompacted, rfl, rfl, .inl ⟨hversion, rfl⟩⟩
  · rw [if_neg hversion] at h
    cases h
    cases hb
    exact ⟨not_lt.1 hcompacted, rfl, rfl, .inr ⟨not_le.1 hversion, rfl, rfl⟩⟩

variable {b : Bookkeeping PendingTx} {name : Name} {r seqno c : ℕ}

theorem maps_rolledBack :
    (s.rolledBack b seqno).maps[name]? = some (c, r) ↔ s.maps[name]? = some (c, r) ∧ c ≤ seqno := by
  simp [rolledBack, ExtTreeMap.getElem?_filter]

theorem objs_rolledBack
    (h : s.maps[name]? = some (c, r)) : (s.rolledBack b seqno).objs r = (s.objs r).rollback seqno := by
  simp only [rolledBack, onMaps, if_pos (holds_iff.2 ⟨name, c, h⟩)]

theorem objs_rolledBack_of_not
    (h : ∀ (name : Name) (c : ℕ), s.maps[name]? ≠ some (c, r)) : (s.rolledBack b seqno).objs r = s.objs r := by
  have hnot : ¬s.holds r = true := fun hr => by
    obtain ⟨name, c, hc⟩ := holds_iff.1 hr
    exact h name c hc
  simp only [rolledBack, onMaps, if_neg hnot]

theorem version_rollback_le (hok : s.rollback txid term = .ok s') : s'.version ≤ txid.seqno := by
  obtain ⟨-, -, -, ⟨hle, rfl⟩ | ⟨-, hv, -⟩⟩ := rollback_cases hok
  · exact hle
  · exact hv.le

/-- A map that exists at the version rolled back to stays. -/
theorem maps_rollback (hok : s.rollback txid term = .ok s')
    (hname : s.maps[name]? = some (c, r)) (hc : c ≤ txid.seqno) : s'.maps[name]? = some (c, r) := by
  obtain ⟨-, -, -, ⟨-, rfl⟩ | ⟨-, -, heq⟩⟩ := rollback_cases hok
  · exact hname
  · rw [heq]
    exact maps_rolledBack.2 ⟨hname, hc⟩

theorem Refines.rollback (k : s.Refines h)
    (hok : s.rollback txid term = .ok s') (hbase : h.base ≤ txid.seqno) : s'.Refines (h.truncate txid.seqno) := by
  obtain ⟨hcompacted, -, hc, ⟨hle, rfl⟩ | ⟨hlt, hv, heq⟩⟩ := rollback_cases hok
  · rw [h.truncate_of_le (k.version.trans_le hle)]
    exact k.congr rfl rfl rfl rfl rfl
  · have hle : txid.seqno ≤ h.version := k.version ▸ hlt.le
    have hversion : (h.truncate txid.seqno).version = txid.seqno := h.version_truncate hbase hle
    have hmaps : ∀ {name : Name} {c r}, s'.maps[name]? = some (c, r) ↔ s.maps[name]? = some (c, r) ∧
        c ≤ txid.seqno := by
      intro name c r
      rw [heq]
      exact maps_rolledBack
    refine ⟨hversion.trans hv.symm, by rw [hc, hv]; exact hcompacted, ?_, ?_, ?_, ?_, ?_⟩
    · intro name hname w hw hwle
      rw [hversion] at hwle
      rw [History.at_truncate h hwle]
      cases hs : s.maps[name]? with
      | none => exact k.absent hs w hw (hwle.trans hle)
      | some p =>
        refine k.before (c := p.1) (r := p.2) hs w hw (hwle.trans_lt (not_le.1 fun hp => ?_))
        rw [hmaps.2 ⟨hs, hp⟩] at hname
        cases hname
    · intro name c r hname
      rw [hv]
      exact (hmaps.1 hname).2
    · intro name c r hname w hw hlt
      rw [History.at_truncate h (hlt.le.trans (hmaps.1 hname).2)]
      exact k.before (hmaps.1 hname).1 w hw hlt
    · intro name c r hname
      have hobj : s'.objs r = (s.objs r).rollback txid.seqno := by
        rw [heq]
        exact objs_rolledBack (hmaps.1 hname).1
      rw [hc, hobj]
      exact (k.keeps (hmaps.1 hname).1).rollback (max_le hcompacted hbase) hle
    · have ha : s'.allocated = s.allocated := by rw [heq]; rfl
      exact ⟨fun hname => ha ▸ k.sound.lt (hmaps.1 hname).1,
        fun h₁ h₂ => k.sound.inj (hmaps.1 h₁).1 (hmaps.1 h₂).1⟩

/-! ### Compacting -/

theorem objs_compact (hv : v ≤ s.version)
    (h : s.maps[name]? = some (c, r)) : (s.compact v).objs r = ((s.objs r).compact v).postCompact := by
  have hr : s.holds r = true := holds_iff.2 ⟨name, c, h⟩
  have hr' : ({ s with objs := s.onMaps (·.compact v), compacted := v } : Store).holds r = true := hr
  simp only [compact, if_neg (not_lt.2 hv), onMaps, if_pos hr, if_pos hr']

theorem objs_compact_of_not (v : ℕ)
    (h : ∀ (name : Name) (c : ℕ), s.maps[name]? ≠ some (c, r)) : (s.compact v).objs r = s.objs r := by
  have hnot : ¬s.holds r = true := fun hr => by
    obtain ⟨name, c, hc⟩ := holds_iff.1 hr
    exact h name c hc
  have hnot' : ¬({ s with objs := s.onMaps (·.compact v), compacted := v } : Store).holds r = true := hnot
  unfold compact
  split_ifs
  · rfl
  · simp only [onMaps, if_neg hnot, if_neg hnot']

theorem compact_of_lt (hv : s.version < v) : s.compact v = s := by
  rw [compact, if_pos hv]

theorem compact_fields (hv : v ≤ s.version) :
    (s.compact v).version = s.version ∧ (s.compact v).compacted = v ∧ (s.compact v).maps = s.maps ∧
      (s.compact v).allocated = s.allocated := by
  simp only [compact, if_neg (not_lt.2 hv), and_self]

theorem Refines.compact (k : s.Refines h) (hv : s.compacted ≤ v) : (s.compact v).Refines h := by
  rcases lt_or_ge s.version v with hlt | hle
  · rwa [compact_of_lt hlt]
  · obtain ⟨hversion, hcompacted, hmaps, halloc⟩ := compact_fields hle
    refine ⟨k.version.trans hversion.symm, by rw [hversion, hcompacted]; exact hle, fun hname => ?_, fun hname => ?_,
      fun hname => ?_, fun {name c r} hname => ?_, ?_⟩
    · exact k.absent (hmaps ▸ hname)
    · rw [hversion]
      exact k.created_le (hmaps ▸ hname)
    · exact k.before (hmaps ▸ hname)
    · rw [hmaps] at hname
      rw [objs_compact hle hname, hcompacted]
      have hfloor : max v h.base = max v (max s.compacted h.base) := by omega
      rw [hfloor]
      exact Map.keeps_compact (k.keeps hname) (k.version ▸ hle)
    · exact ⟨fun hname => halloc ▸ k.sound.lt (hmaps ▸ hname),
        fun h₁ h₂ => k.sound.inj (hmaps ▸ h₁) (hmaps ▸ h₂)⟩

end Store

/-! ### Committing deserialised entries -/

theorem Store.Refines.getMap_eq (k : s.Refines h) (hv : s.version ≤ v)
    (name : Name) : s.getMap v name = s.ref? name := by
  unfold getMap ref?
  cases hs : s.maps[name]? with
  | none => rfl
  | some p =>
    have hle : p.1 ≤ v := (k.created_le (c := p.1) (r := p.2) hs).trans hv
    simp [hle]

variable {blocks : List MapBlock} {f : Filling}

namespace Filling

theorem mem_views {p : Name × Option ℕ × AbstractCommitter} :
    p ∈ f.views ↔ ∃ x : Option ℕ × ChangeSet, f[p.1]? = some x ∧ p.2 = (x.1, x.2.committer) := by
  simp only [views, mem_map]
  constructor
  · rintro ⟨⟨name, x⟩, hmem, rfl⟩
    exact ⟨x, ExtTreeMap.mem_toList_iff_getElem?_eq_some.1 hmem, rfl⟩
  · rintro ⟨x, hx, hp⟩
    refine ⟨(p.1, x), ExtTreeMap.mem_toList_iff_getElem?_eq_some.2 hx, ?_⟩
    rw [← hp]

theorem nodup_views (f : Filling) : (f.views.map Prod.fst).Nodup := by
  have hmap : f.views.map Prod.fst = f.toList.map Prod.fst := by
    simp [views, map_map, Function.comp_def]
  rw [hmap]
  exact nodup_keys _

variable {f' : Filling}

theorem addBlock_eq {b : MapBlock} (h : f.addBlock s v b = .next f') :
    b.name ∉ f ∧ ∃ cs, (s.obj (s.getMap v b.name)).roll.createChangeSet v false = some cs ∧
      f' = f.insert b.name (s.getMap v b.name, b.fill cs) := by
  unfold addBlock at h
  split_ifs at h with hmem
  refine ⟨hmem, ?_⟩
  cases hcs : (s.obj (s.getMap v b.name)).roll.createChangeSet v false with
  | none => simp [hcs] at h
  | some cs =>
    simp only [hcs] at h
    exact ⟨cs, rfl, (Filled.next.inj h).symm⟩

/-- The change set of each block is on the map of its name. -/
theorem addBlocks_spec (h : addBlocks s v blocks f = .next f') (name : Name) :
    (f[name]?.isSome → f'[name]? = f[name]? ∧ ∀ b ∈ blocks, b.name ≠ name) ∧
    (f[name]? = none → (f'[name]?).map (fun x => (x.1, x.2.writes)) =
      (blocks.find? fun b => b.name == name).map fun b => (s.getMap v name, b.writes)) := by
  induction blocks generalizing f with
  | nil =>
    cases h
    simp
  | cons b blocks ih =>
    unfold addBlocks at h
    cases hb : f.addBlock s v b with
    | refused => simp [hb] at h
    | raised => simp [hb] at h
    | next f₁ =>
      simp only [hb] at h
      obtain ⟨hnot, cs, -, rfl⟩ := addBlock_eq hb
      obtain ⟨hold, hnew⟩ := ih h
      have hinsert : (f.insert b.name (s.getMap v b.name, b.fill cs))[name]? =
          if b.name = name then some (s.getMap v b.name, b.fill cs) else f[name]? := by
        simp only [ExtTreeMap.getElem?_insert, Std.compare_eq_iff_eq]
      rw [hinsert] at hold hnew
      by_cases hname : b.name = name
      · subst hname
        have hnone : f[b.name]? = none := by simpa using hnot
        simp only [if_true] at hold hnew
        refine ⟨by simp [hnone], fun _ => ?_⟩
        rw [(hold rfl).1, find?_cons_of_pos (by simp)]
        rfl
      · simp only [if_neg hname] at hold hnew
        refine ⟨fun hsome => ⟨(hold hsome).1, ?_⟩, fun hnone => ?_⟩
        · intro b' hb'
          rcases mem_cons.1 hb' with rfl | hb'
          · exact hname
          · exact (hold hsome).2 b' hb'
        · rw [hnew hnone, find?_cons_of_neg (by simpa using hname)]

end Filling

namespace Store

theorem Refines.viewing (k : s.Refines h) (hv : s.version ≤ v)
    (hf : Filling.addBlocks s v blocks ∅ = .next f) : s.Viewing f.views (blockWrites blocks) := by
  have hspec : ∀ name, (f[name]?).map (fun x => (x.1, x.2.writes)) =
      (blocks.find? fun b => b.name == name).map fun b => (s.getMap v name, b.writes) :=
    fun name => (Filling.addBlocks_spec hf name).2 (by simp)
  refine ⟨f.nodup_views, ?_, ?_, ?_⟩
  · intro p hp
    obtain ⟨x, hx, hp⟩ := Filling.mem_views.1 hp
    refine ⟨x.2, by rw [hp], ?_⟩
    have hname := hspec p.1
    rw [hx] at hname
    unfold blockWrites
    cases hb : blocks.find? fun b => b.name == p.1 with
    | none => simp [hb] at hname
    | some b =>
      simp only [hb, Option.map_some, Option.some.injEq, Prod.mk.injEq] at hname
      exact hname.2
  · intro name hname
    unfold blockWrites
    cases hb : blocks.find? fun b => b.name == name with
    | none => rfl
    | some b =>
      have hx := hspec name
      rw [hb] at hx
      obtain ⟨x, hx, -⟩ := Option.map_eq_some_iff.1 hx
      have hmem : (name, x.1, x.2.committer) ∈ f.views := Filling.mem_views.2 ⟨x, hx, rfl⟩
      exact absurd (mem_map_of_mem hmem) hname
  · intro p hp
    obtain ⟨x, hx, hp⟩ := Filling.mem_views.1 hp
    have hname := hspec p.1
    rw [hx] at hname
    obtain ⟨b, -, hb⟩ := Option.map_eq_some_iff.1 hname.symm
    simp only [Prod.mk.injEq] at hb
    rw [show p.2.1 = x.1 by rw [hp], ← hb.1, k.getMap_eq hv]

theorem Committed.refl (hs : s.Sound) (v : ℕ) (hd : ∀ name, d name = ∅) : Committed s s v d where
  hooks := rfl
  fired := rfl
  allocated := le_rfl
  kept hname := ⟨hname, by simp [hd, Roll.commit]⟩
  absent hname _ := hname
  created _ hne := absurd (hd _) hne
  dropped _ _ _ := rfl
  sound := hs

/-- `commit_deserialised` on the change sets of the blocks. -/
theorem Refines.commitDeserialised (k : s.Refines h) (hv : s.version ≤ v)
    (hf : Filling.addBlocks s v blocks ∅ = .next f)
    (hok : s.commitDeserialised f v term false = .ok (true, s')) :
    Committed s s' v (blockWrites blocks) ∧ s'.version = v ∧ s'.compacted = s.compacted ∧
      s'.termOfLastVersion = term ∧ s'.termOfNextVersion = s.termOfNextVersion := by
  have hview := k.viewing hv hf
  obtain ⟨⟨o, s₁⟩, happly, hok⟩ := bind_eq_ok hok
  cases o with
  | none => cases hok
  | some u =>
    cases hok
    obtain ⟨-, ⟨-, rfl, hnone⟩ | ⟨-, -, s₂, hadd, -, rfl⟩⟩ := applyChanges_cases happly
    · have hd : ∀ name, blockWrites blocks name = ∅ := by
        intro name
        by_contra hne
        obtain ⟨p, hp, rfl⟩ := mem_map.1 (not_imp_comm.1 (hview.other name) hne)
        obtain ⟨cs, hcs, hwrites⟩ := hview.view p hp
        have := hnone p hp
        rw [hcs] at this
        simp [ChangeSet.committer, ChangeSet.hasWrites, hwrites] at this
        exact hne this
      have hc := Committed.refl k.sound v hd
      exact ⟨⟨hc.hooks, hc.fired, hc.allocated, hc.kept, hc.absent, hc.created, hc.dropped,
        ⟨hc.sound.lt, hc.sound.inj⟩⟩, rfl, rfl, rfl, rfl⟩
    · have hc := hview.committed k.sound hadd
      have hb := (added_of_ok k.sound hview.nodup hadd).bookkeeping
      have heq := foldl_commitView_eq v false f.views s₂
      refine ⟨⟨hc.hooks, hc.fired, hc.allocated, hc.kept, hc.absent, hc.created, hc.dropped,
        ⟨hc.sound.lt, hc.sound.inj⟩⟩, rfl, ?_, rfl, ?_⟩
      · show (f.views.foldl (commitView v false) s₂).compacted = s.compacted
        rw [heq]
        exact congrArg Bookkeeping.compacted hb
      · show (f.views.foldl (commitView v false) s₂).termOfNextVersion = s.termOfNextVersion
        rw [heq]
        exact congrArg Bookkeeping.termOfNextVersion hb

theorem commitDeserialised_false {track : Bool}
    (hok : s.commitDeserialised f v term track = .ok (false, s')) : s' = s := by
  obtain ⟨⟨o, s₁⟩, happly, hok⟩ := bind_eq_ok hok
  cases o with
  | some u => cases hok
  | none =>
    cases hok
    exact applyChanges_conflict happly

/-- An entry is committed, or only the versions it replaces are forgotten. -/
theorem applyBlocks_cases {store : Store} (hforget : s.forget v = .ok store) (term : ℕ) (blocks : List MapBlock) :
    s.applyBlocks v term blocks = (false, store) ∨
    ∃ f s', Filling.addBlocks store v blocks ∅ = .next f ∧ store.commitDeserialised f v term false = .ok (true, s') ∧
      s.applyBlocks v term blocks = (true, s') := by
  unfold applyBlocks
  simp only [hforget]
  cases hfill : Filling.addBlocks store v blocks ∅ with
  | refused => exact .inl rfl
  | raised => exact .inl rfl
  | next f =>
    cases hcommit : store.commitDeserialised f v term false with
    | error e => exact .inl (by simp only [hcommit])
    | ok res =>
      obtain ⟨committed, s'⟩ := res
      cases committed with
      | false => exact .inl (by simp only [hcommit, commitDeserialised_false hcommit])
      | true => exact .inr ⟨f, s', rfl, hcommit, by simp only [hcommit]⟩

end Store

end Ccf.Kv
