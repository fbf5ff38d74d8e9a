import Ccf.Kv.Deserialise
import Ccf.Kv.Rolls
import Ccf.Lib.TreeMap

/-! # What applying changes does to the store

`Store.Committed s s' v d` says what a commit of the write sets `d` at version `v` does: every map of the store
commits its writes, a map that is written and was not there is created, and nothing else changes.
`applyChanges_cases` is the inversion of `apply_changes`, `committed_of_views` gives the effect on the maps of the
store. -/

namespace Ccf.Kv

open List Versioned
open Std (ExtTreeMap)

theorem bind_eq_ok {ε α β : Type} {x : Except ε α} {f : α → Except ε β} {b : β} (h : x >>= f = .ok b) :
    ∃ a, x = .ok a ∧ f a = .ok b := by
  cases x with
  | error e => cases h
  | ok a => exact ⟨a, rfl, h⟩

namespace Store

/-- The maps of a store are different objects, all of them allocated. -/
structure Sound (s : Store) : Prop where
  lt : ∀ {name : Name} {c r}, s.maps[name]? = some (c, r) → r < s.allocated
  inj : ∀ {name name' : Name} {c c' r}, s.maps[name]? = some (c, r) → s.maps[name']? = some (c', r) → name = name'

/-- The object of the map `name`. -/
def ref? (s : Store) (name : Name) : Option ℕ := s.maps[name]?.map Prod.snd

variable {name : Name} {s : Store} {r : ℕ}

theorem ref?_eq_some : s.ref? name = some r ↔ ∃ c, s.maps[name]? = some (c, r) := by
  simp [ref?]

theorem ref?_eq_none : s.ref? name = none ↔ s.maps[name]? = none := by
  simp [ref?]

variable {v : ℕ}

theorem getMap_eq_some (h : s.getMap v name = some r) :
    ∃ c, s.maps[name]? = some (c, r) ∧ (c ≤ v ∨ c = noVersion) := by
  unfold getMap at h
  split at h
  · split_ifs at h with hc
    cases h
    exact ⟨_, by assumption, hc⟩
  · cases h

theorem holds_iff : s.holds r = true ↔ ∃ (name : Name) (c : ℕ), s.maps[name]? = some (c, r) := by
  simp only [holds, any_eq_true, beq_iff_eq]
  constructor
  · rintro ⟨⟨name, c, r'⟩, hmem, rfl⟩
    exact ⟨name, c, ExtTreeMap.mem_toList_iff_getElem?_eq_some.1 hmem⟩
  · rintro ⟨name, c, h⟩
    exact ⟨(name, c, r), ExtTreeMap.mem_toList_iff_getElem?_eq_some.2 h, rfl⟩

/-! ### Adding maps -/

/-- Some view writes a map that the store does not have. -/
def IsNew (views : Views) (name : Name) : Prop := ∃ c : AbstractCommitter, (name, none, c) ∈ views ∧ c.hasWrites

/-- What `add_dynamic_map` leaves behind. -/
def added (s : Store) (v : ℕ) (name : Name) : Store :=
  { s with
    maps := s.maps.insert name (v, s.allocated)
    objs := Function.update s.objs s.allocated { globalHook := s.globalHooks name }
    allocated := s.allocated + 1 }

variable {s' : Store}

theorem addDynamicMap_eq (h : s.addDynamicMap v name = .ok s') : s' = s.added v name := by
  unfold addDynamicMap at h
  split_ifs at h
  exact (Except.ok.inj h).symm

theorem maps_added (s : Store) (v : ℕ) (name a : Name) :
    (s.added v name).maps[a]? = if name = a then some (v, s.allocated) else s.maps[a]? := by
  simp only [added, ExtTreeMap.getElem?_insert, Std.compare_eq_iff_eq]

theorem sound_added (hs : s.Sound) (v : ℕ) (name : Name) : (s.added v name).Sound where
  lt {a c r} h := by
    rw [maps_added] at h
    split_ifs at h
    · cases h
      exact Nat.lt_succ_self _
    · exact (hs.lt h).trans (Nat.lt_succ_self _)
  inj {a a' c c' r} h h' := by
    rw [maps_added] at h h'
    split_ifs at h h' with ha ha' ha'
    · exact ha.symm.trans ha'
    · cases h
      exact absurd (hs.lt h') (lt_irrefl _)
    · cases h'
      exact absurd (hs.lt h) (lt_irrefl _)
    · exact hs.inj h h'

/-- What adding the new maps of `views` does. -/
structure Added (s s' : Store) (v : ℕ) (views : Views) : Prop where
  bookkeeping : s'.toBookkeeping = s.toBookkeeping
  hooks : s'.globalHooks = s.globalHooks
  fired : s'.fired = s.fired
  allocated : s.allocated ≤ s'.allocated
  objs : ∀ r < s.allocated, s'.objs r = s.objs r
  old : ∀ name : Name, ¬IsNew views name → s'.maps[name]? = s.maps[name]?
  new : ∀ name : Name, IsNew views name → ∃ r, s.allocated ≤ r ∧ s'.maps[name]? = some (v, r) ∧
    s'.objs r = { globalHook := s.globalHooks name }
  sound : s'.Sound

theorem Added.refl (hs : s.Sound) (v : ℕ) : Added s s v [] where
  bookkeeping := rfl
  hooks := rfl
  fired := rfl
  allocated := le_rfl
  objs _ _ := rfl
  old _ _ := rfl
  new _ h := by simp [IsNew] at h
  sound := hs

variable {views : Views} {resolve : Store → ℕ × Store} {expected : Option ℕ} {d : Name → Write} {track : Bool}

theorem added_of_ok (hs : s.Sound) (hnodup : (views.map Prod.fst).Nodup)
    (h : addDynamicMaps v views s = .ok s') : Added s s' v views := by
  induction views generalizing s with
  | nil => cases h; exact .refl hs v
  | cons view views ih =>
    obtain ⟨name, ref, c⟩ := view
    obtain ⟨hname, hviews⟩ := nodup_cons.1 hnodup
    have hfresh : ¬IsNew views name := by
      rintro ⟨c', hc', -⟩
      exact hname (mem_map.2 ⟨_, hc', rfl⟩)
    -- the head of the list adds a map or does nothing, and the rest is added after it
    by_cases hnew : ref = none ∧ c.hasWrites
    · obtain ⟨rfl, hc⟩ := hnew
      rw [addDynamicMaps, if_pos hc] at h
      obtain ⟨s₁, h₁, h₂⟩ := bind_eq_ok h
      cases addDynamicMap_eq h₁
      have k := ih (sound_added hs v name) hviews h₂
      refine ⟨k.bookkeeping, k.hooks, k.fired, (Nat.le_succ _).trans k.allocated, ?_, ?_, ?_, k.sound⟩
      · intro r hr
        rw [k.objs r (hr.trans (Nat.lt_succ_self _))]
        exact Function.update_of_ne hr.ne _ _
      · intro a ha
        have hne : name ≠ a := fun h => ha (h ▸ ⟨c, mem_cons_self, hc⟩)
        rw [k.old a fun ⟨c', hc', hw⟩ => ha ⟨c', mem_cons_of_mem _ hc', hw⟩, maps_added, if_neg hne]
      · rintro a ⟨c', hc', hw⟩
        rcases mem_cons.1 hc' with heq | hc'
        · cases heq
          refine ⟨s.allocated, le_rfl, ?_, ?_⟩
          · rw [k.old name hfresh, maps_added, if_pos rfl]
          · rw [k.objs s.allocated (Nat.lt_succ_self _)]
            exact Function.update_self _ _ _
        · obtain ⟨r, hr, hmaps, hobj⟩ := k.new a ⟨c', hc', hw⟩
          exact ⟨r, (Nat.le_succ _).trans hr, hmaps, hobj⟩
    · have hskip : addDynamicMaps v views s = .ok s' := by
        cases ref with
        | some r => exact h
        | none => rwa [addDynamicMaps, if_neg fun hc => hnew ⟨rfl, hc⟩] at h
      have hiff : ∀ a, IsNew ((name, ref, c) :: views) a ↔ IsNew views a := by
        refine fun a => ⟨fun ⟨c', hc', hw⟩ => ?_, fun ⟨c', hc', hw⟩ => ⟨c', mem_cons_of_mem _ hc', hw⟩⟩
        rcases mem_cons.1 hc' with heq | hc'
        · cases heq
          exact absurd ⟨rfl, hw⟩ hnew
        · exact ⟨c', hc', hw⟩
      have k := ih hs hviews hskip
      exact ⟨k.bookkeeping, k.hooks, k.fired, k.allocated, k.objs, fun a ha => k.old a (mt (hiff a).2 ha),
        fun a ha => k.new a ((hiff a).1 ha), k.sound⟩

section
variable (ha : Added s s' v views) (href : ∀ p ∈ views, p.2.1 = s.ref? p.1)
include ha href

theorem Added.kept {x : ℕ × ℕ} (h : s.maps[name]? = some x) : s'.maps[name]? = some x := by
  rw [ha.old name, h]
  rintro ⟨c, hc, -⟩
  cases (href _ hc).trans (ref?_eq_some.2 ⟨x.1, h⟩)

theorem Added.or_ref : ∀ p ∈ views, p.2.1.or (s'.ref? p.1) = s'.ref? p.1 := by
  intro p hp
  rw [href p hp]
  cases hr : s.ref? p.1 with
  | none => rfl
  | some r =>
    obtain ⟨c, hc⟩ := ref?_eq_some.1 hr
    rw [ref?_eq_some.2 ⟨c, ha.kept href hc⟩, Option.some_or]

end

/-! ### Committing views -/

variable (v track)

theorem commitView_eq (s : Store) (view : Name × Option ℕ × AbstractCommitter) :
    commitView v track s view = { s with objs := (commitView v track s view).objs } := by
  unfold commitView
  split <;> rfl

theorem foldl_commitView_eq (views : Views) (s : Store) :
    views.foldl (commitView v track) s = { s with objs := (views.foldl (commitView v track) s).objs } := by
  induction views generalizing s with
  | nil => rfl
  | cons view views ih =>
    rw [foldl_cons, ih, commitView_eq]

theorem objs_commitView {c : AbstractCommitter} {ref : Option ℕ}
    (href : ref.or (s.ref? name) = s.ref? name) (r : ℕ) : (commitView v track s (name, ref, c)).objs r =
      if s.ref? name = some r then c.commit (s.objs r) v track else s.objs r := by
  have heq : ref.or (s.maps[name]?.map Prod.snd) = s.ref? name := href
  unfold commitView
  simp only [heq]
  cases hname : s.ref? name with
  | none => simp
  | some r' =>
    by_cases hr : r' = r
    · subst hr
      simp
    · rw [if_neg fun h => hr (Option.some.inj h)]
      exact Function.update_of_ne (Ne.symm hr) _ _

/-- Each map of the store is committed by the view of its name. -/
theorem objs_foldl_commitView (hs : s.Sound)
    (hnodup : (views.map Prod.fst).Nodup) (href : ∀ p ∈ views, p.2.1.or (s.ref? p.1) = s.ref? p.1) :
    (∀ p ∈ views, ∀ r, s.ref? p.1 = some r →
      (views.foldl (commitView v track) s).objs r = p.2.2.commit (s.objs r) v track) ∧
    ∀ r, (∀ p ∈ views, s.ref? p.1 ≠ some r) → (views.foldl (commitView v track) s).objs r = s.objs r := by
  induction views generalizing s with
  | nil => simp
  | cons view views ih =>
    obtain ⟨name, ref, c⟩ := view
    obtain ⟨hname, hnodup⟩ := nodup_cons.1 hnodup
    have hmaps : (commitView v track s (name, ref, c)).maps = s.maps := by rw [commitView_eq]
    have hrefs : ∀ a, (commitView v track s (name, ref, c)).ref? a = s.ref? a := fun a => by rw [ref?, hmaps]; rfl
    have hsound : (commitView v track s (name, ref, c)).Sound := by
      rw [commitView_eq]
      exact ⟨hs.lt, hs.inj⟩
    obtain ⟨hview, hother⟩ := ih hsound hnodup fun p hp => by
      rw [hrefs]
      exact href p (mem_cons_of_mem _ hp)
    have hobjs := fun r => objs_commitView v track (c := c) (href _ mem_cons_self) r
    rw [foldl_cons]
    constructor
    · intro p hp r hr
      rcases mem_cons.1 hp with rfl | hp
      · -- the later views are on other maps
        rw [hother r, hobjs, if_pos hr]
        intro q hq hqr
        rw [hrefs] at hqr
        obtain ⟨c₁, h₁⟩ := ref?_eq_some.1 hr
        obtain ⟨c₂, h₂⟩ := ref?_eq_some.1 hqr
        exact hname (hs.inj h₁ h₂ ▸ mem_map_of_mem hq)
      · rw [hview p hp r (by rw [hrefs]; exact hr), hobjs, if_neg]
        intro hr'
        obtain ⟨c₁, h₁⟩ := ref?_eq_some.1 hr
        obtain ⟨c₂, h₂⟩ := ref?_eq_some.1 hr'
        exact hname (hs.inj h₂ h₁ ▸ mem_map_of_mem hp)
    · intro r hr
      rw [hother r fun p hp => by rw [hrefs]; exact hr p (mem_cons_of_mem _ hp), hobjs,
        if_neg (hr _ mem_cons_self)]

variable {track v}

/-! ### Applying changes -/

theorem applyChanges_cases (h : s.applyChanges views resolve track expected = .ok (some v, s')) :
    (∀ p ∈ views, p.2.1 = none → s.getMap s.version p.1 = none) ∧
    ((v = noVersion ∧ s' = s ∧ ∀ p ∈ views, p.2.2.hasWrites = false) ∨
      ((∃ p ∈ views, p.2.2.hasWrites) ∧ (∀ p ∈ views, p.2.2.prepare (s.obj p.2.1)) ∧
        ∃ s₁, addDynamicMaps (resolve s).1 views (resolve s).2 = .ok s₁ ∧ v = (resolve s).1 ∧
          s' = views.foldl (commitView (resolve s).1 track) s₁)) := by
  simp only [applyChanges] at h
  split_ifs at h with hok hw
  · cases h
  · simp only [Bool.not_eq_true', Bool.not_eq_false, Bool.and_eq_true, all_eq_true, Bool.or_eq_true] at hok hw
    cases h
    refine ⟨fun p hp hnone => ?_, .inl ⟨rfl, rfl, ?_⟩⟩
    · simpa [hnone] using hok.2 p hp
    · simpa using hw
  · simp only [Bool.not_eq_true', Bool.not_eq_false, Bool.and_eq_true, all_eq_true, Bool.or_eq_true] at hok hw
    refine ⟨fun p hp hnone => ?_, .inr ⟨by simpa using hw, ?_, ?_⟩⟩
    · simpa [hnone] using hok.2 p hp
    · exact hok.1.2.resolve_left (by simp [hw])
    · obtain ⟨s₁, hadd, h⟩ := bind_eq_ok h
      cases h
      exact ⟨s₁, hadd, rfl, rfl⟩

theorem applyChanges_conflict (h : s.applyChanges views resolve track expected = .ok (none, s')) : s' = s := by
  simp only [applyChanges] at h
  split_ifs at h with hok hw
  · cases h
    rfl
  · cases h
  · obtain ⟨s₁, -, h⟩ := bind_eq_ok h
    cases h

/-- What a commit of the write sets `d` at version `v` does to the maps. -/
structure Committed (s s' : Store) (v : ℕ) (d : Name → Write) : Prop where
  hooks : s'.globalHooks = s.globalHooks
  fired : s'.fired = s.fired
  allocated : s.allocated ≤ s'.allocated
  kept : ∀ {name : Name} {c r}, s.maps[name]? = some (c, r) →
    s'.maps[name]? = some (c, r) ∧ s'.objs r = { s.objs r with roll := (s.objs r).roll.commit (d name) v false }
  absent : ∀ {name : Name}, s.maps[name]? = none → d name = ∅ → s'.maps[name]? = none
  created : ∀ {name : Name}, s.maps[name]? = none → d name ≠ ∅ → ∃ r, s.allocated ≤ r ∧ s'.maps[name]? = some (v, r) ∧
    s'.objs r = { roll := ({} : Roll).commit (d name) v false, globalHook := s.globalHooks name }
  dropped : ∀ r < s.allocated, (∀ (name : Name) (c : ℕ), s.maps[name]? ≠ some (c, r)) → s'.objs r = s.objs r
  sound : s'.Sound

theorem Committed.maps_cases {c : ℕ} (k : Committed s s' v d)
    (h : s'.maps[name]? = some (c, r)) : (s.maps[name]? = some (c, r) ∧
      s'.objs r = { s.objs r with roll := (s.objs r).roll.commit (d name) v false }) ∨
    (s.maps[name]? = none ∧ d name ≠ ∅ ∧ c = v ∧ s.allocated ≤ r ∧
      s'.objs r = { roll := ({} : Roll).commit (d name) v false, globalHook := s.globalHooks name }) := by
  cases hs : s.maps[name]? with
  | some p =>
    obtain ⟨hkept, hobj⟩ := k.kept (c := p.1) (r := p.2) hs
    rw [hkept] at h
    cases h
    exact .inl ⟨rfl, hobj⟩
  | none =>
    by_cases hempty : d name = ∅
    · rw [k.absent hs hempty] at h
      cases h
    · obtain ⟨r', hr', hnew, hobj⟩ := k.created hs hempty
      rw [hnew] at h
      cases h
      exact .inr ⟨rfl, hempty, rfl, hr', hobj⟩

theorem Committed.maps_none (k : Committed s s' v d)
    (h : s'.maps[name]? = none) : s.maps[name]? = none ∧ d name = ∅ := by
  have hold : s.maps[name]? = none := by
    cases hs : s.maps[name]? with
    | none => rfl
    | some p =>
      rw [(k.kept (c := p.1) (r := p.2) hs).1] at h
      cases h
  refine ⟨hold, ?_⟩
  by_contra hne
  obtain ⟨r, -, hr, -⟩ := k.created hold hne
  rw [hr] at h
  cases h

/-- The views are those of change sets on the maps of the store, with the write sets `d`. -/
structure Viewing (s : Store) (views : Views) (d : Name → Write) : Prop where
  nodup : (views.map Prod.fst).Nodup
  view : ∀ p ∈ views, ∃ cs : ChangeSet, p.2.2 = cs.committer ∧ cs.writes = d p.1
  other : ∀ name, name ∉ views.map Prod.fst → d name = ∅
  ref : ∀ p ∈ views, p.2.1 = s.ref? p.1

namespace Viewing

variable (k : s.Viewing views d) {s₁ : Store}
include k

theorem isNew_iff : IsNew views name ↔ s.maps[name]? = none ∧ d name ≠ ∅ := by
  constructor
  · rintro ⟨c, hmem, hw⟩
    obtain ⟨cs, hcs, hwrites⟩ := k.view _ hmem
    refine ⟨ref?_eq_none.1 (k.ref _ hmem).symm, fun hempty => ?_⟩
    rw [show c = cs.committer from hcs] at hw
    simp [ChangeSet.committer, ChangeSet.hasWrites, hwrites, hempty] at hw
  · rintro ⟨hnone, hne⟩
    have hin : name ∈ views.map Prod.fst := by
      by_contra hnot
      exact hne (k.other name hnot)
    obtain ⟨⟨name', ref, c⟩, hmem, rfl⟩ := mem_map.1 hin
    obtain ⟨cs, hcs, hwrites⟩ := k.view _ hmem
    have href : ref = none := (k.ref _ hmem).trans (ref?_eq_none.2 hnone)
    refine ⟨c, href ▸ hmem, ?_⟩
    rw [show c = cs.committer from hcs]
    simpa [ChangeSet.committer, ChangeSet.hasWrites, hwrites] using hne

/-- The map `name` commits `d name`, whether or not it has a view. -/
theorem objs_commit (hs : s₁.Sound)
    (href : ∀ p ∈ views, p.2.1.or (s₁.ref? p.1) = s₁.ref? p.1) {c : ℕ}
    (hname : s₁.maps[name]? = some (c, r)) :
    (views.foldl (commitView v false) s₁).objs r =
      { s₁.objs r with roll := (s₁.objs r).roll.commit (d name) v false } := by
  obtain ⟨hview, hother⟩ := objs_foldl_commitView v false hs k.nodup href
  have hr : s₁.ref? name = some r := ref?_eq_some.2 ⟨c, hname⟩
  by_cases hmem : name ∈ views.map Prod.fst
  · obtain ⟨p, hp, rfl⟩ := mem_map.1 hmem
    obtain ⟨cs, hcs, hwrites⟩ := k.view p hp
    rw [hview p hp r hr, hcs, ← hwrites]
    rfl
  · rw [hother r, k.other name hmem]
    · simp [Roll.commit]
    · intro p hp hpr
      obtain ⟨c', hc'⟩ := ref?_eq_some.1 hpr
      exact hmem (hs.inj hname hc' ▸ mem_map_of_mem hp)

/-- Adding the new maps and committing the views commits `d`. -/
theorem committed (hs : s.Sound)
    (hadd : addDynamicMaps v views s = .ok s₁) : Committed s (views.foldl (commitView v false) s₁) v d := by
  have ha := added_of_ok hs k.nodup hadd
  have href := ha.or_ref k.ref
  have heq := foldl_commitView_eq v false views s₁
  have hmaps : (views.foldl (commitView v false) s₁).maps = s₁.maps := by rw [heq]
  refine ⟨by rw [heq]; exact ha.hooks, by rw [heq]; exact ha.fired, by rw [heq]; exact ha.allocated,
    ?_, ?_, ?_, ?_, by rw [heq]; exact ⟨ha.sound.lt, ha.sound.inj⟩⟩
  · intro name c r hname
    have hold := ha.kept k.ref hname
    rw [hmaps, k.objs_commit ha.sound href hold, ha.objs r (hs.lt hname)]
    exact ⟨hold, rfl⟩
  · intro name hname hempty
    rw [hmaps, ha.old name fun hnew => (k.isNew_iff.1 hnew).2 hempty, hname]
  · intro name hname hne
    obtain ⟨r, hr, hnew, hobj⟩ := ha.new name (k.isNew_iff.2 ⟨hname, hne⟩)
    refine ⟨r, hr, by rw [hmaps, hnew], ?_⟩
    rw [k.objs_commit ha.sound href hnew, hobj]
  · intro r hr hnot
    rw [(objs_foldl_commitView v false ha.sound k.nodup href).2 r, ha.objs r hr]
    intro p _ hpr
    obtain ⟨c, hc⟩ := ref?_eq_some.1 hpr
    by_cases hnew : IsNew views p.1
    · obtain ⟨r', hr', hmap, -⟩ := ha.new p.1 hnew
      rw [hmap] at hc
      cases hc
      omega
    · rw [ha.old p.1 hnew] at hc
      exact hnot p.1 c hc

omit k

end Viewing
end Store
end Ccf.Kv
