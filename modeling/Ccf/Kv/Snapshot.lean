import Ccf.Kv.MapSnapshot
import Ccf.Kv.Replay

/-! # Snapshots of the store

`Store::snapshot_unsafe_maps`, `StoreSnapshot::serialise` and `Store::deserialise_snapshot` (`store.h`, `snapshot.h`).
Applying a snapshot locks the maps of the store while it is read, and commits the states of all maps at once.

A snapshot that names a map twice is refused with the maps still locked, a history that refuses the snapshot does so
after it has been applied, and a store that has ever been rolled back refuses every snapshot: the flag that is meant
for the deletes is given to `apply_changes` as the expected number of rollbacks. -/

namespace Ccf.Kv

open Versioned Runs
open Std (ExtTreeMap)

/-! ### Taking a snapshot -/

/-- `Map::snapshot`: the version and the state of the last commit at or before `v`. -/
def Map.snapshot (m : Map) (v : ℕ) : ℕ × State :=
  let r := (m.roll.find? v).getD m.roll.head
  (r.version, r.state)

structure StoreSnapshot where
  version : ℕ
  /-- The maps with their versions and states. -/
  maps : List (Name × ℕ × State) := []
  hashAtSnapshot : Option (List UInt8) := none
  viewHistory : Option (List ℕ) := none

inductive SnapshotFault where
  /-- Cannot snapshot at a version which is earlier than the last compacted version. -/
  | earlierThanCompacted
  /-- Cannot snapshot at a version which is later than the current version. -/
  | laterThanCurrent
deriving DecidableEq

/-- `snapshot_unsafe_maps`. `getRawLeaf` is that of the history and `getViewHistory` that of the consensus, if
the store has them. -/
def Store.snapshotUnsafeMaps (s : Store) (getRawLeaf : Option (ℕ → List UInt8)) (getViewHistory : Option (ℕ → List ℕ))
    (v : ℕ) : Except SnapshotFault StoreSnapshot :=
  if v < s.compacted then .error .earlierThanCompacted
  else if s.version < v then .error .laterThanCurrent
  else
    .ok { version := v
          maps := s.maps.toList.map fun p => (p.1, (s.objs p.2.2).snapshot v)
          hashAtSnapshot := getRawLeaf.map (· v)
          viewHistory := getViewHistory.map (· v) }

namespace StoreSnapshot

/-- A map: its name, its version and its state as bytes. -/
def mapBytes (name : Name) (version : ℕ) (state : List UInt8) : List UInt8 :=
  RawWriter.sizePrefixed name ++ (RawWriter.integral version ++ RawWriter.sizePrefixed state)

/-- The maps of one domain. -/
def domainBytes (order : Name → EntryOrder) (domain : SecurityDomain) :
    List (Name × ℕ × State) → Except CodecFault (List UInt8)
  | [] => .ok []
  | (name, version, state) :: maps =>
    if getSecurityDomain name = domain then do
      let bytes ← MapSnapshot.serialize (order name) state
      let rest ← domainBytes order domain maps
      return mapBytes name version bytes ++ rest
    else domainBytes order domain maps

/-- `StoreSnapshot::serialise`; `order` is the order in which the entries of each map are written. -/
def serialise (snapshot : StoreSnapshot) (order : Name → EntryOrder) (encryptor : Option Encryptor) :
    Except CodecFault (List UInt8) := do
  let head := snapshot.hashAtSnapshot.elim [] RawWriter.sizePrefixed ++ snapshot.viewHistory.elim [] RawWriter.versions
  let publicMaps ← domainBytes order .publicDomain snapshot.maps
  if encryptor.isNone && snapshot.maps.any (getSecurityDomain ·.1 = .privateDomain) then throw .serialiser
  let privateMaps ← domainBytes order .privateDomain snapshot.maps
  serialiseDomains encryptor ⟨0, snapshot.version⟩ .snapshot 0 true
    (publicHeader .snapshot snapshot.version [] [] ++ (head ++ publicMaps)) privateMaps

end StoreSnapshot

/-! ### Applying a snapshot -/

structure SnapshotChangeSet where
  state : State
  version : ℕ
deriving DecidableEq

namespace SnapshotChangeSet

/-- `SnapshotHandleCommitter`: the roll starts anew. The writes are only there for the hooks. -/
def committer (c : SnapshotChangeSet) : AbstractCommitter where
  hasWrites := true
  prepare _ := true
  commit m _ _ :=
    { m with roll :=
        { head := ⟨c.version, c.state, if m.globalHook then c.state.map fun _ x => some x.value else ∅⟩
          later := []
          rollbackCounter := m.roll.rollbackCounter + 1 } }

/-- `deserialise_snapshot_changes`. -/
def read : Reader SnapshotChangeSet := do
  let version ← RawReader.integral
  let bytes ← RawReader.sizePrefixed
  match MapSnapshot.deserializeMapSnapshot bytes with
  | .error e => throw e
  | .ok state => return ⟨state, version⟩

end SnapshotChangeSet

/-- The changes of a snapshot; those on new maps have no reference. -/
abbrev SnapshotChanges := ExtTreeMap Name (Option ℕ × SnapshotChangeSet)

namespace SnapshotChanges

def views (f : SnapshotChanges) : Views := f.toList.map fun p => (p.1, p.2.1, p.2.2.committer)

/-- The changes are on the maps of the store. -/
def On (f : SnapshotChanges) (s : Store) : Prop :=
  ∀ (name : Name) (x : Option ℕ × SnapshotChangeSet), f[name]? = some x → x.1 = s.ref? name

variable {f : SnapshotChanges}

theorem mem_views {p : Name × Option ℕ × AbstractCommitter} : p ∈ f.views ↔
    ∃ x : Option ℕ × SnapshotChangeSet, f[p.1]? = some x ∧ p.2 = (x.1, x.2.committer) := by
  rw [views, List.mem_map]
  constructor
  · rintro ⟨q, hq, rfl⟩
    exact ⟨q.2, ExtTreeMap.mem_toList_iff_getElem?_eq_some.1 hq, rfl⟩
  · rintro ⟨x, hx, hp⟩
    exact ⟨(p.1, x), ExtTreeMap.mem_toList_iff_getElem?_eq_some.2 hx, by rw [← hp]⟩

theorem nodup_views : (f.views.map Prod.fst).Nodup := by
  rw [views, List.map_map]
  exact nodup_keys f

theorem On.ref {s : Store} (h : f.On s) : ∀ p ∈ f.views, p.2.1 = s.ref? p.1 := by
  intro p hp
  obtain ⟨x, hx, hpair⟩ := mem_views.1 hp
  rw [hpair]
  exact h p.1 x hx

end SnapshotChanges

/-- Read a vector if it is expected. -/
def Deserialiser.readIf {α : Type} (d : Deserialiser) (expected : Bool) (p : Reader (List α)) :
    Except CodecFault (List α × Deserialiser) :=
  if expected then d.read p else .ok ([], d)

/-- What a store is set up with when it is given a snapshot. -/
structure SnapshotSetup where
  encryptor : Option Encryptor := none
  isHistorical : Bool := false
  publicOnly : Bool := false
  /-- `init_from_snapshot` of the history, if there is one. -/
  initFromSnapshot : Option (List UInt8 → Bool) := none
  /-- Whether the caller asks for the view history. -/
  withViewHistory : Bool := false

namespace SnapshotSetup

def init (w : SnapshotSetup) (data : List UInt8) : Except CodecFault (Option (EntryHead × Deserialiser)) :=
  Deserialiser.init w.encryptor w.publicOnly w.isHistorical data

variable (w : SnapshotSetup)

def refuses (hash : List UInt8) : Bool := w.initFromSnapshot.any fun accept => !accept hash

/-- The hash and the view history that come before the maps, as far as they are expected. -/
def readHead (d : Deserialiser) : Except CodecFault ((List UInt8 × List ℕ) × Deserialiser) := do
  let (hash, d) ← d.readIf w.initFromSnapshot.isSome RawReader.sizePrefixed
  let (viewHistory, d) ← d.readIf w.withViewHistory RawReader.versions
  return ((hash, viewHistory), d)

end SnapshotSetup

namespace Store

variable (s : Store)

def lockMaps : Store := { s with objs := s.onMaps fun m => { m with locked := true } }

def unlockMaps : Store := { s with objs := s.onMaps fun m => { m with locked := false } }

/-- The loop of `deserialise_snapshot`; `none` when a map is named twice. A map is found whatever version it was
created at. Every round reads at least the size of a name, so the size of the readers is fuel enough. -/
def snapshotChanges : ℕ → Deserialiser → SnapshotChanges →
    Except CodecFault (Option (SnapshotChanges × Deserialiser))
  | 0, _, _ => .error .overrun
  | fuel + 1, d, f => do
      match ← d.startMap with
      | none => return some (f, d)
      | some (name, d) =>
        if name ∈ f then return none
        else
          let (c, d) ← d.read SnapshotChangeSet.read
          snapshotChanges fuel d (f.insert name (s.ref? name, c))

/-- Read the snapshot: the hash, the view history, the changes and what is left of the entry. -/
def readSnapshot (w : SnapshotSetup) (d : Deserialiser) :
    Except CodecFault (Option ((List UInt8 × List ℕ) × SnapshotChanges × Deserialiser)) := do
  let (head, d) ← w.readHead d
  let changes ← s.snapshotChanges d.fuel d ∅
  return changes.map (head, ·)

/-- The part of `deserialise_snapshot` after the snapshot has been read. The `false` that says not to track deletes
comes as the last argument of `apply_changes`, which is the expected number of rollbacks. -/
def commitSnapshot (w : SnapshotSetup) (head : EntryHead) (x : List UInt8 × List ℕ) (changes : SnapshotChanges) :
    Except CodecFault (ApplyResult × Option (List ℕ)) × Store :=
  match s.applyChanges changes.views (fun s => (noVersion, s)) false (some 0) with
  | .error e => (.error (.store e), s)
  | .ok (none, s) => (.ok (.fail, none), s)
  | .ok (some _, s) =>
    let s := { s with version := head.version, lastReplicated := head.version }
    if w.refuses x.1 then (.ok (.fail, none), s)
    else (.ok (.pass, if w.withViewHistory then some x.2 else none), s)

/-- `deserialise_snapshot`, with the view history it returns. -/
def deserialiseSnapshot (w : SnapshotSetup) (data : List UInt8) :
    Except CodecFault (ApplyResult × Option (List ℕ)) × Store :=
  match w.init data with
  | .error e => (.error e, s)
  | .ok none => (.ok (.fail, none), s)
  | .ok (some (head, d)) =>
    match s.readSnapshot w d with
    | .error e => (.error e, s.lockMaps)
    | .ok none => (.ok (.fail, none), s.lockMaps)
    | .ok (some (x, changes, d)) =>
      let s := s.lockMaps.unlockMaps
      if !d.atEnd then (.ok (.fail, none), s) else s.commitSnapshot w head x changes

end Store

/-! ### Reading a snapshot to its end -/

variable {data : List UInt8}

namespace Deserialiser

variable {d d' : Deserialiser} {o : Option (Name × Deserialiser)}

/-- The private domain is only read when the public one is at its end. -/
def Ordered (d : Deserialiser) : Prop := d.onPrivate = true → d.publicReader.isEos = true

theorem ordered_read {α : Type} {p : Reader α} {x : α} (h : d.read p = .ok (x, d')) (hd : d.Ordered) : d'.Ordered := by
  obtain ⟨⟨y, c⟩, -, h⟩ := bind_eq_ok h
  cases h
  intro hprivate
  cases hp : d.onPrivate with
  | true => simpa [hp] using hd hp
  | false => simp [hp] at hprivate

theorem ordered_readIf {α : Type} {p : Reader (List α)} {x : List α} {expected : Bool}
    (h : d.readIf expected p = .ok (x, d')) (hd : d.Ordered) : d'.Ordered := by
  unfold readIf at h
  split_ifs at h
  · exact ordered_read h hd
  · cases h
    exact hd

theorem ordered_advance (h : d.advance = some d') (hd : d.Ordered) : d'.Ordered := by
  unfold advance at h
  split_ifs at h with heos hprivate
  · cases h
    intro _
    simpa [current, hprivate.1] using heos
  · cases h
    exact hd

/-- The next map, if there is one, is read behind the current position. -/
theorem startMap_cases (h : d.startMap = .ok o) : (o = none ∧ d.advance = none) ∨
      ∃ name d' d₁, o = some (name, d') ∧ d.advance = some d₁ ∧ d₁.read RawReader.sizePrefixed = .ok (name, d') := by
  unfold startMap at h
  cases hadvance : d.advance with
  | none =>
    rw [hadvance] at h
    exact .inl ⟨(Except.ok.inj h).symm, rfl⟩
  | some d₁ =>
    rw [hadvance] at h
    change some <$> d₁.read RawReader.sizePrefixed = .ok o at h
    cases hread : d₁.read RawReader.sizePrefixed with
    | error e =>
      rw [hread] at h
      cases h
    | ok p =>
      rw [hread] at h
      exact .inr ⟨p.1, p.2, d₁, (Except.ok.inj h).symm, rfl, hread⟩

theorem ordered_startMap {name : Name} (h : d.startMap = .ok (some (name, d'))) (hd : d.Ordered) : d'.Ordered := by
  obtain ⟨hnone, -⟩ | ⟨name', d'', d₁, hsome, hadvance, hread⟩ := startMap_cases h
  · cases hnone
  · cases hsome
    exact ordered_read hread (ordered_advance hadvance hd)

/-- There is nothing behind the last map. -/
theorem atEnd_of_startMap (h : d.startMap = .ok none) (hd : d.Ordered) : d.atEnd = true := by
  obtain ⟨-, hadvance⟩ | ⟨name', d'', d₁, hsome, -⟩ := startMap_cases h
  · unfold advance at hadvance
    split_ifs at hadvance with heos hprivate
    cases hp : d.onPrivate with
    | true => simpa [atEnd, heos] using hd hp
    | false => simpa [atEnd, current, hp] using heos
  · cases hsome

theorem onPrivate_init {encryptor : Option Encryptor} {publicOnly hint : Bool} {head : EntryHead}
    (h : init encryptor publicOnly hint data = .ok (some (head, d))) : d.onPrivate = false := by
  obtain ⟨⟨flags, c⟩, -, h⟩ := bind_eq_ok h
  cases encryptor with
  | none =>
    obtain ⟨⟨head', reader⟩, -, h⟩ := bind_eq_ok h
    cases h
    rfl
  | some e =>
    obtain ⟨⟨⟨gcmHeader, n⟩, c₁⟩, -, h⟩ := bind_eq_ok h
    obtain ⟨⟨head', reader⟩, -, h⟩ := bind_eq_ok h
    split_ifs at h
    · cases h
      rfl
    · obtain ⟨⟨publicDomain, c₂⟩, -, h⟩ := bind_eq_ok h
      cases hdec : e.decrypt c₂.rest publicDomain gcmHeader head'.version hint with
      | none =>
        simp only [hdec] at h
        cases h
      | some plain =>
        simp only [hdec] at h
        cases h
        rfl

end Deserialiser

namespace Store

open SnapshotChanges

variable {s : Store} {d d' : Deserialiser} {f f' : SnapshotChanges}

/-- The snapshot has been read to its end. -/
theorem snapshotChanges_spec {fuel : ℕ} (h : s.snapshotChanges fuel d f = .ok (some (f', d'))) (hd : d.Ordered)
    (hf : f.On s) : d'.atEnd = true ∧ f'.On s := by
  induction fuel generalizing d f with
  | zero => cases h
  | succ fuel ih =>
    obtain ⟨o, hstart, h⟩ := bind_eq_ok h
    cases o with
    | none =>
      cases h
      exact ⟨Deserialiser.atEnd_of_startMap hstart hd, hf⟩
    | some p =>
      simp only at h
      split_ifs at h with hmem
      · cases h
      · obtain ⟨⟨c, d₂⟩, hread, h⟩ := bind_eq_ok h
        refine ih h (Deserialiser.ordered_read hread (Deserialiser.ordered_startMap hstart hd)) fun a x hx => ?_
        simp only [ExtTreeMap.getElem?_insert, Std.compare_eq_iff_eq] at hx
        split_ifs at hx with ha
        · cases hx
          rw [ha]
        · exact hf a x hx

variable {w : SnapshotSetup} {x : List UInt8 × List ℕ}

theorem ordered_readHead (h : w.readHead d = .ok (x, d')) (hd : d.Ordered) : d'.Ordered := by
  obtain ⟨⟨hash, d₁⟩, hhash, h⟩ := bind_eq_ok h
  obtain ⟨⟨viewHistory, d₂⟩, hview, h⟩ := bind_eq_ok h
  cases h
  exact Deserialiser.ordered_readIf hview (Deserialiser.ordered_readIf hhash hd)

theorem readSnapshot_spec (h : s.readSnapshot w d = .ok (some (x, f, d'))) (hd : d.Ordered) :
    d'.atEnd = true ∧ f.On s := by
  obtain ⟨⟨head, d₁⟩, hhead, h⟩ := bind_eq_ok h
  obtain ⟨changes, hchanges, h⟩ := bind_eq_ok h
  cases changes with
  | none => cases h
  | some p =>
    cases h
    exact snapshotChanges_spec hchanges (ordered_readHead hhead hd) fun name x hx => by simp at hx

/-! ### Rejected snapshots -/

/-- No map of the store is locked. -/
def Unlocked (s : Store) : Prop := ∀ r, s.holds r = true → (s.objs r).locked = false

/-- The contents of the maps, the version, the view and the compacted version are the same, and no map is
locked. -/
structure Untouched (s s' : Store) : Prop where
  version : s'.version = s.version
  view : s'.termOfLastVersion = s.termOfLastVersion
  compacted : s'.compacted = s.compacted
  maps : s'.maps = s.maps
  commits : ∀ {name : Name} {c r}, s.maps[name]? = some (c, r) → (s'.objs r).roll.commits = (s.objs r).roll.commits
  unlocked : s'.Unlocked

theorem unlockMaps_lockMaps (hs : s.Unlocked) : s.lockMaps.unlockMaps = s := by
  have hobjs : s.lockMaps.unlockMaps.objs = s.objs := by
    funext r
    show (if s.holds r then _ else _) = _
    by_cases hr : s.holds r = true
    · simp only [lockMaps, onMaps, if_pos hr]
      rw [← hs r hr]
    · simp only [lockMaps, onMaps, if_neg hr]
  calc s.lockMaps.unlockMaps = { s with objs := s.lockMaps.unlockMaps.objs } := rfl
    _ = s := by rw [hobjs]

/-- The snapshot is read and decrypted to its end. -/
def WellFormed (s : Store) (w : SnapshotSetup) (data : List UInt8) : Prop :=
  ∃ head d x f d', w.init data = .ok (some (head, d)) ∧ s.readSnapshot w d = .ok (some (x, f, d'))

/-- A store that has been rolled back applies the snapshots without maps. -/
theorem applyChanges_snapshot (hcount : s.rollbackCount = 0 ∨ f = ∅) (hf : f.On s) :
    ∃ u s', s.applyChanges f.views (fun s => (noVersion, s)) false (some 0) = .ok (some u, s') := by
  obtain hcount | rfl := hcount
  · refine applyChanges_ok nodup_views hf.ref (fun p hp => ?_) _ _ _ (by simp [hcount])
    obtain ⟨x, -, hpair⟩ := mem_views.1 hp
    rw [hpair]
    rfl
  · exact ⟨noVersion, s, by simp [applyChanges, SnapshotChanges.views]⟩

theorem applyChanges_rolledBack (hcount : s.rollbackCount ≠ 0) (hf : f ≠ ∅) :
    s.applyChanges f.views (fun s => (noVersion, s)) false (some 0) = .ok (none, s) := by
  have hviews : f.views.isEmpty = false := by
    simpa [SnapshotChanges.views, ← ExtTreeMap.isEmpty_toList] using hf
  simp [applyChanges, hviews, hcount.symm]

variable {head : EntryHead}

theorem deserialiseSnapshot_of_read (hs : s.Unlocked) (hinit : w.init data = .ok (some (head, d)))
    (hread : s.readSnapshot w d = .ok (some (x, f, d'))) :
    s.deserialiseSnapshot w data = s.commitSnapshot w head x f ∧ f.On s := by
  have hordered : d.Ordered := fun hp => by
    rw [Deserialiser.onPrivate_init hinit] at hp
    cases hp
  obtain ⟨hend, hrefs⟩ := readSnapshot_spec hread hordered
  refine ⟨?_, hrefs⟩
  simp only [deserialiseSnapshot, hinit, hread, unlockMaps_lockMaps hs, hend, Bool.not_true, Bool.false_eq_true,
    if_false]

theorem untouched_lockMaps : s.Untouched s.lockMaps ↔ ∀ r, s.holds r = false := by
  have hobjs : ∀ r, s.lockMaps.objs r = if s.holds r then { s.objs r with locked := true } else s.objs r := fun r => rfl
  constructor
  · intro hu r
    by_contra hr
    have hr : s.holds r = true := by simpa using hr
    have hfree := hu.unlocked r hr
    rw [hobjs, if_pos hr] at hfree
    cases hfree
  · intro hnone
    refine ⟨rfl, rfl, rfl, rfl, fun _ => by rw [hobjs, hnone]; rfl, fun r hr => ?_⟩
    cases (hnone r).symm.trans hr

/-- What the changes of a snapshot do: the maps that they name have these commits only, and are created if they are
not there. -/
structure Applied (s s' : Store) (f : SnapshotChanges) : Prop where
  bookkeeping : s'.toBookkeeping = s.toBookkeeping
  sound : s'.Sound
  kept : ∀ {name : Name} {c r}, s.maps[name]? = some (c, r) → s'.maps[name]? = some (c, r) ∧
    s'.objs r = f[name]?.elim (s.objs r) fun x => x.2.committer.commit (s.objs r) noVersion false
  absent : ∀ {name : Name}, s.maps[name]? = none → f[name]? = none → s'.maps[name]? = none
  created : ∀ {name : Name} {x : Option ℕ × SnapshotChangeSet}, s.maps[name]? = none → f[name]? = some x → ∃ r m,
    s'.maps[name]? = some (noVersion, r) ∧ s'.objs r = x.2.committer.commit m noVersion false

theorem applied_of_ok (hs : s.Sound) (hf : f.On s) {u : ℕ} {s' : Store}
    (h : s.applyChanges f.views (fun s => (noVersion, s)) false (some 0) = .ok (some u, s')) : s.Applied s' f := by
  have hmem : ∀ {name : Name} {x : Option ℕ × SnapshotChangeSet}, f[name]? = some x →
      (name, x.1, x.2.committer) ∈ f.views := fun hx => mem_views.2 ⟨_, hx, rfl⟩
  obtain ⟨-, ⟨-, rfl, hnone⟩ | ⟨-, -, s₁, hadd, -, rfl⟩⟩ := applyChanges_cases h
  · -- there is no view, since those of a snapshot always write
    have hempty : ∀ name : Name, f[name]? = none := fun name => by
      cases hx : f[name]? with
      | none => rfl
      | some x => cases hnone _ (hmem hx)
    refine ⟨rfl, hs, fun hname => ⟨hname, by rw [hempty]; rfl⟩, fun hname _ => hname, fun _ hx => ?_⟩
    cases (hempty _).symm.trans hx
  · have ha := added_of_ok hs nodup_views hadd
    have hview : ∀ p ∈ f.views, f[p.1]? ≠ none := fun p hp => by
      obtain ⟨x, hx, -⟩ := mem_views.1 hp
      simp [hx]
    obtain ⟨hobjs, hother⟩ := objs_foldl_commitView noVersion false ha.sound nodup_views (ha.or_ref hf.ref)
    rw [foldl_commitView_eq]
    refine ⟨ha.bookkeeping, ⟨ha.sound.lt, ha.sound.inj⟩, fun {name c r} hname => ⟨ha.kept hf.ref hname, ?_⟩,
      fun {name} hname hx => ?_, fun {name x} hname hx => ?_⟩
    · show (f.views.foldl _ s₁).objs r = _
      rw [← ha.objs r (hs.lt hname)]
      cases hx : f[name]? with
      | some x => exact hobjs _ (hmem hx) r (ref?_eq_some.2 ⟨c, ha.kept hf.ref hname⟩)
      | none =>
        refine hother r fun p hp hr => hview p hp ?_
        obtain ⟨c', hc'⟩ := ref?_eq_some.1 hr
        rw [ha.sound.inj hc' (ha.kept hf.ref hname), hx]
    · show s₁.maps[name]? = none
      rw [ha.old name fun ⟨m, hm, _⟩ => hview _ hm hx, hname]
    · have hnew := hmem hx
      rw [hf name x hx, ref?_eq_none.2 hname] at hnew
      obtain ⟨r, -, hmap, -⟩ := ha.new name ⟨_, hnew, rfl⟩
      exact ⟨r, _, hmap, hobjs _ hnew r (ref?_eq_some.2 ⟨_, hmap⟩)⟩

/-- The store has the maps of the snapshot, each with the commit of the snapshot and no other. -/
def Has (s : Store) (f : SnapshotChanges) : Prop :=
  ∀ (name : Name) (x : Option ℕ × SnapshotChangeSet), f[name]? = some x → ∃ c r, s.maps[name]? = some (c, r) ∧
    (x.2.committer.commit (s.objs r) noVersion false).roll.commits = (s.objs r).roll.commits

theorem Applied.untouched_iff {s' : Store} (k : s.Applied s' f) (hs : s.Unlocked) (v : ℕ) :
    s.Untouched { s' with version := v, lastReplicated := v } ↔ v = s.version ∧ s.Has f := by
  constructor
  · intro hu
    refine ⟨hu.version, fun name x hx => ?_⟩
    have hmaps : s'.maps = s.maps := hu.maps
    cases hname : s.maps[name]? with
    | none =>
      obtain ⟨r, m, hr, -⟩ := k.created hname hx
      rw [hmaps, hname] at hr
      cases hr
    | some p =>
      have hcommits : (s'.objs p.2).roll.commits = _ := hu.commits hname
      rw [(k.kept hname).2, hx] at hcommits
      exact ⟨p.1, p.2, rfl, hcommits⟩
  · rintro ⟨rfl, hhas⟩
    have hmaps : s'.maps = s.maps := ExtTreeMap.ext_getElem? fun {name} => by
      cases hname : s.maps[name]? with
      | some p => exact (k.kept hname).1
      | none =>
        cases hx : f[name]? with
        | none => exact k.absent hname hx
        | some x =>
          obtain ⟨c, r, hr, -⟩ := hhas name x hx
          cases hname.symm.trans hr
    have hview : s'.termOfLastVersion = _ := congrArg Bookkeeping.termOfLastVersion k.bookkeeping
    have hcompacted : s'.compacted = _ := congrArg Bookkeeping.compacted k.bookkeeping
    refine ⟨rfl, hview, hcompacted, hmaps, fun {name c r} hname => ?_, fun r hr => ?_⟩
    · show (s'.objs r).roll.commits = _
      rw [(k.kept hname).2]
      cases hx : f[name]? with
      | none => rfl
      | some x =>
        obtain ⟨c', r', hr, hcommits⟩ := hhas name x hx
        cases hname.symm.trans hr
        exact hcommits
    · obtain ⟨name, c, hname⟩ := holds_iff.1 hr
      have hname : s.maps[name]? = some (c, r) := hmaps ▸ hname
      have hfree := hs r (holds_iff.2 ⟨name, c, hname⟩)
      show (s'.objs r).locked = false
      rw [(k.kept hname).2]
      cases f[name]? <;> exact hfree

/-- A failure leaves no trace: a map is named twice only where there is no map to be locked, and the history refuses
a snapshot that can be applied only if the store has its version and its maps already. -/
def NoTrace (s : Store) (w : SnapshotSetup) (data : List UInt8) : Prop :=
  ∀ head d, w.init data = .ok (some (head, d)) →
    (s.readSnapshot w d = .ok none → ∀ r, s.holds r = false) ∧
    ∀ x f d', s.readSnapshot w d = .ok (some (x, f, d')) → s.rollbackCount = 0 ∨ f = ∅ → w.refuses x.1 = true →
      head.version = s.version ∧ s.Has f

/-- What fails after the snapshot has been read. -/
theorem commitSnapshot_fail {s' : Store} {out : Option (List ℕ)}
    (h : s.commitSnapshot w head x f = (.ok (.fail, out), s')) :
    s.applyChanges f.views (fun s => (noVersion, s)) false (some 0) = .ok (none, s) ∧ s' = s ∨
    ∃ u s₁, s.applyChanges f.views (fun s => (noVersion, s)) false (some 0) = .ok (some u, s₁) ∧
      w.refuses x.1 = true ∧ s' = { s₁ with version := head.version, lastReplicated := head.version } := by
  unfold commitSnapshot at h
  match happly : s.applyChanges f.views (fun s => (noVersion, s)) false (some 0), h with
  | .error e, h => cases h
  | .ok (none, s₁), h =>
    obtain rfl : s₁ = s' := congrArg Prod.snd h
    obtain rfl := applyChanges_conflict happly
    exact .inl ⟨rfl, rfl⟩
  | .ok (some u, s₁), h =>
    cases hrefuses : w.refuses x.1 with
    | true =>
      simp only [hrefuses, if_true] at h
      exact .inr ⟨u, s₁, rfl, rfl, (congrArg Prod.snd h).symm⟩
    | false => simp [hrefuses] at h

theorem untouched_iff_noTrace (hs : s.Unlocked) (hsound : s.Sound) {out : Option (List ℕ)} {s' : Store}
    (h : s.deserialiseSnapshot w data = (.ok (.fail, out), s')) : s.Untouched s' ↔ s.NoTrace w data := by
  have hsame : s.Untouched s := ⟨rfl, rfl, rfl, rfl, fun _ => rfl, hs⟩
  cases hinit : w.init data with
  | error e => simp [deserialiseSnapshot, hinit] at h
  | ok o =>
    cases o with
    | none =>
      obtain rfl : s = s' := by simpa [deserialiseSnapshot, hinit] using congrArg Prod.snd h
      exact iff_of_true hsame fun head d hok => by cases hinit.symm.trans hok
    | some p =>
      obtain ⟨head, d⟩ := p
      have hiff : s.NoTrace w data ↔ _ := ⟨fun hn => hn head d hinit, fun hn head' d₁ hok => by
        cases hinit.symm.trans hok
        exact hn⟩
      rw [hiff]
      cases hread : s.readSnapshot w d with
      | error e => simp [deserialiseSnapshot, hinit, hread] at h
      | ok o =>
        cases o with
        | none =>
          obtain rfl : s.lockMaps = s' := by simpa [deserialiseSnapshot, hinit, hread] using congrArg Prod.snd h
          rw [untouched_lockMaps]
          exact ⟨fun hnone => ⟨fun _ => hnone, nofun⟩, fun hn => hn.1 rfl⟩
        | some q =>
          obtain ⟨x, f, d'⟩ := q
          obtain ⟨heq, hrefs⟩ := deserialiseSnapshot_of_read hs hinit hread
          rw [heq] at h
          obtain ⟨happly, rfl⟩ | ⟨u, s₁, happly, hrefuses, rfl⟩ := commitSnapshot_fail h
          · refine iff_of_true hsame ⟨nofun, fun x' f' d₁ hx hcount _ => ?_⟩
            cases hx
            obtain ⟨u, s', hok⟩ := applyChanges_snapshot hcount hrefs
            cases happly.symm.trans hok
          · rw [(applied_of_ok hsound hrefs happly).untouched_iff hs]
            refine ⟨fun hu => ⟨nofun, fun x' f' d₁ hx _ _ => by cases hx; exact hu⟩,
              fun hn => hn.2 x f d' rfl ?_ hrefuses⟩
            by_contra hcount
            rw [not_or] at hcount
            cases (applyChanges_rolledBack hcount.1 hcount.2).symm.trans happly

/-- **Applying a snapshot is atomic** if and only if a failure can leave no trace; and a well-formed snapshot that
the history accepts is applied if and only if the store has not been rolled back or the snapshot has no map. -/
theorem deserialiseSnapshot_atomic {s : Store} {w : SnapshotSetup} {data : List UInt8} (hs : s.Unlocked) :
    (s.Sound → ∀ out s', s.deserialiseSnapshot w data = (.ok (.fail, out), s') →
      (s.Untouched s' ↔ s.NoTrace w data)) ∧
    ∀ head d x f d', w.init data = .ok (some (head, d)) → s.readSnapshot w d = .ok (some (x, f, d')) →
      ((∃ out, (s.deserialiseSnapshot w data).1 = .ok (.pass, out)) ↔
        (s.rollbackCount = 0 ∨ f = ∅) ∧ w.refuses x.1 = false) := by
  refine ⟨fun hsound out s' => untouched_iff_noTrace hs hsound, ?_⟩
  intro head d x f d' hinit hread
  obtain ⟨heq, hrefs⟩ := deserialiseSnapshot_of_read hs hinit hread
  rw [heq]
  by_cases hcount : s.rollbackCount = 0 ∨ f = ∅
  · obtain ⟨u, s', happly⟩ := applyChanges_snapshot hcount hrefs
    cases hrefuses : w.refuses x.1 <;> simp [commitSnapshot, happly, hrefuses, hcount]
  · rw [not_or] at hcount
    simp [commitSnapshot, applyChanges_rolledBack hcount.1 hcount.2, hcount]

/-- A snapshot of the maps `names`, all with one key. -/
def snapshotOf (names : List Name) : List UInt8 :=
  let snapshot : StoreSnapshot := { version := 1, maps := names.map (·, 1, (∅ : State).insert [7] ⟨1, [70]⟩) }
  ((snapshot.serialise (fun _ => EntryOrder.ofKeys) (some Encryptor.plain)).toOption).getD []

def plainSnapshots : SnapshotSetup := { encryptor := some Encryptor.plain }

theorem wellFormed_of_any
    (h : ((w.init data).toOption.join.any fun p => (s.readSnapshot w p.2).toOption.join.isSome) = true) :
    s.WellFormed w data := by
  obtain ⟨⟨head, d⟩, hsome, hread⟩ := (Option.any_eq_true _ _).1 h
  match hinit : w.init data, hsome with
  | .ok (some p), hsome =>
    cases hsome
    match hx : s.readSnapshot w d, hread with
    | .ok (some (x, f, d')), _ => exact ⟨head, d, x, f, d', hinit, hx⟩

theorem deserialiseSnapshot_atomic_empty :
    ∃ out, (({} : Store).deserialiseSnapshot plainSnapshots (snapshotOf [[1], [2]])).1 = .ok (.pass, out) := by
  have hwell : ({} : Store).WellFormed plainSnapshots (snapshotOf [[1], [2]]) := wellFormed_of_any (by decide +kernel)
  obtain ⟨head, d, x, f, d', hinit, hread⟩ := hwell
  exact ((deserialiseSnapshot_atomic (fun r hr => by simp [holds] at hr)).2 head d x f d' hinit hread).2 ⟨.inl rfl, rfl⟩

/-- A store that had one version and was rolled back. -/
def rolledBackOnce : Store :=
  (exec System.step (System.init 2 fun _ => false)
    [.openMap 1 [1], .op 1 [1] (.put [7] [70]), .commit 1, .rollback ⟨0, 0⟩ 3]).store

/-- A snapshot that names a map twice leaves the maps locked, and a snapshot is refused by a store only because
it has been rolled back. -/
theorem not_deserialiseSnapshot_atomic :
    (¬∀ (s s' : Store) (w : SnapshotSetup) (data : List UInt8) (out : Option (List ℕ)), s.Unlocked →
      s.deserialiseSnapshot w data = (.ok (.fail, out), s') → s.Untouched s') ∧
    ¬∀ (s : Store) (n : ℕ) (w : SnapshotSetup) (data : List UInt8), s.Unlocked → s.WellFormed w data →
      ((s.deserialiseSnapshot w data).1 = .ok (.pass, none) ↔
        ({ s with rollbackCount := n }.deserialiseSnapshot w data).1 = .ok (.pass, none)) := by
  constructor
  · intro h
    have hunlocked : written.Unlocked := by
      have hmaps : written.maps.toList = [([1], 1, 0)] := by decide +kernel
      intro r hr
      rw [holds, hmaps] at hr
      obtain rfl : 0 = r := by simpa using hr
      decide +kernel
    have hfail : (written.deserialiseSnapshot plainSnapshots (snapshotOf [[1], [1]])).1 = .ok (.fail, none) := by
      decide +kernel
    have hholds : (written.deserialiseSnapshot plainSnapshots (snapshotOf [[1], [1]])).2.holds 0 = true := by
      decide +kernel
    have hlocked : ((written.deserialiseSnapshot plainSnapshots (snapshotOf [[1], [1]])).2.objs 0).locked = true := by
      decide +kernel
    generalize heq : written.deserialiseSnapshot plainSnapshots (snapshotOf [[1], [1]]) = p at hfail hholds hlocked
    obtain ⟨res, s'⟩ := p
    obtain rfl : res = .ok (.fail, none) := hfail
    have hfree : (s'.objs 0).locked = false := (h written s' _ _ none hunlocked heq).unlocked 0 hholds
    rw [hfree] at hlocked
    cases hlocked
  · intro h
    have hunlocked : rolledBackOnce.Unlocked := by
      have hmaps : rolledBackOnce.maps.toList = [] := by decide +kernel
      intro r hr
      rw [holds, hmaps] at hr
      cases hr
    have hiff := h rolledBackOnce 0 plainSnapshots (snapshotOf [[1]]) hunlocked (wellFormed_of_any (by decide +kernel))
    have hfail : (rolledBackOnce.deserialiseSnapshot plainSnapshots (snapshotOf [[1]])).1 ≠ .ok (.pass, none) := by
      decide +kernel
    exact hfail (hiff.2 (by decide +kernel))

end Store
end Ccf.Kv
