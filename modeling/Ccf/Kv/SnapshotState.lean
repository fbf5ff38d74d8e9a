import Ccf.Kv.Backup
import Ccf.Kv.Snapshot

/-! # A snapshot is the state of the store

That the snapshot of a store is its state (`snapshot_is_state`) needs every entry to fit in the 32 bits on which its
size is computed: no snapshot of a store with a longer entry can be serialised (`not_snapshot_is_state`). -/

namespace Ccf.Kv

open RawWriter StoreSnapshot List Versioned Runs Store MapSnapshot
open Std (ExtTreeMap)

/-- The state of the map `name` that is read at version `v`. -/
def Store.stateAt (s : Store) (v : ℕ) (name : Name) : Option State :=
  ((s.obj (s.getMap v name)).roll.createChangeSet v false).map ChangeSet.state

/-! ### What the snapshot holds -/

variable {s : Store} {h : WriteHistory} {v r c : ℕ} {order : Name → EntryOrder} {maps : List (Name × ℕ × State)}

namespace Store

/-- The tables of the history from the compacted version on are what is read. -/
theorem Refines.stateAt_eq (k : s.Refines h) (hbase : h.base ≤ v) (hc : s.compacted ≤ v) (hv : v ≤ s.version)
    (name : Name) : s.stateAt v name = some (h.tableAt v name) := by
  have hversion : v ≤ h.version := k.version ▸ hv
  unfold stateAt
  cases hmap : s.getMap v name with
  | none =>
    have hempty : h.tableAt v name = ∅ := by
      cases hs : s.maps[name]? with
      | none => exact k.absent hs v hbase hversion
      | some p =>
        refine k.before (c := p.1) (r := p.2) hs v hbase ?_
        by_contra hle
        simp [getMap, hs, not_lt.1 hle] at hmap
    rw [hempty]
    rfl
  | some r =>
    obtain ⟨c, hname, -⟩ := getMap_eq_some hmap
    have hkeeps := k.keeps hname
    have hcontent := hkeeps.content v hbase (hkeeps.head_le.trans (max_le hc hbase)) hversion
    rw [Roll.createChangeSet, Option.map_map]
    exact hcontent

/-- The snapshot of a map has its table at `v`, and a version that is not after `v`. -/
theorem Refines.snapshot_eq (k : s.Refines h) (hbase : h.base ≤ v) (hc : s.compacted ≤ v) (hv : v ≤ s.version)
    {name : Name} (hname : s.maps[name]? = some (c, r)) :
    ((s.objs r).snapshot v).1 ≤ v ∧ ((s.objs r).snapshot v).2 = h.tableAt v name := by
  have hkeeps := k.keeps hname
  have hcontent := hkeeps.content v hbase (hkeeps.head_le.trans (max_le hc hbase)) (k.version ▸ hv)
  obtain ⟨e, hfind, hstate⟩ := Option.map_eq_some_iff.1 hcontent
  have hle : e.version ≤ v := by simpa using find?_some hfind
  rw [Map.snapshot, hfind, Option.getD_some]
  exact ⟨hle, hstate⟩

end Store

/-! ### Writing and reading the maps -/

variable {m : Name × ℕ × State}

namespace StoreSnapshot

/-- The bytes of a map behind its name. -/
def body (order : Name → EntryOrder) (m : Name × ℕ × State) : List UInt8 :=
  integral m.2.1 ++ sizePrefixed (((order m.1).1 m.2.2).flatMap entryBytes)

/-- The maps of a domain. -/
def inDomain (domain : SecurityDomain) (maps : List (Name × ℕ × State)) : List (Name × ℕ × State) :=
  maps.filter fun m => getSecurityDomain m.1 = domain

theorem domainBytes_eq (order : Name → EntryOrder) (h : ∀ m ∈ maps, ∀ p ∈ m.2.2.toList, MapSnapshot.Fits p)
    (domain : SecurityDomain) : domainBytes order domain maps =
      .ok ((inDomain domain maps).flatMap fun m => sizePrefixed m.1 ++ body order m) := by
  induction maps with
  | nil => rfl
  | cons m maps ih =>
    obtain ⟨name, version, state⟩ := m
    have ih := ih fun m hm => h m (mem_cons_of_mem _ hm)
    have hstate := serialize_eq (order name) (h _ mem_cons_self)
    rw [domainBytes, inDomain, filter_cons]
    by_cases hdomain : getSecurityDomain name = domain
    · rw [if_pos hdomain, if_pos (by simpa using hdomain), hstate, ih]
      rfl
    · rw [if_neg hdomain, if_neg (by simpa using hdomain), ih]
      rfl

theorem parses_read (hfits : ∀ p ∈ m.2.2.toList, MapSnapshot.Fits p)
    (hversions : ∀ p ∈ m.2.2.toList, p.2.version < 2 ^ 63) (hversion : m.2.1 < 2 ^ 64)
    (hlen : (body order m).length < 2 ^ 64) :
    Parses SnapshotChangeSet.read (body order m) ⟨m.2.2, m.2.1⟩ := by
  rw [body, length_append, length_sizePrefixed] at hlen
  refine (parses_integral hversion).bind ?_
  rw [← append_nil (sizePrefixed _)]
  refine (parses_sizePrefixed (by omega)).bind ?_
  rw [deserializeMapSnapshot_serialize _ hfits hversions]
  exact parses_pure _

end StoreSnapshot

variable {d : Deserialiser} {pub priv : List UInt8}

namespace Store

/-- The changes of the maps of a snapshot. -/
def changesOf (s : Store) (maps : List (Name × ℕ × State)) (f : SnapshotChanges) : SnapshotChanges :=
  (maps.map fun m => (m.1, s.ref? m.1, (⟨m.2.2, m.2.1⟩ : SnapshotChangeSet))).foldl (fun f p => f.insert p.1 p.2) f

variable {f : SnapshotChanges} {t : Store}

/-- The loop over the maps of a snapshot. -/
theorem snapshotChanges_eq {fuel : ℕ}
    (hparse : ∀ m ∈ maps, m.1.length < 2 ^ 64 ∧
      Parses SnapshotChangeSet.read (body order m) ⟨m.2.2, m.2.1⟩)
    (h : d.LeftMaps Prod.fst (body order) maps) (hfuel : maps.length < fuel)
    (hnodup : (maps.map Prod.fst).Nodup) (hf : ∀ m ∈ maps, m.1 ∉ f) :
    ∃ d', s.snapshotChanges fuel d f = .ok (some (s.changesOf maps f, d')) := by
  induction maps generalizing fuel d f with
  | nil =>
    obtain ⟨fuel, rfl⟩ : ∃ n, fuel = n + 1 := ⟨fuel - 1, by omega⟩
    refine ⟨d, ?_⟩
    rw [snapshotChanges, h.nil.1]
    rfl
  | cons m maps ih =>
    obtain ⟨fuel, rfl⟩ : ∃ n, fuel = n + 1 := ⟨fuel - 1, by omega⟩
    obtain ⟨hname, hread⟩ := hparse m mem_cons_self
    obtain ⟨d₁, d₂, hstart, hread, h₂⟩ := h.cons hname hread
    rw [map_cons, nodup_cons] at hnodup
    obtain ⟨d', hrest⟩ : ∃ d', s.snapshotChanges fuel d₂ (f.insert m.1 (s.ref? m.1, ⟨m.2.2, m.2.1⟩)) =
        .ok (some (s.changesOf maps (f.insert m.1 (s.ref? m.1, ⟨m.2.2, m.2.1⟩)), d')) := by
      refine ih (fun a ha => hparse a (mem_cons_of_mem _ ha)) h₂ (by simpa using hfuel) hnodup.2 fun a ha => ?_
      rw [ExtTreeMap.mem_insert, not_or, Std.compare_eq_iff_eq]
      exact ⟨fun heq => hnodup.1 (heq ▸ mem_map_of_mem ha), hf a (mem_cons_of_mem _ ha)⟩
    refine ⟨d', ?_⟩
    rw [snapshotChanges, hstart]
    show (if m.1 ∈ f then _ else _) = _
    rw [if_neg (hf m mem_cons_self), hread]
    exact hrest

/-- The changes of a snapshot with every map named once. -/
theorem getElem?_changesOf (s : Store) (hnodup : (maps.map Prod.fst).Nodup) (name : Name) :
    (∀ m ∈ maps, m.1 = name → (s.changesOf maps ∅)[name]? = some (s.ref? name, ⟨m.2.2, m.2.1⟩)) ∧
      (name ∉ maps.map Prod.fst → (s.changesOf maps ∅)[name]? = none) := by
  have hkeys : ((maps.map fun m => (m.1, s.ref? m.1, (⟨m.2.2, m.2.1⟩ : SnapshotChangeSet))).map Prod.fst) =
      maps.map Prod.fst := by
    rw [map_map]
    rfl
  obtain ⟨hin, hout⟩ := getElem?_foldl_insert (hkeys ▸ hnodup) (∅ : SnapshotChanges) name
  constructor
  · rintro m hm rfl
    exact hin _ (mem_map.2 ⟨m, hm, rfl⟩)
  · intro hname
    rw [changesOf, hout (hkeys ▸ hname), ExtTreeMap.getElem?_empty]

/-! ### Applying the changes to an empty store -/

/-- A store with the tables of a history at version `v`, each as the only commit of its map. -/
theorem refines_resume (hb : h.base ≤ v) (hw : v ≤ h.version)
    (hversion : t.version = v) (hcompacted : t.compacted = 0) (hsound : t.Sound)
    (habsent : ∀ name : Name, t.maps[name]? = none → h.tableAt v name = ∅)
    (hmaps : ∀ (name : Name) (c r : ℕ), t.maps[name]? = some (c, r) → c = noVersion ∧
      (t.objs r).roll.head.version ≤ v ∧ (t.objs r).roll.head.state = h.tableAt v name ∧
      (t.objs r).roll.later = []) : t.Refines (h.resume hb hw) where
  version := hversion.symm
  compacted_le := by rw [hcompacted]; exact Nat.zero_le _
  absent hname u hu hle := by
    obtain rfl : u = v := le_antisymm hle hu
    rw [h.at_resume, habsent _ hname]
  created_le hname := by
    rw [(hmaps _ _ _ hname).1]
    exact Nat.zero_le _
  before hname u _ hlt := by
    rw [(hmaps _ _ _ hname).1] at hlt
    cases hlt
  keeps {name c r} hname := by
    obtain ⟨-, hle, hstate, hlater⟩ := hmaps name c r hname
    have hfloor : max t.compacted (h.resume hb hw).base = v := by
      rw [hcompacted]
      exact max_eq_right (Nat.zero_le _)
    rw [hfloor]
    refine ⟨le_rfl, le_rfl, hle, by simp [hlater], by simp [hlater], fun u hu _ hle' => ?_⟩
    obtain rfl : u = v := le_antisymm hle' hu
    rw [h.at_resume, ← hstate]
    simp [Roll.stateAt, Roll.find?, Roll.commits, hlater, hle]
  sound := hsound

end Store

/-! ### Reading the head of a snapshot -/

theorem Deserialiser.Left.readIf {α : Type} {p : Reader (List α)} {x : List α} {bytes : List UInt8}
    (expected : Bool) (hp : Parses p bytes x)
    (h : d.Left ((if expected then bytes else []) ++ pub) priv) (hdomain : d.onPrivate = false) :
    ∃ d', d.readIf expected p = .ok (if expected then x else [], d') ∧ d'.onPrivate = false ∧ d'.Left pub priv := by
  cases expected with
  | false => exact ⟨d, rfl, hdomain, h⟩
  | true => exact h.read_public hp hdomain

/-- The store that receives a snapshot expects what the source has: a hash if it has a history, which is
accepted, and a view history if it has a consensus. -/
structure SnapshotSetup.Receives (w : SnapshotSetup) (e : Encryptor) (getRawLeaf : Option (ℕ → List UInt8))
    (getViewHistory : Option (ℕ → List ℕ)) (v : ℕ) : Prop where
  encryptor : w.encryptor = some e
  publicOnly : w.publicOnly = false
  history : w.initFromSnapshot.isSome = getRawLeaf.isSome
  accepts : ∀ accept ∈ w.initFromSnapshot, ∀ leaf ∈ getRawLeaf, accept (leaf v) = true
  viewHistory : w.withViewHistory = getViewHistory.isSome
  versions : ∀ views ∈ getViewHistory, ∀ x ∈ views v, x < 2 ^ 64

variable {w : SnapshotSetup} {e : Encryptor} {getRawLeaf : Option (ℕ → List UInt8)}
  {getViewHistory : Option (ℕ → List ℕ)} {data : List UInt8}

namespace SnapshotSetup

/-- The bytes of the hash and of the view history. -/
def headBytes (getRawLeaf : Option (ℕ → List UInt8)) (getViewHistory : Option (ℕ → List ℕ)) (v : ℕ) : List UInt8 :=
  (getRawLeaf.map (· v)).elim [] sizePrefixed ++ (getViewHistory.map (· v)).elim [] versions

theorem Receives.readHead (hw : w.Receives e getRawLeaf getViewHistory v)
    (hlen : (headBytes getRawLeaf getViewHistory v).length < 2 ^ 64)
    (h : d.Left (headBytes getRawLeaf getViewHistory v ++ pub) priv) (hdomain : d.onPrivate = false) :
    ∃ hash viewHistory d', w.readHead d = .ok ((hash, viewHistory), d') ∧ d'.Left pub priv ∧
      ∀ accept ∈ w.initFromSnapshot, accept hash = true := by
  have hhash : ∃ bytes hash, Parses RawReader.sizePrefixed bytes hash ∧
      (getRawLeaf.map (· v)).elim [] sizePrefixed = (if w.initFromSnapshot.isSome then bytes else []) ∧
      ∀ accept ∈ w.initFromSnapshot, accept (if w.initFromSnapshot.isSome then hash else []) = true := by
    cases hleaf : getRawLeaf with
    | none =>
      have hnone : w.initFromSnapshot = none := by
        have := hw.history
        rw [hleaf] at this
        simpa using this
      refine ⟨sizePrefixed [], [], parses_sizePrefixed (by simp), ?_, ?_⟩
      · simp [hnone]
      · intro accept haccept
        rw [hnone] at haccept
        cases haccept
    | some leaf =>
      have hsome : w.initFromSnapshot.isSome = true := hw.history.trans (by rw [hleaf]; rfl)
      rw [headBytes, hleaf, length_append] at hlen
      simp only [Option.map_some, Option.elim_some, length_sizePrefixed] at hlen
      refine ⟨sizePrefixed (leaf v), leaf v, parses_sizePrefixed (by omega), ?_, ?_⟩
      · rw [hsome]
        rfl
      · intro accept haccept
        rw [hsome]
        exact hw.accepts accept haccept leaf hleaf
  have hviews : ∃ bytes views, Parses RawReader.versions bytes views ∧
      (getViewHistory.map (· v)).elim [] RawWriter.versions = if w.withViewHistory then bytes else [] := by
    cases hview : getViewHistory with
    | none =>
      refine ⟨RawWriter.versions [], [], parses_versions (by simp) (by simp), ?_⟩
      rw [hw.viewHistory, hview]
      rfl
    | some views =>
      rw [headBytes, hview, length_append] at hlen
      simp only [Option.map_some, Option.elim_some, RawWriter.versions, length_append,
        length_flatMap_leBytes] at hlen
      refine ⟨RawWriter.versions (views v), views v, parses_versions (hw.versions views hview) (by omega), ?_⟩
      rw [hw.viewHistory, hview]
      rfl
  obtain ⟨bytes, hash, hparse, hbytes, haccept⟩ := hhash
  obtain ⟨bytes', views, hparse', hbytes'⟩ := hviews
  rw [headBytes, hbytes, hbytes', append_assoc] at h
  obtain ⟨d₁, hread₁, hdomain₁, h₁⟩ := h.readIf _ hparse hdomain
  obtain ⟨d₂, hread₂, -, h₂⟩ := h₁.readIf _ hparse' hdomain₁
  refine ⟨_, if w.withViewHistory then views else [], d₂, ?_, h₂, haccept⟩
  rw [SnapshotSetup.readHead, hread₁]
  show (d₁.readIf w.withViewHistory RawReader.versions >>= _) = _
  rw [hread₂]
  rfl

end SnapshotSetup

/-! ### Restoring a snapshot -/

/-- The maps of the store with their snapshots at `v`. -/
def Store.mapsAt (s : Store) (v : ℕ) : List (Name × ℕ × State) :=
  s.maps.toList.map fun p => (p.1, (s.objs p.2.2).snapshot v)

theorem Store.nodup_mapsAt (s : Store) (v : ℕ) : ((s.mapsAt v).map Prod.fst).Nodup := by
  rw [mapsAt, map_map]
  exact nodup_keys s.maps

theorem Store.mem_mapsAt : m ∈ s.mapsAt v ↔ ∃ c r, s.maps[m.1]? = some (c, r) ∧ m.2 = (s.objs r).snapshot v := by
  rw [mapsAt, mem_map]
  constructor
  · rintro ⟨p, hp, rfl⟩
    exact ⟨p.2.1, p.2.2, ExtTreeMap.mem_toList_iff_getElem?_eq_some.1 hp, rfl⟩
  · rintro ⟨c, r, hm, heq⟩
    exact ⟨(m.1, c, r), ExtTreeMap.mem_toList_iff_getElem?_eq_some.2 hm, Prod.ext rfl heq.symm⟩

/-- The public part of a snapshot. -/
def Store.snapshotPublic (s : Store) (order : Name → EntryOrder) (getRawLeaf : Option (ℕ → List UInt8))
    (getViewHistory : Option (ℕ → List ℕ)) (v : ℕ) : List UInt8 :=
  publicHeader .snapshot v [] [] ++ (SnapshotSetup.headBytes getRawLeaf getViewHistory v ++
    (inDomain .publicDomain (s.mapsAt v)).flatMap
      fun m => sizePrefixed m.1 ++ body order m)

/-- The private part of a snapshot. -/
def Store.snapshotPrivate (s : Store) (order : Name → EntryOrder) (v : ℕ) : List UInt8 :=
  (inDomain .privateDomain (s.mapsAt v)).flatMap
    fun m => sizePrefixed m.1 ++ body order m

/-- A snapshot of maps with entries that fit is serialised like any other entry. -/
theorem Store.serialise_snapshot (hc : s.compacted ≤ v) (hv : v ≤ s.version)
    (hfits : ∀ m ∈ s.mapsAt v, ∀ p ∈ m.2.2.toList, MapSnapshot.Fits p) (e : Encryptor) (order : Name → EntryOrder)
    (getRawLeaf : Option (ℕ → List UInt8)) (getViewHistory : Option (ℕ → List ℕ)) :
    ∃ snapshot, s.snapshotUnsafeMaps getRawLeaf getViewHistory v = .ok snapshot ∧
      snapshot.serialise order (some e) = serialiseDomains (some e) ⟨0, v⟩ .snapshot 0 true
        (s.snapshotPublic order getRawLeaf getViewHistory v) (s.snapshotPrivate order v) := by
  refine ⟨_, by rw [snapshotUnsafeMaps, if_neg (not_lt.2 hc), if_neg (not_lt.2 hv)], ?_⟩
  have hpublic := domainBytes_eq order hfits .publicDomain
  have hprivate := domainBytes_eq order hfits .privateDomain
  simp only [mapsAt] at hpublic hprivate
  simp only [serialise, hpublic, hprivate]
  rfl

/-- The maps in the order they are written. -/
def Store.writtenMaps (s : Store) (v : ℕ) : List (Name × ℕ × State) :=
  inDomain .publicDomain (s.mapsAt v) ++ inDomain .privateDomain (s.mapsAt v)

theorem Store.perm_writtenMaps (s : Store) (v : ℕ) : (s.writtenMaps v).Perm (s.mapsAt v) := by
  have hprivate : inDomain .privateDomain (s.mapsAt v) =
      (s.mapsAt v).filter fun m => !decide (getSecurityDomain m.1 = .publicDomain) := by
    refine filter_congr fun m _ => ?_
    cases getSecurityDomain m.1 <;> rfl
  rw [writtenMaps, hprivate]
  exact filter_append_perm _ _

/-- The maps are no longer than the entry. -/
theorem Store.length_writtenMaps (hser : (s.snapshotPublic order getRawLeaf getViewHistory v).length < 2 ^ 48 ∧
      (s.snapshotPrivate order v).length < 2 ^ 48) :
    (SnapshotSetup.headBytes getRawLeaf getViewHistory v).length < 2 ^ 64 ∧
      ∀ m ∈ s.writtenMaps v, m.1.length < 2 ^ 64 ∧ (body order m).length < 2 ^ 64 := by
  have hle : ∀ domain, ∀ m ∈ inDomain domain (s.mapsAt v),
      8 + m.1.length + (body order m).length ≤ ((inDomain domain (s.mapsAt v)).flatMap
        fun m => sizePrefixed m.1 ++ body order m).length := by
    intro domain m hm
    have := (MapBlock.length_flatMap_le (f := fun m => sizePrefixed m.1 ++ body order m)
      (fun m => by rw [length_append, length_sizePrefixed]; omega) _).2 m hm
    rwa [length_append, length_sizePrefixed] at this
  obtain ⟨hpublic, hprivate⟩ := hser
  rw [snapshotPublic, length_append, length_append] at hpublic
  rw [snapshotPrivate] at hprivate
  refine ⟨by omega, fun m hm => ?_⟩
  rcases mem_append.1 hm with hm | hm
  · have := hle _ m hm
    omega
  · have := hle _ m hm
    omega

theorem Store.readSnapshot_serialised (hlt : v < 2 ^ 63) (he : e.Inverse)
    (hw : w.Receives e getRawLeaf getViewHistory v)
    (hfits : ∀ m ∈ s.mapsAt v, ∀ p ∈ m.2.2.toList, MapSnapshot.Fits p)
    (hversions : ∀ m ∈ s.mapsAt v, m.2.1 ≤ v ∧ ∀ p ∈ m.2.2.toList, p.2.version ≤ v)
    (hser : serialiseDomains (some e) ⟨0, v⟩ .snapshot 0 true (s.snapshotPublic order getRawLeaf getViewHistory v)
      (s.snapshotPrivate order v) = .ok data) (t : Store) :
    ∃ head d x d', w.init data = .ok (some (head, d)) ∧ head.version = v ∧
      t.readSnapshot w d = .ok (some (x, t.changesOf (s.writtenMaps v) ∅, d')) ∧
      ∀ accept ∈ w.initFromSnapshot, accept x.1 = true := by
  have hlengths : (s.snapshotPublic order getRawLeaf getViewHistory v).length < 2 ^ 48 ∧
      (s.snapshotPrivate order v).length < 2 ^ 48 := by
    obtain ⟨hdr, cipher, body, henc, rfl, hsize, -⟩ := Deserialiser.serialiseDomains_eq he hser
    have hcipher := (he.lengths henc).2
    simp only [length_append] at hsize
    omega
  obtain ⟨hheadLength, hmapLengths⟩ := length_writtenMaps hlengths
  have hperm := s.perm_writtenMaps v
  -- a snapshot has no digests, so these are arbitrary
  have hser' : serialiseDomains (some e) ⟨0, v⟩ .snapshot 0 true
      (publicHeader .snapshot v (List.replicate 32 0) (List.replicate 32 0) ++
        (SnapshotSetup.headBytes getRawLeaf getViewHistory v ++ (inDomain .publicDomain (s.mapsAt v)).flatMap
          fun m => sizePrefixed m.1 ++ body order m)) (s.snapshotPrivate order v) = .ok data := hser
  obtain ⟨d, hdr, -, -, hinit, hdomain, hleft⟩ :=
    Deserialiser.init_serialiseDomains he (by show v < 2 ^ 64; omega) (by simp) (by simp) hser' w.isHistorical
  obtain ⟨hash, views, d₁, hhead, hleft₁, haccept⟩ := hw.readHead hheadLength hleft hdomain
  have hfuel : (s.writtenMaps v).length < d₁.fuel := by
    have hlen : ∀ domain, (inDomain domain (s.mapsAt v)).length ≤
        ((inDomain domain (s.mapsAt v)).flatMap
          fun m => sizePrefixed m.1 ++ body order m).length := fun domain =>
      (MapBlock.length_flatMap_le (fun m => by rw [length_append, length_sizePrefixed]; omega) _).1
    have hpub := hlen .publicDomain
    have hpriv := hlen .privateDomain
    have := hleft₁.publicReader.size
    have := hleft₁.privateReader.size
    simp only [snapshotPrivate] at this
    rw [writtenMaps, length_append, Deserialiser.fuel]
    omega
  obtain ⟨d₂, hchanges⟩ : ∃ d₂, t.snapshotChanges d₁.fuel d₁ ∅ = .ok (some (t.changesOf (s.writtenMaps v) ∅, d₂)) := by
    refine snapshotChanges_eq (fun m hm => ?_) ⟨_, _, rfl, hleft₁⟩ hfuel
      ((hperm.map Prod.fst).nodup_iff.2 (s.nodup_mapsAt v)) fun m _ => ExtTreeMap.not_mem_empty
    have hm' := hperm.mem_iff.1 hm
    obtain ⟨hname, hbody⟩ := hmapLengths m hm
    obtain ⟨hversion, hentries⟩ := hversions m hm'
    exact ⟨hname, parses_read (hfits m hm') (fun p hp => (hentries p hp).trans_lt hlt) (by omega) hbody⟩
  refine ⟨{ version := v, term := e.getTerm hdr, flags := 0 }, d, (hash, views), d₂, ?_, rfl, ?_, haccept⟩
  · rw [SnapshotSetup.init, hw.encryptor, hw.publicOnly]
    exact hinit
  · rw [readSnapshot, hhead]
    show (t.snapshotChanges d₁.fuel d₁ ∅ >>= _) = _
    rw [hchanges]
    rfl

/-- **A snapshot is restored** on an empty store, which then stands for the history that starts with the tables of
the source. -/
theorem Store.Refines.restore (k : s.Refines h) (hbase : h.base ≤ v) (hc : s.compacted ≤ v) (hv : v ≤ s.version)
    (hlt : v < 2 ^ 63) (hfits : ∀ name, ∀ p ∈ (h.tableAt v name).toList, MapSnapshot.Fits p) (he : e.Inverse)
    (hw : w.Receives e getRawLeaf getViewHistory v)
    (hser : serialiseDomains (some e) ⟨0, v⟩ .snapshot 0 true (s.snapshotPublic order getRawLeaf getViewHistory v)
      (s.snapshotPrivate order v) = .ok data) (term : ℕ) (hooks : Name → Bool) :
    ∃ out t, (System.init term hooks).store.deserialiseSnapshot w data = (.ok (.pass, out), t) ∧
      t.Refines (h.resume hbase (k.version ▸ hv)) := by
  have hle : v ≤ h.version := k.version ▸ hv
  have htables : ∀ m ∈ s.mapsAt v, m.2.1 ≤ v ∧ m.2.2 = h.tableAt v m.1 := by
    intro m hm
    obtain ⟨c, r, hname, heq⟩ := mem_mapsAt.1 hm
    rw [heq]
    exact k.snapshot_eq hbase hc hv hname
  generalize hstart : (System.init term hooks).store = start
  have hempty : start.maps = ∅ := by rw [← hstart]; rfl
  have hunlocked : start.Unlocked := fun r hr => by simp [holds, hempty] at hr
  have hnone : ∀ name : Name, start.maps[name]? = none := fun name => by simp [hempty]
  obtain ⟨head, d, x, d', hinit, hversion, hread, haccept⟩ := readSnapshot_serialised hlt he hw
    (fun m hm => by rw [(htables m hm).2]; exact hfits m.1)
    (fun m hm => ⟨(htables m hm).1, fun p hp => by
      rw [(htables m hm).2, ExtTreeMap.mem_toList_iff_getElem?_eq_some] at hp
      exact h.version_le_of_at hbase hle hp⟩) hser start
  obtain ⟨heq, hchangeRefs⟩ := deserialiseSnapshot_of_read hunlocked hinit hread
  obtain ⟨u, t, happly⟩ := applyChanges_snapshot (s := start) (.inl (by rw [← hstart]; rfl)) hchangeRefs
  have ha := applied_of_ok ⟨by simp [hempty], by simp [hempty]⟩ hchangeRefs happly
  have haccepted : w.refuses x.1 = false := by
    unfold SnapshotSetup.refuses
    cases hw' : w.initFromSnapshot with
    | none => rfl
    | some accept => simp [haccept accept hw']
  refine ⟨if w.withViewHistory then some x.2 else none, { t with version := v, lastReplicated := v }, ?_, ?_⟩
  · simp only [heq, commitSnapshot, happly, haccepted, hversion, Bool.false_eq_true, if_false]
  · -- the changes are those of the maps of the source
    have hperm := s.perm_writtenMaps v
    have hlookup := fun name => start.getElem?_changesOf ((hperm.map Prod.fst).nodup_iff.2 (s.nodup_mapsAt v)) name
    refine refines_resume hbase hle rfl ?_ ⟨ha.sound.lt, ha.sound.inj⟩ (fun name hname => ?_) fun name c r hname => ?_
    · show t.compacted = 0
      rw [congrArg Bookkeeping.compacted ha.bookkeeping, ← hstart]
      rfl
    · cases hs : s.maps[name]? with
      | none => exact k.absent hs v hbase hle
      | some q =>
        have hm : (name, (s.objs q.2).snapshot v) ∈ s.writtenMaps v :=
          hperm.mem_iff.2 (mem_mapsAt.2 ⟨q.1, q.2, hs, rfl⟩)
        obtain ⟨r, m, hr, -⟩ := ha.created (hnone name) ((hlookup name).1 _ hm rfl)
        rw [show t.maps[name]? = none from hname] at hr
        cases hr
    · by_cases hmem : name ∈ (s.writtenMaps v).map Prod.fst
      · obtain ⟨m, hm, rfl⟩ := mem_map.1 hmem
        obtain ⟨r', m', hr', hobj⟩ := ha.created (hnone m.1) ((hlookup m.1).1 m hm rfl)
        cases hname.symm.trans hr'
        obtain ⟨hle', htable⟩ := htables m (hperm.mem_iff.1 hm)
        rw [show ({ t with version := v, lastReplicated := v } : Store).objs r = _ from hobj]
        exact ⟨rfl, hle', htable, rfl⟩
      · cases hname.symm.trans (ha.absent (hnone name) ((hlookup name).2 hmem))

/-! ### Replaying entries -/

/-- The entries of transactions of the versions after `v`. -/
def Follow (e : Encryptor) (evidence : TxID → Digest) : ℕ → List (Tx × List UInt8) → Prop
  | _, [] => True
  | v, (t, data) :: entries => t.version = v + 1 ∧ t.version < 2 ^ 64 ∧ (∃ name, t.writeSet name ≠ ∅) ∧
      (∃ claims flags, t.serialise (some e) evidence (some claims) flags false = .ok data) ∧
        Follow e evidence (v + 1) entries

/-- Execute entries one after the other. -/
def Store.replay (w : Setup) (s : Store) (entries : List (Tx × List UInt8)) : Store :=
  entries.foldl (fun s entry => (s.apply w entry.2 false).2) s

/-- Two stores with the same tables still have the same ones after the same entries. -/
theorem Store.Refines.replay {p b : Store} {hp hb : WriteHistory} (kp : p.Refines hp) (kb : b.Refines hb)
    (htop : History.SameTop hp hb) (he : e.Inverse) {w : Setup} (hw : ∀ txid, w.Reads e txid)
    {evidence : TxID → Digest} {entries : List (Tx × List UInt8)} (hentries : Follow e evidence p.version entries) :
    (b.replay w entries).version = (p.replay w entries).version ∧
      ∀ name, (b.replay w entries).content name = (p.replay w entries).content name := by
  induction entries generalizing p b hp hb with
  | nil =>
    refine ⟨?_, fun name => ?_⟩
    · show b.version = p.version
      rw [← kb.version, ← kp.version, htop.1]
    · show b.content name = p.content name
      rw [kb.content_eq, kp.content_eq, htop.2]
  | cons entry entries ih =>
    obtain ⟨hv, hlt, hwrites, ⟨claims, flags, hser⟩, hrest⟩ := hentries
    have hversions : b.version = p.version := by rw [← kb.version, ← kp.version, htop.1]
    obtain ⟨kp', -, hp', -⟩ := kp.apply_serialise he (hw _) hwrites hser hv hlt
    obtain ⟨kb', -⟩ := kb.apply_serialise he (hw _) hwrites hser (hversions ▸ hv) hlt
    exact ih kp' kb' (htop.push _) (by rw [hp', hv]; exact hrest)

/-- **A snapshot is the state**: applied to an empty store it gives the version and the tables that are read from the
source at that version, and the entries after it give the same states there as on the source. -/
theorem snapshot_is_state (k : s.Refines h) (hbase : h.base ≤ v) (hc : s.compacted ≤ v) (hv : v ≤ s.version)
    (hlt : v < 2 ^ 63)
    (hfits : ∀ (name : Name) (state : State), s.stateAt v name = some state → ∀ p ∈ state.toList, MapSnapshot.Fits p)
    (he : e.Inverse) (hw : w.Receives e getRawLeaf getViewHistory v) (term : ℕ) (hooks : Name → Bool) :
    ∃ snapshot, s.snapshotUnsafeMaps getRawLeaf getViewHistory v = .ok snapshot ∧
      snapshot.serialise order (some e) = serialiseDomains (some e) ⟨0, v⟩ .snapshot 0 true
        (s.snapshotPublic order getRawLeaf getViewHistory v) (s.snapshotPrivate order v) ∧
      ∀ data, snapshot.serialise order (some e) = .ok data →
        ∃ out t, (System.init term hooks).store.deserialiseSnapshot w data = (.ok (.pass, out), t) ∧ t.version = v ∧
          (∀ name, some (t.content name) = s.stateAt v name) ∧
          ∀ (source : Store) (view termOfNextVersion : ℕ), s.rollback ⟨view, v⟩ termOfNextVersion = .ok source →
            ∀ (x : Setup) (evidence : TxID → Digest) (entries : List (Tx × List UInt8)), (∀ txid, x.Reads e txid) →
              Follow e evidence v entries → (t.replay x entries).version = (source.replay x entries).version ∧
                ∀ name, (t.replay x entries).content name = (source.replay x entries).content name := by
  have hle : v ≤ h.version := k.version ▸ hv
  have hstate := k.stateAt_eq hbase hc hv
  have hfits : ∀ name, ∀ p ∈ (h.tableAt v name).toList, MapSnapshot.Fits p := fun name => hfits name _ (hstate name)
  have hmaps : ∀ m ∈ s.mapsAt v, ∀ p ∈ m.2.2.toList, MapSnapshot.Fits p := by
    intro m hm
    obtain ⟨c, r, hname, heq⟩ := mem_mapsAt.1 hm
    rw [heq, (k.snapshot_eq hbase hc hv hname).2]
    exact hfits m.1
  obtain ⟨snapshot, hsnapshot, hser⟩ := serialise_snapshot hc hv hmaps e order getRawLeaf getViewHistory
  refine ⟨snapshot, hsnapshot, hser, fun data hdata => ?_⟩
  obtain ⟨out, t, hrestored, kt⟩ := k.restore hbase hc hv hlt hfits he hw (hser.symm.trans hdata) term hooks
  refine ⟨out, t, hrestored, kt.version.symm, fun name => ?_, ?_⟩
  · rw [kt.content_eq, hstate name]
    exact congrArg some (h.at_resume hbase hle name)
  · intro source view termOfNextVersion hrollback x evidence entries hx hentries
    have ksource := k.rollback hrollback hbase
    have hversion : (h.truncate v).version = v := h.version_truncate hbase hle
    have htop : History.SameTop (h.truncate v) (h.resume hbase hle) := by
      refine ⟨hversion.symm, fun name => ?_⟩
      rw [hversion, h.version_resume, h.at_resume, h.at_truncate le_rfl]
    have hfollow : Follow e evidence source.version entries := by rwa [← ksource.version, hversion]
    exact ksource.replay kt htop he hx hfollow

theorem snapshot_is_state_written :
    ∃ snapshot data out t, written.snapshotUnsafeMaps none none 1 = .ok snapshot ∧
      snapshot.serialise (fun _ => EntryOrder.ofKeys) (some Encryptor.plain) = .ok data ∧
      (System.init 2 fun _ => false).store.deserialiseSnapshot plainSnapshots data = (.ok (.pass, out), t) ∧
      ∀ name, some (t.content name) = written.stateAt 1 name := by
  have hinv : (exec System.step (System.init 2 fun _ => false)
      [.openMap 1 [1], .op 1 [1] (.put [7] [70]), .commit 1]).Inv := System.inv_run (by decide +kernel)
  have hmaps : written.maps.toList = [([1], 1, 0)] := by decide +kernel
  have hall : ((written.stateAt 1 [1]).all fun state => state.toList.all fun p =>
      decide ((entryBytes p).length < 2 ^ 32)) = true := by decide +kernel
  have hfits : ∀ (name : Name) (state : State), written.stateAt 1 name = some state →
      ∀ p ∈ state.toList, MapSnapshot.Fits p := by
    intro name state hstate
    cases hs : written.maps[name]? with
    | none =>
      have hnone : written.stateAt 1 name = some ∅ := by
        rw [stateAt, getMap, hs]
        rfl
      cases hnone.symm.trans hstate
      simp
    | some q =>
      have hmem := ExtTreeMap.mem_toList_iff_getElem?_eq_some.2 hs
      cases mem_singleton.1 hmem
      rw [hstate] at hall
      intro p hp
      exact of_decide_eq_true (p := (entryBytes p).length < 2 ^ 32) (all_eq_true.1 hall p hp)
  have hreceives : plainSnapshots.Receives Encryptor.plain none none 1 := ⟨rfl, rfl, rfl, by simp, rfl, by simp⟩
  obtain ⟨snapshot, hsnapshot, -, hrestore⟩ := snapshot_is_state hinv.refines (by rw [hinv.base]; decide)
    (by decide +kernel) (by decide +kernel) (by decide) hfits Encryptor.inverse_plain hreceives 2 fun _ => false
  have hser : ((written.snapshotUnsafeMaps none none 1).toOption.any fun snapshot =>
      (snapshot.serialise (fun _ => EntryOrder.ofKeys) (some Encryptor.plain)).toOption.isSome) = true := by
    decide +kernel
  rw [show written.snapshotUnsafeMaps none none 1 = .ok snapshot from hsnapshot] at hser
  cases hdata : snapshot.serialise (fun _ => EntryOrder.ofKeys) (some Encryptor.plain) with
  | error fault =>
    rw [Except.toOption, Option.any_some, hdata] at hser
    cases hser
  | ok data =>
    obtain ⟨out, t, hrestored, -, hcontent, -⟩ := hrestore data hdata
    exact ⟨snapshot, data, out, t, hsnapshot, hdata, hrestored, hcontent⟩

/-! ### A value that is too long -/

/-- A store with one key. -/
def Store.holding (value : SerialisedEntry) : Store where
  version := 1
  maps := (∅ : ExtTreeMap Name (ℕ × ℕ)).insert [1] (1, 0)
  objs _ := { roll := ({} : Roll).commit ((∅ : Write).insert [7] (some value)) 1 false }
  allocated := 1

/-- The history of that store. -/
def holdingHistory (value : SerialisedEntry) : WriteHistory :=
  History.empty.push fun name => if name = [1] then (∅ : Write).insert [7] (some value) else ∅

variable (value : SerialisedEntry)

theorem refines_holding : (holding value).Refines (holdingHistory value) := by
  have hempty : ({} : Store).Refines History.empty := refines_empty rfl rfl rfl
  have hmaps : ∀ name : Name, (holding value).maps[name]? = if [1] = name then some (1, 0) else none := fun name => by
    simp only [holding, ExtTreeMap.getElem?_insert, Std.compare_eq_iff_eq, ExtTreeMap.getElem?_empty]
  refine hempty.push ⟨rfl, rfl, Nat.zero_le _, fun hname => by simp at hname, fun {name} _ hd => ?_,
    fun {name} _ hd => ?_,
    fun r hr => absurd hr (Nat.not_lt_zero r), ⟨fun {name c r} hname => ?_,
      fun {name name' c c' r} h₁ h₂ => ?_⟩⟩ rfl rfl
  · rw [hmaps, if_neg]
    rintro rfl
    simp at hd
  · by_cases hname : [1] = name
    · subst hname
      exact ⟨0, le_rfl, by rw [hmaps, if_pos rfl]; rfl, rfl⟩
    · rw [if_neg fun h => hname h.symm] at hd
      exact absurd rfl hd
  · rw [hmaps] at hname
    split_ifs at hname
    cases hname
    exact Nat.zero_lt_one
  · rw [hmaps] at h₁ h₂
    split_ifs at h₁ h₂ with ha hb
    exact ha.symm.trans hb

theorem tableAt_holding (name : Name) (key : SerialisedEntry) :
    ((holdingHistory value).tableAt 1 name)[key]? = if name = [1] ∧ key = [7] then some ⟨1, value⟩ else none := by
  have htop := History.at_push_succ (History.empty : WriteHistory)
    (fun name => if name = [1] then (∅ : Write).insert [7] (some value) else ∅) name
  rw [holdingHistory, show (1 : ℕ) = (History.empty : WriteHistory).version + 1 from rfl, htop, getElem?_apply,
    History.at_empty]
  by_cases hname : name = [1]
  · simp only [hname, if_true, true_and, ExtTreeMap.getElem?_insert, Std.compare_eq_iff_eq, ExtTreeMap.getElem?_empty]
    by_cases hkey : key = [7]
    · simp [hkey]
    · simp [hkey, Ne.symm hkey]
  · simp [hname]

/-- The snapshot of a store with a value of 2^32 - 1 bytes cannot be serialised. -/
theorem not_snapshot_is_state :
    ¬∀ (s : Store) (h : WriteHistory) (v : ℕ) (e : Encryptor) (order : Name → EntryOrder), s.Refines h → h.base ≤ v →
      s.compacted ≤ v → v ≤ s.version → v < 2 ^ 63 →
      (∀ (name : Name) (state : State), s.stateAt v name = some state →
        ∀ p ∈ state.toList, p.1.length < 2 ^ 32 ∧ p.2.value.length < 2 ^ 32) → e.Inverse →
      ∃ snapshot data out t, s.snapshotUnsafeMaps none none v = .ok snapshot ∧
        snapshot.serialise order (some e) = .ok data ∧
        (System.init 2 fun _ => false).store.deserialiseSnapshot { encryptor := some e } data = (.ok (.pass, out), t) ∧
        ∀ name, some (t.content name) = s.stateAt v name := by
  intro hall
  obtain ⟨value, hlen⟩ : ∃ value : SerialisedEntry, value.length = 2 ^ 32 - 1 := ⟨List.replicate _ 0, length_replicate⟩
  have k := refines_holding value
  have hstate := k.stateAt_eq (v := 1) (Nat.zero_le _) (Nat.zero_le _) le_rfl
  obtain ⟨snapshot, data, -, -, hsnapshot, hser, -⟩ := hall (holding value) (holdingHistory value) 1 Encryptor.plain
    (fun _ => EntryOrder.ofKeys) k (Nat.zero_le _) (Nat.zero_le _) le_rfl (by decide) (fun name state hname p hp => by
      rw [hstate] at hname
      cases hname
      rw [ExtTreeMap.mem_toList_iff_getElem?_eq_some, tableAt_holding] at hp
      split_ifs at hp with h
      rw [h.2, ← Option.some.inj hp, hlen]
      decide) Encryptor.inverse_plain
  have hmaps : snapshot.maps = [([1], ((holding value).objs 0).snapshot 1)] := by
    have htoList : (holding value).maps.toList = [([1], 1, 0)] := by
      show ((∅ : ExtTreeMap Name (ℕ × ℕ)).insert [1] (1, 0)).toList = _
      decide +kernel
    rw [← Except.ok.inj hsnapshot]
    simp only [htoList, map_cons, map_nil]
  have htable : (((holding value).objs 0).snapshot 1).2 = (holdingHistory value).tableAt 1 [1] := by
    refine (k.snapshot_eq (v := 1) (c := 1) (Nat.zero_le _) (Nat.zero_le _) le_rfl ?_).2
    simp [holding]
  have hmem : (([7] : SerialisedEntry), (⟨1, value⟩ : VersionV)) ∈ (((holding value).objs 0).snapshot 1).2.toList := by
    rw [htable, ExtTreeMap.mem_toList_iff_getElem?_eq_some, tableAt_holding, if_pos ⟨rfl, rfl⟩]
  have hlong : ¬MapSnapshot.Fits ([7], ⟨1, value⟩) := by
    rw [MapSnapshot.Fits, length_entryBytes, valueSize, hlen]
    omega
  generalize ((holding value).objs 0).snapshot 1 = m at hmaps hmem
  obtain ⟨pub, -, hser⟩ := bind_eq_ok hser
  obtain ⟨priv, hpriv, -⟩ := bind_eq_ok hser
  rw [hmaps, domainBytes, if_pos (by decide)] at hpriv
  obtain ⟨bytes, hbytes, -⟩ := bind_eq_ok hpriv
  exact hlong ((serialize_iff _).1 ⟨bytes, hbytes⟩ _ hmem)

end Ccf.Kv
