import Ccf.Kv.Committing
import Ccf.Kv.Entry

/-! # Serialised write sets

`Map::serialise_changes` and `CommittableTx::serialise` write the changes of a transaction as map blocks, the
public ones and then the private ones; `deserialise_internal` reads one block. `MapBlock.writes_ofChanges`: a
block has the writes of the change set it was made of. `parses_readBlock`: it is read as it was written.
`fillBlocks_eq`: the loop of `fill_maps` over a serialised entry adds its blocks. -/

namespace Ccf.Kv

open RawWriter List Versioned
open Std (ExtTreeMap)

/-! ### Writing -/

namespace MapBlock

/-- The block that `serialise_changes` writes for a change set: the puts and then the removals, in the order
of the keys. -/
def ofChanges (name : Name) (cs : ChangeSet) (includeReads : Bool) : MapBlock where
  name := name
  readVersion := if includeReads then cs.readVersion else noVersion
  reads := if includeReads then cs.reads.toList else []
  puts := cs.writes.toList.filterMap fun p => p.2.map fun value => (p.1, value)
  removes := cs.writes.toList.filterMap fun p => if p.2.isNone then some p.1 else none

/-- The bytes of a block behind its name. -/
def body (b : MapBlock) : List UInt8 :=
  integral b.readVersion ++ (integral b.reads.length ++
    ((b.reads.flatMap fun r => sizePrefixed r.1 ++ integral r.2) ++
      (integral b.puts.length ++
        ((b.puts.flatMap fun w => sizePrefixed w.1 ++ sizePrefixed w.2) ++
          (integral b.removes.length ++ b.removes.flatMap sizePrefixed)))))

def bytes (b : MapBlock) : List UInt8 := sizePrefixed b.name ++ b.body

end MapBlock

/-- A SHA-256 digest. -/
abbrev Digest := { bytes : List UInt8 // bytes.length = 32 }

namespace Tx

/-- The blocks of the maps of one domain that are written to. -/
def blocks (t : Tx) (domain : SecurityDomain) (includeReads : Bool) : List MapBlock :=
  (t.allChanges.toList.filter fun p => getSecurityDomain p.1 = domain && p.2.changeset.hasWrites).map
    fun p => MapBlock.ofChanges p.1 p.2.changeset includeReads

/-- The blocks of an entry, in the order they are written. -/
def entryBlocks (t : Tx) (includeReads : Bool) : List MapBlock :=
  t.blocks .publicDomain includeReads ++ t.blocks .privateDomain includeReads

/-- `CommittableTx::serialise`; the digest of the commit evidence is made from the transaction id. -/
def serialise (t : Tx) (encryptor : Option Encryptor) (commitEvidenceDigest : TxID → Digest)
    (claimsDigest : Option Digest) (flags : UInt8) (includeReads : Bool) : Except CodecFault (List UInt8) :=
  if t.committed = false then .error .notCommitted
  else
    match claimsDigest, encryptor with
    | none, _ => .error .missingClaims
    | some claims, encryptor =>
      if t.allChanges.toList.all fun p => !p.2.changeset.hasWrites then .ok []
      else
        match encryptor with
        | none => .error .serialiser
        | some e =>
          let txid : TxID := ⟨t.commitView, t.version⟩
          let header := publicHeader .writeSetWithCommitEvidenceAndClaims txid.seqno claims.1
            (commitEvidenceDigest txid).1
          serialiseDomains (some e) txid .writeSetWithCommitEvidenceAndClaims flags false
            (header ++ (t.blocks .publicDomain includeReads).flatMap MapBlock.bytes)
            ((t.blocks .privateDomain includeReads).flatMap MapBlock.bytes)

end Tx

/-! ### Reading -/

def readRead : Reader (SerialisedEntry × ℕ) := do
  let key ← RawReader.sizePrefixed
  let version ← RawReader.integral
  return (key, version)

def readWrite : Reader (SerialisedEntry × SerialisedEntry) := do
  let key ← RawReader.sizePrefixed
  let value ← RawReader.sizePrefixed
  return (key, value)

/-- The reads of `deserialise_internal`. -/
def readBlock (name : Name) : Reader MapBlock := do
  let readVersion ← RawReader.integral
  let reads ← repeatTimes readRead (← RawReader.integral)
  let puts ← repeatTimes readWrite (← RawReader.integral)
  let removes ← repeatTimes RawReader.sizePrefixed (← RawReader.integral)
  return { name, readVersion, reads, puts, removes }

/-- The loop of `fill_maps`; `none` is `return false`. Every round reads at least the size of a name, so the
size of the readers is fuel enough. -/
def fillBlocks (s : Store) (v : ℕ) : ℕ → Deserialiser → Filling → Except CodecFault (Option Filling)
  | 0, _, _ => .error .overrun
  | fuel + 1, d, f => do
      match ← d.startMap with
      | none => return if d.atEnd then some f else none
      | some (name, d) =>
        if name ∈ f then return none
        else
          let (b, d) ← d.read (readBlock name)
          match f.addBlock s v b with
          | .next f => fillBlocks s v fuel d f
          | .refused => return none
          | .raised => throw .changeSet

def Deserialiser.fuel (d : Deserialiser) : ℕ := d.publicReader.size + d.privateReader.size + 1

/-! ### The writes of a block -/

variable {α : Type} {p : Reader α} {b : MapBlock} {f : Filling} {s : Store} {v : ℕ} {d d₂ d₁ : Deserialiser}

namespace MapBlock

/-- The puts and removals of a block as one list. -/
def insertions (b : MapBlock) : List (SerialisedEntry × Option SerialisedEntry) :=
  b.puts.map (fun p => (p.1, some p.2)) ++ b.removes.map fun key => (key, none)

theorem writes_eq (b : MapBlock) : b.writes = b.insertions.foldl (fun (w : Write) p => w.insert p.1 p.2) ∅ := by
  rw [writes, insertions, foldl_append, foldl_map, foldl_map]

theorem insertions_ofChanges (name : Name) (cs : ChangeSet) (includeReads : Bool) :
    (ofChanges name cs includeReads).insertions.Perm cs.writes.toList := by
  have hputs : (ofChanges name cs includeReads).puts.map (fun p => (p.1, some p.2)) =
      cs.writes.toList.filter fun p => p.2.isSome := by
    simp only [ofChanges, map_filterMap, ← filterMap_eq_filter]
    refine congrArg (List.filterMap · _) (funext fun p => ?_)
    obtain ⟨key, _ | value⟩ := p <;> rfl
  have hremoves : (ofChanges name cs includeReads).removes.map (fun key => (key, none)) =
      cs.writes.toList.filter fun p => !p.2.isSome := by
    simp only [ofChanges, map_filterMap, ← filterMap_eq_filter]
    refine congrArg (List.filterMap · _) (funext fun p => ?_)
    obtain ⟨key, _ | value⟩ := p <;> rfl
  rw [insertions, hputs, hremoves]
  exact filter_append_perm _ _

theorem writes_ofChanges (name : Name) (cs : ChangeSet) (includeReads : Bool) :
    (ofChanges name cs includeReads).writes = cs.writes := by
  rw [writes_eq]
  exact foldl_insert_of_perm (insertions_ofChanges name cs includeReads)

/-! ### Reading back -/

/-- The versions and lengths of a block fit their 64 bits. -/
structure Fits (b : MapBlock) : Prop where
  length : b.bytes.length < 2 ^ 64
  readVersion : b.readVersion < 2 ^ 64
  reads : ∀ r ∈ b.reads, r.2 < 2 ^ 64

theorem Fits.name_lt (h : b.Fits) : b.name.length < 2 ^ 64 := by
  have := h.length
  rw [bytes, length_append, length_sizePrefixed] at this
  omega

theorem length_flatMap_le {f : α → List UInt8} (hf : ∀ x, 8 ≤ (f x).length) (l : List α) :
    l.length ≤ (l.flatMap f).length ∧ ∀ x ∈ l, (f x).length ≤ (l.flatMap f).length := by
  induction l with
  | nil => simp
  | cons y l ih =>
    have := hf y
    rw [flatMap_cons, length_append, length_cons]
    refine ⟨by omega, fun x hx => ?_⟩
    rcases mem_cons.1 hx with rfl | hx
    · omega
    · have := ih.2 x hx
      omega

theorem parses_readRead {r : SerialisedEntry × ℕ} (hlen : r.1.length < 2 ^ 64) (hv : r.2 < 2 ^ 64) :
    Parses readRead (sizePrefixed r.1 ++ integral r.2) r := by
  refine (parses_sizePrefixed hlen).bind ?_
  exact (parses_integral hv).bind (parses_pure _)

theorem parses_readWrite {w : SerialisedEntry × SerialisedEntry} (hkey : w.1.length < 2 ^ 64)
    (hvalue : w.2.length < 2 ^ 64) :
    Parses readWrite (sizePrefixed w.1 ++ sizePrefixed w.2) w := by
  refine (parses_sizePrefixed hkey).bind ?_
  rw [← append_nil (sizePrefixed w.2)]
  exact (parses_sizePrefixed hvalue).bind (parses_pure _)

/-- A counted loop over the elements of a block. -/
theorem parses_repeatTimes {enc : α → List UInt8} {items : List α}
    (h : ∀ x ∈ items, Parses p (enc x) x) : Parses (repeatTimes p items.length) (items.flatMap enc) items := by
  have hmap : Parses (repeatTimes p items.length) (items.flatMap enc) (items.map id) := Parses.repeatTimes h
  rwa [map_id] at hmap

/-- **A block is read as it was written**. -/
theorem parses_readBlock (hb : b.Fits) : Parses (readBlock b.name) b.body b := by
  have hlen := hb.length
  have hreads := length_flatMap_le (f := fun r : SerialisedEntry × ℕ => sizePrefixed r.1 ++ integral r.2)
    (fun r => by simp only [length_append, length_sizePrefixed]; omega) b.reads
  have hputs := length_flatMap_le
    (f := fun w : SerialisedEntry × SerialisedEntry => sizePrefixed w.1 ++ sizePrefixed w.2)
    (fun w => by simp only [length_append, length_sizePrefixed]; omega) b.puts
  have hremoves := length_flatMap_le (f := sizePrefixed)
    (fun w => by rw [length_sizePrefixed]; omega) b.removes
  simp only [bytes, body, length_append, length_sizePrefixed, integral, length_leBytes] at hlen hreads hputs hremoves
  refine (parses_integral hb.readVersion).bind ((parses_integral (by omega)).bind ((parses_repeatTimes ?_).bind
    ((parses_integral (by omega)).bind ((parses_repeatTimes ?_).bind ((parses_integral (by omega)).bind ?_)))))
  · intro r hr
    have := hreads.2 r hr
    exact parses_readRead (by omega) (hb.reads r hr)
  · intro w hw
    have := hputs.2 w hw
    exact parses_readWrite (by omega) (by omega)
  · rw [← append_nil (b.removes.flatMap sizePrefixed)]
    refine (parses_repeatTimes fun key hkey => ?_).bind (parses_pure _)
    have := hremoves.2 key hkey
    exact parses_sizePrefixed (by omega)

end MapBlock

namespace Deserialiser

variable {pub priv bytes : List UInt8} {x : α}

/-- In the public domain. -/
theorem Left.advance_public (h : d.Left pub priv) (hpub : pub ≠ []) : d.onPrivate = false ∧ d.advance = some d := by
  have hdomain : d.onPrivate = false := by
    cases hp : d.onPrivate with
    | false => rfl
    | true => exact absurd (h.onPrivate hp) hpub
  refine ⟨hdomain, ?_⟩
  have heos : d.publicReader.isEos = false := by
    rw [h.publicReader.isEos]
    simpa using hpub
  simp [advance, current, hdomain, heos]

/-- On to the private domain, or already there. -/
theorem Left.advance_private (h : d.Left [] priv) (hpriv : priv ≠ []) :
    d.advance = some { d with onPrivate := true } := by
  have hpublic : d.publicReader.isEos = true := h.publicReader.isEos
  have hprivate : d.privateReader.isEos = false := by
    rw [h.privateReader.isEos]
    simpa using hpriv
  cases hp : d.onPrivate with
  | false => simp [advance, current, hp, hpublic, hprivate]
  | true =>
    have hsame : { d with onPrivate := true } = d := by rw [← hp]
    simp [advance, current, hp, hprivate, hsame]

theorem Left.advance_none (h : d.Left [] []) : d.advance = none ∧ d.atEnd = true := by
  have hpublic : d.publicReader.isEos = true := h.publicReader.isEos
  have hprivate : d.privateReader.isEos = true := h.privateReader.isEos
  cases hp : d.onPrivate <;> simp [advance, atEnd, current, hp, hpublic, hprivate]

theorem Left.read_public (hp : Parses p bytes x) (h : d.Left (bytes ++ pub) priv)
    (hdomain : d.onPrivate = false) :
    ∃ d', d.read p = .ok (x, d') ∧ d'.onPrivate = false ∧ d'.Left pub priv := by
  refine ⟨{ d with publicReader := d.publicReader.skip bytes.length }, ?_, hdomain, h.publicReader.skip,
    h.privateReader, ?_⟩
  · have hread := hp.ends h.publicReader
    simp only [read, current, hdomain, Bool.false_eq_true, if_false, hread]
    rfl
  · intro hcontra
    rw [hdomain] at hcontra
    cases hcontra

theorem Left.read_private (hp : Parses p bytes x) (h : d.Left [] (bytes ++ priv))
    (hdomain : d.onPrivate = true) :
    ∃ d', d.read p = .ok (x, d') ∧ d'.onPrivate = true ∧ d'.Left [] priv := by
  refine ⟨{ d with privateReader := d.privateReader.skip bytes.length }, ?_, hdomain, h.publicReader,
    h.privateReader.skip, fun _ => rfl⟩
  have hread := hp.ends h.privateReader
  simp only [read, current, hdomain, if_true, hread]
  rfl

/-- What is left are the maps `maps`, each written as its name and its body. -/
def LeftMaps {α : Type} (d : Deserialiser) (nameOf : α → Name) (body : α → List UInt8) (maps : List α) : Prop :=
  ∃ pubs privs, maps = pubs ++ privs ∧
    d.Left (pubs.flatMap fun x => sizePrefixed (nameOf x) ++ body x)
      (privs.flatMap fun x => sizePrefixed (nameOf x) ++ body x)

variable {β : Type} {nameOf : α → Name} {body : α → List UInt8} {maps : List α} {p : Reader β} {y : β}

theorem LeftMaps.nil (h : d.LeftMaps nameOf body []) : d.startMap = .ok none ∧ d.atEnd = true := by
  obtain ⟨pubs, privs, hnil, h⟩ := h
  obtain ⟨rfl, rfl⟩ := nil_eq_append_iff.1 hnil
  obtain ⟨hadvance, hend⟩ := h.advance_none
  refine ⟨?_, hend⟩
  rw [startMap, hadvance]
  rfl

/-- The next map is read from the public domain, or from the private one when the public one is at its end. -/
theorem LeftMaps.cons (h : d.LeftMaps nameOf body (x :: maps)) (hname : (nameOf x).length < 2 ^ 64)
    (hp : Parses p (body x) y) :
    ∃ d₁ d₂, d.startMap = .ok (some (nameOf x, d₁)) ∧ d₁.read p = .ok (y, d₂) ∧ d₂.LeftMaps nameOf body maps := by
  obtain ⟨pubs, privs, hcons, h⟩ := h
  cases pubs with
  | cons z pubs =>
    obtain ⟨rfl, rfl⟩ := List.cons.inj hcons
    rw [flatMap_cons, append_assoc] at h
    obtain ⟨hdomain, hadvance⟩ := h.advance_public (by simp [sizePrefixed, leBytes])
    obtain ⟨d₁, hread₁, hdomain₁, h₁⟩ := h.read_public (parses_sizePrefixed hname) hdomain
    obtain ⟨d₂, hread₂, -, h₂⟩ := h₁.read_public hp hdomain₁
    refine ⟨d₁, d₂, ?_, hread₂, pubs, privs, rfl, h₂⟩
    rw [startMap, hadvance]
    simp only [hread₁]
    rfl
  | nil =>
    subst hcons
    rw [flatMap_nil, flatMap_cons, append_assoc] at h
    have hadvance := h.advance_private (by simp [sizePrefixed, leBytes])
    generalize hmoved : ({ d with onPrivate := true } : Deserialiser) = d' at hadvance
    have hleft : d'.Left [] (sizePrefixed (nameOf x) ++ (body x ++
        maps.flatMap fun x => sizePrefixed (nameOf x) ++ body x)) := by
      rw [← hmoved]
      exact ⟨h.publicReader, h.privateReader, fun _ => rfl⟩
    obtain ⟨d₁, hread₁, hdomain₁, h₁⟩ := hleft.read_private (parses_sizePrefixed hname) (hmoved ▸ rfl)
    obtain ⟨d₂, hread₂, -, h₂⟩ := h₁.read_private hp hdomain₁
    refine ⟨d₁, d₂, ?_, hread₂, [], maps, rfl, h₂⟩
    rw [startMap, hadvance]
    simp only [hread₁]
    rfl

end Deserialiser

/-! ### The loop over the blocks -/

def Filled.result : Filled → Except CodecFault (Option Filling)
  | .next f => .ok (some f)
  | .refused => .ok none
  | .raised => .error .changeSet

theorem fillBlocks_round {fuel : ℕ}
    (hstart : d.startMap = .ok (some (b.name, d₁))) (hread : d₁.read (readBlock b.name) = .ok (b, d₂)) :
    fillBlocks s v (fuel + 1) d f =
      match f.addBlock s v b with
      | .next f => fillBlocks s v fuel d₂ f
      | .refused => .ok none
      | .raised => .error .changeSet := by
  rw [fillBlocks, hstart]
  show (if b.name ∈ f then _ else _) = _
  by_cases hmem : b.name ∈ f
  · rw [if_pos hmem, Filling.addBlock, if_pos hmem]
    rfl
  · rw [if_neg hmem, hread]
    show (match f.addBlock s v b with | .next f => _ | .refused => _ | .raised => _) = _
    cases f.addBlock s v b <;> rfl

/-- The loop of `fill_maps` adds the blocks of the entry. -/
theorem fillBlocks_eq {fuel : ℕ} {blocks : List MapBlock}
    (hfits : ∀ b ∈ blocks, b.Fits) (h : d.LeftMaps MapBlock.name MapBlock.body blocks) (hfuel : blocks.length < fuel) :
    fillBlocks s v fuel d f = (Filling.addBlocks s v blocks f).result := by
  induction blocks generalizing fuel d f with
  | nil =>
    obtain ⟨fuel, rfl⟩ : ∃ n, fuel = n + 1 := ⟨fuel - 1, by omega⟩
    obtain ⟨hnone, hend⟩ := h.nil
    rw [fillBlocks, hnone]
    show Except.ok (if d.atEnd then some f else none) = _
    rw [if_pos hend]
    rfl
  | cons b blocks ih =>
    obtain ⟨fuel, rfl⟩ : ∃ n, fuel = n + 1 := ⟨fuel - 1, by omega⟩
    have hb := hfits b mem_cons_self
    obtain ⟨d₁, d₂, hstart, hread, h₂⟩ := h.cons hb.name_lt (MapBlock.parses_readBlock hb)
    rw [fillBlocks_round hstart hread, Filling.addBlocks]
    cases f.addBlock s v b with
    | next f => exact ih (fun c hc => hfits c (mem_cons_of_mem _ hc)) h₂ (Nat.lt_of_succ_lt_succ hfuel)
    | refused => rfl
    | raised => rfl

end Ccf.Kv
