import Mathlib.Algebra.Order.BigOperators.Group.List
import Ccf.Kv.WriteSet

/-! # Snapshots of maps

The bytes of the state of a map (`champ_map.h`, `map_serializers.h`, `untyped_change_set.h`): every key and every
value behind its size, padded to 8 bytes, in the order of the hashes of the keys. Sizes are computed on 32
bits, so an entry that is too long makes the buffer too short for it (`serialize_iff`). For the others the
state is read back as it was written (`deserializeMapSnapshot_serialize`), whatever the order. -/

namespace Ccf.Kv

open List Versioned
open Std (ExtTreeMap)

/-- An order of the entries of a state, such as that of the hashes of their keys. -/
abbrev EntryOrder := { order : State → List (SerialisedEntry × VersionV) // ∀ state, (order state).Perm state.toList }

/-- The order of the keys. -/
def EntryOrder.ofKeys : EntryOrder := ⟨ExtTreeMap.toList, fun _ => .refl _⟩

namespace MapSnapshot

/-! ### Writing -/

/-- `get_padding`, on 32 bits. -/
def getPadding (size : ℕ) : ℕ :=
  let padding := size % 2 ^ 32 % 8
  if padding ≠ 0 then 8 - padding else 0

/-- `get_serialized_size_with_padding` of data of `size` bytes, on 32 bits. -/
def getSerializedSizeWithPadding (size : ℕ) : ℕ :=
  let size := size % 2 ^ 32
  (size + getPadding size) % 2 ^ 32

/-- `get_size` of a key. -/
def keySize (key : SerialisedEntry) : ℕ := 8 + key.length

/-- `get_size` of a value with its version. -/
def valueSize (x : VersionV) : ℕ := 8 + 8 + x.value.length

/-- The size that `put` adds to the size of the map. -/
def entrySize (p : SerialisedEntry × VersionV) : ℕ :=
  getSerializedSizeWithPadding (keySize p.1) + getSerializedSizeWithPadding (valueSize p.2)

/-- `get_serialized_size`. -/
def getSerializedSize (state : State) : ℕ := (state.toList.map entrySize).sum

def padding (size : ℕ) : List UInt8 := List.replicate (getPadding size) 0

def keyBytes (key : SerialisedEntry) : List UInt8 :=
  RawWriter.sizePrefixed key ++ padding (keySize key)

def valueBytes (x : VersionV) : List UInt8 :=
  leBytes 8 (8 + x.value.length) ++ (leBytes 8 x.version ++ (x.value ++ padding (valueSize x)))

def entryBytes (p : SerialisedEntry × VersionV) : List UInt8 := keyBytes p.1 ++ valueBytes p.2

/-- `serialize`: the sizes of the entries are added up on 32 bits each; writing stops at the first piece that
does not fit in what is left. -/
def serialize (order : EntryOrder) (state : State) : Except CodecFault (List UInt8) :=
  let entries := order.1 state
  let size := (entries.map fun p => entrySize p % 2 ^ 32).sum
  let bytes := entries.flatMap entryBytes
  if size ≠ getSerializedSize state then .error .assertion
  else if size < bytes.length then .error .insufficientSpace
  else if bytes.length < size then .error .assertion
  else .ok bytes

/-! ### Reading -/

/-- The bytes are copied before the size that is left is looked at. -/
def readKey : Reader SerialisedEntry := do
  let size ← RawReader.readEntry 8
  Cursor.copy .overrun size

/-- The size includes that of the version, which is taken off on 64 bits. -/
def readVersionV : Reader VersionV := do
  let size ← RawReader.readEntry 8
  let version ← RawReader.readEntry 8
  let value ← Cursor.copy .overrun (if 8 ≤ size then size - 8 else 2 ^ 64 + size - 8)
  return ⟨version, value⟩

def readEntry : Reader (SerialisedEntry × VersionV) := do
  let key ← readKey
  let _ ← Deserialiser.skip (getPadding (keySize key))
  let x ← readVersionV
  let _ ← Deserialiser.skip (getPadding (valueSize x))
  return (key, x)

/-- One entry of the loop of `deserialize_map_snapshot`. A version that is negative as a signed integer stands
for a removal. -/
def addEntry (state : State) (p : SerialisedEntry × VersionV) : State :=
  if p.2.version < 2 ^ 63 then state.insert p.1 p.2 else state

/-- The loop of `deserialize_map_snapshot`. Every round reads at least two sizes, so the size is fuel
enough. -/
def readEntries : ℕ → State → Reader State
  | 0, _ => throw .overrun
  | fuel + 1, state => do
      if (← remaining) = 0 then return state
      else
        let p ← readEntry
        readEntries fuel (addEntry state p)

def deserializeMapSnapshot (bytes : List UInt8) : Except CodecFault State :=
  (readEntries (bytes.length + 1) ∅ { memory := bytes, size := bytes.length }).map Prod.fst

/-! ### Sizes -/

theorem getSerializedSizeWithPadding_eq {size : ℕ} (h : size + getPadding size < 2 ^ 32) :
    getSerializedSizeWithPadding size = size + getPadding size := by
  have hsize : size % 2 ^ 32 = size := Nat.mod_eq_of_lt (by omega)
  simp only [getSerializedSizeWithPadding, hsize]
  exact Nat.mod_eq_of_lt h

theorem length_keyBytes (key : SerialisedEntry) : (keyBytes key).length = keySize key + getPadding (keySize key) := by
  simp [keyBytes, padding, length_sizePrefixed, keySize]

theorem length_valueBytes (x : VersionV) : (valueBytes x).length = valueSize x + getPadding (valueSize x) := by
  simp only [valueBytes, padding, length_append, length_leBytes, length_replicate, valueSize]
  omega

theorem length_entryBytes (p : SerialisedEntry × VersionV) :
    (entryBytes p).length = keySize p.1 + getPadding (keySize p.1) + (valueSize p.2 + getPadding (valueSize p.2)) := by
  rw [entryBytes, length_append, length_keyBytes, length_valueBytes]

/-- The key and the value of the entry, with their sizes and padding, take less than 2^32 bytes. -/
def Fits (p : SerialisedEntry × VersionV) : Prop := (entryBytes p).length < 2 ^ 32

variable {p : SerialisedEntry × VersionV} {state : State}

theorem Fits.entrySize_eq (h : Fits p) : entrySize p = (entryBytes p).length := by
  unfold Fits at h
  rw [length_entryBytes] at h ⊢
  rw [entrySize, getSerializedSizeWithPadding_eq (by omega), getSerializedSizeWithPadding_eq (by omega)]

variable (order : EntryOrder)

theorem serialize_eq (h : ∀ p ∈ state.toList, Fits p) :
    serialize order state = .ok ((order.1 state).flatMap entryBytes) := by
  have hperm := order.2 state
  have hfits : ∀ p ∈ order.1 state, Fits p := fun p hp => h p (hperm.mem_iff.1 hp)
  have hsizes : (order.1 state).map (fun p => entrySize p % 2 ^ 32) =
      (order.1 state).map fun p => (entryBytes p).length :=
    map_congr_left fun p hp => by
      rw [(hfits p hp).entrySize_eq]
      exact Nat.mod_eq_of_lt (hfits p hp)
  have hsize : getSerializedSize state = ((order.1 state).flatMap entryBytes).length := by
    rw [getSerializedSize, ← (hperm.map entrySize).sum_nat, length_flatMap]
    exact congrArg List.sum (map_congr_left fun p hp => (hfits p hp).entrySize_eq)
  simp only [serialize, hsizes, hsize, length_flatMap]
  rw [if_neg (by simp), if_neg (lt_irrefl _), if_neg (lt_irrefl _)]

theorem getSerializedSizeWithPadding_le (size : ℕ) : getSerializedSizeWithPadding size ≤ size + getPadding size := by
  have hpadding : getPadding (size % 2 ^ 32) = getPadding size := by simp [getPadding]
  have hle : size % 2 ^ 32 ≤ size := Nat.mod_le _ _
  simp only [getSerializedSizeWithPadding, hpadding]
  exact (Nat.mod_le _ _).trans (Nat.add_le_add_right hle _)

variable (p)

theorem entrySize_le : entrySize p % 2 ^ 32 ≤ (entryBytes p).length := by
  rw [length_entryBytes]
  exact (Nat.mod_le _ _).trans
    (Nat.add_le_add (getSerializedSizeWithPadding_le _) (getSerializedSizeWithPadding_le _))

variable {p} {x : VersionV} {c : Cursor}

/-- A map is serialised if and only if all its entries fit: one that does not makes the buffer too short. -/
theorem serialize_iff : (∃ bytes, serialize order state = .ok bytes) ↔ ∀ p ∈ state.toList, Fits p := by
  refine ⟨?_, fun h => ⟨_, serialize_eq order h⟩⟩
  rintro ⟨bytes, hbytes⟩ p hp
  by_contra h
  have hlt : ((order.1 state).map fun p => entrySize p % 2 ^ 32).sum < ((order.1 state).flatMap entryBytes).length := by
    rw [length_flatMap]
    refine sum_lt_sum _ _ (fun q _ => entrySize_le q) ⟨p, (order.2 state).mem_iff.2 hp, ?_⟩
    exact (Nat.mod_lt _ (by decide)).trans_le (not_lt.1 h)
  simp only [serialize] at hbytes
  split_ifs at hbytes

/-! ### Reading back -/

theorem parses_padding (size : ℕ) : Parses (Deserialiser.skip (getPadding size)) (padding size) (padding size) :=
  Deserialiser.parses_skip (by simp [padding])

theorem parses_readKey {key : SerialisedEntry} (h : key.length < 2 ^ 64) :
    Parses readKey (RawWriter.sizePrefixed key) key :=
  (parses_readEntry h).bind (parses_copy _ rfl)

theorem parses_readVersionV (hlen : 8 + x.value.length < 2 ^ 64) (hv : x.version < 2 ^ 64) :
    Parses readVersionV (leBytes 8 (8 + x.value.length) ++ (leBytes 8 x.version ++ x.value)) x := by
  refine (parses_readEntry hlen).bind ((parses_readEntry hv).bind ?_)
  rw [if_pos (Nat.le_add_right _ _), Nat.add_sub_cancel_left]
  have hcopy : Parses (Cursor.copy CodecFault.overrun x.value.length) x.value x.value := parses_copy _ rfl
  exact hcopy.map (Tagged.mk x.version)

theorem parses_entry (hkey : p.1.length < 2 ^ 64)
    (hvalue : 8 + p.2.value.length < 2 ^ 64) (hv : p.2.version < 2 ^ 64) : Parses readEntry (entryBytes p) p := by
  rw [entryBytes, keyBytes, valueBytes, append_assoc, ← append_assoc _ p.2.value, ← append_assoc (leBytes 8 _)]
  refine (parses_readKey hkey).bind ((parses_padding _).bind ((parses_readVersionV hvalue hv).bind ?_))
  rw [← append_nil (padding _)]
  exact (parses_padding _).bind (parses_pure p)

/-- The loop adds the entries in the order they were written. -/
theorem readEntries_eq {entries : List (SerialisedEntry × VersionV)} {fuel : ℕ}
    (hentries : ∀ p ∈ entries, p.1.length < 2 ^ 64 ∧ 8 + p.2.value.length < 2 ^ 64 ∧ p.2.version < 2 ^ 64)
    (hc : c.Ends (entries.flatMap entryBytes)) (hfuel : entries.length < fuel) :
    ∃ c', readEntries fuel state c = .ok (entries.foldl addEntry state, c') := by
  induction entries generalizing fuel state c with
  | nil =>
    obtain ⟨fuel, rfl⟩ : ∃ n, fuel = n + 1 := ⟨fuel - 1, by omega⟩
    have hzero : c.remainder = 0 := by
      have := hc.size
      rw [flatMap_nil, length_nil] at this
      rw [Cursor.remainder, if_pos (by omega)]
      omega
    refine ⟨c, ?_⟩
    rw [readEntries, remaining_bind, if_pos hzero]
    rfl
  | cons p entries ih =>
    obtain ⟨fuel, rfl⟩ : ∃ n, fuel = n + 1 := ⟨fuel - 1, by omega⟩
    obtain ⟨hkey, hvalue, hv⟩ := hentries p mem_cons_self
    have hread := (parses_entry hkey hvalue hv).ends hc
    have hne : c.remainder ≠ 0 := by
      obtain ⟨rest, hat⟩ := hc.at
      have hpos : 0 < (entryBytes p).length := by
        rw [length_entryBytes, keySize]
        omega
      have := hat.remainder.2
      omega
    obtain ⟨c', hrest⟩ : ∃ c', readEntries fuel (addEntry state p) (c.skip (entryBytes p).length) =
        .ok (entries.foldl addEntry (addEntry state p), c') :=
      ih (fun q hq => hentries q (mem_cons_of_mem _ hq)) hc.skip (by simpa using hfuel)
    refine ⟨c', ?_⟩
    rw [readEntries, remaining_bind, if_neg hne, bind_of_ok hread, hrest]
    rfl

/-- **A state is read as it was written**, in whatever order. -/
theorem deserializeMapSnapshot_serialize (hfits : ∀ p ∈ state.toList, Fits p)
    (hversions : ∀ p ∈ state.toList, p.2.version < 2 ^ 63) :
    deserializeMapSnapshot ((order.1 state).flatMap entryBytes) = .ok state := by
  have hperm := order.2 state
  have hbounds : ∀ p ∈ order.1 state, p.1.length < 2 ^ 64 ∧ 8 + p.2.value.length < 2 ^ 64 ∧ p.2.version < 2 ^ 64 := by
    intro p hp
    have hsize := hfits p (hperm.mem_iff.1 hp)
    have hversion := hversions p (hperm.mem_iff.1 hp)
    unfold Fits at hsize
    rw [length_entryBytes, keySize, valueSize] at hsize
    omega
  have hfuel := (MapBlock.length_flatMap_le (f := entryBytes)
    (fun p => by rw [length_entryBytes, keySize]; omega) (order.1 state)).1
  obtain ⟨c', hread⟩ : ∃ c', readEntries (((order.1 state).flatMap entryBytes).length + 1) ∅
      { memory := (order.1 state).flatMap entryBytes, size := ((order.1 state).flatMap entryBytes).length } =
        .ok ((order.1 state).foldl addEntry ∅, c') :=
    readEntries_eq hbounds ⟨⟨[], by simp [Cursor.rest]⟩, by simp⟩ (by omega)
  have hfold : (order.1 state).foldl addEntry ∅ = (order.1 state).foldl (fun t p => t.insert p.1 p.2) ∅ :=
    foldl_ext _ _ _ fun t p hp => if_pos (hversions p (hperm.mem_iff.1 hp))
  rw [deserializeMapSnapshot, hread, hfold, foldl_insert_of_perm hperm]
  rfl

end MapSnapshot
end Ccf.Kv
