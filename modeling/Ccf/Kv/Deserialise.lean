import Mathlib.Algebra.Group.Nat.Defs
import Ccf.Kv.Store

/-! # Committing deserialised transactions

`Store::fill_maps` and `commit_deserialised` on the store: the local commits that did not propagate are rolled back,
every map block of the entry becomes a change set, on a new map where the store has none, and the change sets are
committed at the version of the entry. -/

namespace Ccf.Kv

open Versioned
open Std (ExtTreeMap)

/-- The content of one map in a serialised transaction. -/
structure MapBlock where
  name : Name
  readVersion : ℕ := noVersion
  reads : List (SerialisedEntry × ℕ) := []
  puts : List (SerialisedEntry × SerialisedEntry) := []
  removes : List SerialisedEntry := []
deriving DecidableEq

namespace MapBlock

/-- The writes of a block; a key that is removed is not written. -/
def writes (b : MapBlock) : Write :=
  let puts := b.puts.foldl (fun (w : Write) p => w.insert p.1 (some p.2)) ∅
  b.removes.foldl (fun w key => w.insert key none) puts

/-- `deserialise_internal` on the change set created for the block. -/
def fill (b : MapBlock) (cs : ChangeSet) : ChangeSet :=
  { cs with
    readVersion := if b.readVersion ≠ noVersion then b.readVersion else cs.readVersion
    reads := b.reads.foldl (fun reads p => reads.insert p.1 p.2) cs.reads
    writes := b.writes }

end MapBlock

/-- The writes of the blocks of an entry to each map. -/
def blockWrites (blocks : List MapBlock) (name : Name) : Write :=
  (blocks.find? fun b => b.name == name).elim ∅ MapBlock.writes

/-- `v - 1` on 64 bits. -/
def previousVersion (v : ℕ) : ℕ := if v = 0 then 2 ^ 64 - 1 else v - 1

/-- The changes that `fill_maps` collects; those on new maps have no reference. -/
abbrev Filling := ExtTreeMap Name (Option ℕ × ChangeSet)

/-- The result of adding blocks: the changes so far, a refusal (`return false`), or an exception. -/
inductive Filled where
  | next (f : Filling)
  | refused
  | raised

namespace Filling

/-- One block of the loop of `fill_maps`. A name that came before is refused; a version that is too early
for the map throws. -/
def addBlock (f : Filling) (s : Store) (v : ℕ) (b : MapBlock) : Filled :=
  if b.name ∈ f then .refused
  else
    let r := s.getMap v b.name
    match (s.obj r).roll.createChangeSet v false with
    | none => .raised
    | some cs => .next (f.insert b.name (r, b.fill cs))

def addBlocks (s : Store) (v : ℕ) : List MapBlock → Filling → Filled
  | [], f => .next f
  | b :: blocks, f =>
    match f.addBlock s v b with
    | .next f => addBlocks s v blocks f
    | .refused => .refused
    | .raised => .raised

def views (f : Filling) : Views := f.toList.map fun p => (p.1, p.2.1, p.2.2.committer)

end Filling

namespace Store

/-- Throw away the local commits from version `v` on. -/
def forget (s : Store) (v : ℕ) : Except Fault Store :=
  s.rollback ⟨s.termOfLastVersion, previousVersion v⟩ s.termOfNextVersion

/-- `commit_deserialised`: whether the changes were committed. -/
def commitDeserialised (s : Store) (f : Filling) (v : ℕ) (term : ℕ) (trackDeletesOnMissingKeys : Bool) :
    Except Fault (Bool × Store) := do
  match ← s.applyChanges f.views (fun s => (v, s)) trackDeletesOnMissingKeys none with
  | (none, s) => .ok (false, s)
  | (some _, s) => .ok (true, { s with version := v, lastReplicated := v, termOfLastVersion := term })

/-- Deserialise and commit the blocks of an entry: whether it was committed, and the store after it. -/
def applyBlocks (s : Store) (v : ℕ) (term : ℕ) (blocks : List MapBlock) : Bool × Store :=
  match s.forget v with
  | .error _ => (false, s)
  | .ok s =>
    match Filling.addBlocks s v blocks ∅ with
    | .next f =>
      match s.commitDeserialised f v term false with
      | .ok (committed, s) => (committed, s)
      | .error _ => (false, s)
    | _ => (false, s)

end Store
end Ccf.Kv
