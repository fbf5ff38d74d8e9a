import Mathlib.Data.List.DropRight
import Ccf.Lib.Versioned

/-! # Maps of the key-value store

The untyped map of `untyped_map.h`: a roll of local commits (`LocalCommits`), each with its version, the state after
it and its write set, with the operations of `Map` and of its committers. A handle (`untyped_map_handle.cpp`) works
on a `ChangeSet`, the state it reads from with what it reads and writes. The roll is never empty: it is a first commit,
the head, and the list of the later ones. -/

namespace Ccf.Kv

open Versioned
open Std (ExtTreeMap)

/-- `NoVersion`. -/
def noVersion : ℕ := 0

/-- `ccf::ByteVector`. -/
abbrev SerialisedEntry := List UInt8

/-- The name of a map, a string of bytes. -/
abbrev Name := List UInt8

abbrev VersionV := Tagged SerialisedEntry

abbrev State := Table SerialisedEntry SerialisedEntry

abbrev Write := Delta SerialisedEntry SerialisedEntry

/-- The write sets of the versions of a store, by map. -/
abbrev WriteHistory := History Name SerialisedEntry SerialisedEntry

/-- The versions of the keys read, `noVersion` for a key that was absent. -/
abbrev Read := ExtTreeMap SerialisedEntry ℕ

instance : DecidableEq State := inferInstance

instance : DecidableEq Write := inferInstance

structure LocalCommit where
  version : ℕ := 0
  state : State := ∅
  writes : Write := ∅
deriving DecidableEq

structure Roll where
  head : LocalCommit := {}
  later : List LocalCommit := []
  rollbackCounter : ℕ := 0
deriving DecidableEq

/-! ### Change sets and handles -/

/-- `ChangeSet`: a state with the reads and writes made on it. -/
structure ChangeSet where
  rollbackCounter : ℕ := 0
  state : State := ∅
  committed : State := ∅
  startVersion : ℕ := 0
  readVersion : ℕ := noVersion
  reads : Read := ∅
  writes : Write := ∅
deriving DecidableEq

/-- The operations of a map handle. -/
inductive Op where
  | get (key : SerialisedEntry)
  | has (key : SerialisedEntry)
  | getVersionOfPreviousWrite (key : SerialisedEntry)
  | getGloballyCommitted (key : SerialisedEntry)
  | foreach
  | size
  | range (lower upper : Option SerialisedEntry)
  | put (key value : SerialisedEntry)
  | remove (key : SerialisedEntry)
  | clear
deriving DecidableEq

/-- What an operation returns: a value, whether a key is there, a version, the elements visited, a number of
elements, or nothing. -/
inductive Result where
  | value (v : Option SerialisedEntry)
  | found (b : Bool)
  | version (v : Option ℕ)
  | elements (l : List (SerialisedEntry × SerialisedEntry))
  | count (n : ℕ)
  | unit
deriving DecidableEq

namespace ChangeSet

variable (cs : ChangeSet)

def hasWrites : Bool := !cs.writes.isEmpty

/-- Record the dependency on what the state has at `key`; the first record of a key stays. -/
def recordRead (key : SerialisedEntry) : ChangeSet :=
  { cs with reads := cs.reads.insertIfNew key (cs.state[key]?.elim noVersion Tagged.version) }

/-- `read_key`: an own write first, and otherwise the state with a read dependency. -/
def readKey (key : SerialisedEntry) : Option SerialisedEntry × ChangeSet :=
  match cs.writes[key]? with
  | some w => (w, cs)
  | none => (cs.state[key]?.map Tagged.value, cs.recordRead key)

/-- The elements `foreach_state_and_writes` visits: those of the state that the transaction has not
written, and then its own. -/
def elements : List (SerialisedEntry × SerialisedEntry) :=
  (cs.state.toList.filterMap fun p => if p.1 ∈ cs.writes then none else some (p.1, p.2.value)) ++
    cs.writes.toList.filterMap fun p => p.2.map fun v => (p.1, v)

/-- The dependency of `foreach_state_and_writes` on the whole map. -/
def recordAll : ChangeSet := { cs with readVersion := cs.startVersion }

def put (key value : SerialisedEntry) : ChangeSet :=
  { cs with writes := cs.writes.insert key (some value) }

def remove (key : SerialisedEntry) : ChangeSet := { cs with writes := cs.writes.insert key none }

def getVersionOfPreviousWrite (key : SerialisedEntry) : Option ℕ × ChangeSet :=
  (cs.state[key]?.map Tagged.version, cs.recordRead key)

def getGloballyCommitted (key : SerialisedEntry) : Option SerialisedEntry :=
  cs.committed[key]?.map Tagged.value

/-- Whether `key` lies in the range; `upper` is excluded. -/
def inRange (lower upper : Option SerialisedEntry) (key : SerialisedEntry) : Bool :=
  lower.all (fun l => !(compare key l).isLT) && upper.all (fun u => (compare key u).isLT)

/-- `range`: a range that is empty by its bounds is not looked up at all. -/
def range (lower upper : Option SerialisedEntry) :
    List (SerialisedEntry × SerialisedEntry) × ChangeSet :=
  if lower.any (fun l => upper.any fun u => !(compare l u).isLT) then ([], cs)
  else ((ExtTreeMap.ofList (cs.elements.filter fun p => inRange lower upper p.1)).toList, cs.recordAll)

/-- One operation of the handle. -/
def run : Op → Result × ChangeSet
  | .get key => (.value (cs.readKey key).1, (cs.readKey key).2)
  | .has key => (.found (cs.readKey key).1.isSome, (cs.readKey key).2)
  | .getVersionOfPreviousWrite key =>
    (.version (cs.getVersionOfPreviousWrite key).1, (cs.getVersionOfPreviousWrite key).2)
  | .getGloballyCommitted key => (.value (cs.getGloballyCommitted key), cs)
  | .foreach => (.elements cs.elements, cs.recordAll)
  | .size => (.count cs.elements.length, cs.recordAll)
  | .range lower upper => (.elements (cs.range lower upper).1, (cs.range lower upper).2)
  | .put key value => (.unit, cs.put key value)
  | .remove key => (.unit, cs.remove key)
  | .clear => (.unit, cs.elements.foldl (fun c p => c.remove p.1) cs.recordAll)

end ChangeSet

/-! ### Rolls -/

namespace Roll

variable (r : Roll)

def commits : List LocalCommit := r.head :: r.later

def tail : LocalCommit := r.later.getLastD r.head

/-- The last entry committed at or before a version. -/
def find? (r : Roll) (v : ℕ) : Option LocalCommit := r.commits.reverse.find? (·.version ≤ v)

/-- `Map::create_change_set`. No change set means that the version is earlier than anything in the
roll. -/
def createChangeSet (v : ℕ) (trackDeletesOnMissingKeys : Bool) : Option ChangeSet :=
  (r.find? v).map fun current =>
    { rollbackCounter := r.rollbackCounter
      state := current.state
      committed := r.head.state
      startVersion := current.version
      writes := if trackDeletesOnMissingKeys then current.writes else ∅ }

/-- `HandleCommitter::prepare`. -/
def prepare (cs : ChangeSet) : Bool :=
  cs.rollbackCounter == r.rollbackCounter &&
    (cs.readVersion == noVersion || cs.readVersion == r.tail.version) &&
    cs.reads.toList.all fun p =>
      if p.2 = noVersion then r.tail.state[p.1]?.isNone
      else r.tail.state[p.1]?.any fun found => p.2 == found.version

/-- One write of `HandleCommitter::commit`, with whether anything has changed. -/
def writeKey (v : ℕ) (trackDeletesOnMissingKeys : Bool) (acc : State × Bool)
    (p : SerialisedEntry × Option SerialisedEntry) : State × Bool :=
  match p.2 with
  | some value => (acc.1.insert p.1 ⟨v, value⟩, true)
  | none =>
    match acc.1[p.1]? with
    | some _ => (acc.1.erase p.1, true)
    | none => (acc.1, acc.2 || trackDeletesOnMissingKeys)

/-- `HandleCommitter::commit`: no local commit is added when nothing changes. -/
def commit (writes : Write) (v : ℕ) (trackDeletesOnMissingKeys : Bool) : Roll :=
  if writes.isEmpty then r
  else
    let acc := writes.toList.foldl (writeKey v trackDeletesOnMissingKeys) (r.tail.state, false)
    if acc.2 then { r with later := r.later ++ [⟨v, acc.1, writes⟩] } else r

/-- `Map::rollback`: the commits after `v` are popped from the tail; the head stays. -/
def rollback (v : ℕ) : Roll :=
  let later := r.later.rdropWhile fun c => v < c.version
  { r with
    later := later
    rollbackCounter := if later.length < r.later.length then r.rollbackCounter + 1 else r.rollbackCounter }

end Roll

/-! ### Map objects -/

/-- A `Map` object. `globalHook` tells whether a global hook is set; `locked` whether its lock is held
between two operations. -/
structure Map where
  roll : Roll := {}
  globalHook : Bool := false
  commitDeltas : List (ℕ × Write) := []
  locked : Bool := false
deriving DecidableEq

namespace Map

/-- Move the write set of `r` to the commit deltas, if there is a hook and `due` holds. -/
def takeDelta (globalHook due : Bool) (r : LocalCommit) (deltas : List (ℕ × Write)) :
    LocalCommit × List (ℕ × Write) :=
  if globalHook && due then ({ r with writes := ∅ }, deltas ++ [(r.version, r.writes)]) else (r, deltas)

/-- The loop of `Map::compact` on the head, the later commits and the commit deltas. -/
def compactLoop (globalHook : Bool) (v : ℕ) :
    LocalCommit → List LocalCommit → List (ℕ × Write) →
      LocalCommit × List LocalCommit × List (ℕ × Write)
  | r, [], deltas =>
    let (r, deltas) := takeDelta globalHook (!r.writes.isEmpty) r deltas
    (r, [], deltas)
  | r, next :: later, deltas =>
    if r.version = v then
      -- the source takes the write set to be non-empty here and does not test it
      let (r, deltas) := takeDelta globalHook true r deltas
      (r, next :: later, deltas)
    else
      let (r, deltas) := takeDelta globalHook (!r.writes.isEmpty) r deltas
      if v < next.version then (r, next :: later, deltas) else compactLoop globalHook v next later deltas

variable (m : Map)

def compact (v : ℕ) : Map :=
  let (head, later, deltas) := compactLoop m.globalHook v m.roll.head m.roll.later m.commitDeltas
  { m with roll := { m.roll with head := head, later := later }, commitDeltas := deltas }

/-- The hook calls of `post_compact`. -/
def hookCalls : List (ℕ × Write) := if m.globalHook then m.commitDeltas else []

def postCompact : Map := { m with commitDeltas := [] }

def rollback (m : Map) (v : ℕ) : Map := { m with roll := m.roll.rollback v }

end Map
end Ccf.Kv
