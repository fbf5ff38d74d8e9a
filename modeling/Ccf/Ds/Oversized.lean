import Ccf.Ds.RingBuffer
import Ccf.Lib.Owned

/-! # Oversized messages (`src/ds/oversized.h`, `src/ds/non_blocking.h`)

An oversized writer splits a message that is too large into fragments for a non-blocking writer, which hands a message
on to the ring buffer, or keeps it in a queue if there is no room or the queue is not empty. The reader dispatches
a message to its handler, and a fragment to the reconstructor, which dispatches the whole message once it has it.

The ring buffer is as `Ccf.Ds.RingBufferExactlyOnce` shows it to be: reservations are finished in any order and handed
to the reader in theirs. Whether there is room for one, and the padding before it, are up to the environment. A step
of a writer is `prepare`, a section of the message passed to `write_bytes`, one round of its loop, or `finish`.
`sent`, `underway` and the writers that entries and messages belong to are history. -/

namespace Ccf.Oversized

open RingBuffer (Item word entrySize msgMin msgMax)

/-! ### Message types and sizes -/

/-- The FNV-1a hash of a name, in 32 bits. -/
def fnv1a (name : String) : ℕ :=
  name.toList.foldl (fun hash c => (hash ^^^ c.toNat) * 16777619 % 2 ^ 32) 0x811c9dc5

/-- `OversizedMessage::fragment`. -/
def fragment : ℕ := fnv1a "fragment"

/-- The size of `InitialFragmentHeader`: an identifier, a message type and a size, packed. -/
def headerSize : ℕ := 20

/-- The size of an identifier. -/
def idSize : ℕ := 8

/-- `WriterConfig`, with what the constructor of a writer checks. -/
structure WriterConfig where
  maxFragmentSize : ℕ
  maxTotalSize : ℕ
  fragment_lt : maxFragmentSize < maxTotalSize
  header_lt : headerSize < maxFragmentSize
  total_lt : maxTotalSize < 2 ^ 64

def initialFragmentHeader (identifier contained totalSize : ℕ) : List UInt8 :=
  leBytes 8 identifier ++ (leBytes 4 contained ++ leBytes 8 totalSize)

/-! ### Room for a message -/

/-- Where the bytes of a message are kept: in a reservation of the ring buffer, in a buffer of a non-blocking
writer, or, for a buffer of no bytes, nowhere. -/
inductive Base where
  | ring (start : ℕ)
  | heap (buffer : ℕ)
  | null
deriving DecidableEq

/-- A `WriteMarker`: the address of the next byte. -/
structure Marker where
  base : Base
  offset : ℕ
deriving DecidableEq

/-- A message of `size` bytes of which `written` have been written. -/
structure Slot where
  base : Base
  m : ℕ
  size : ℕ
  written : List UInt8
  finished : Bool
deriving DecidableEq

namespace Slot

/-- The address of its first byte. -/
def data (x : Slot) : Marker := ⟨x.base, 0⟩

def marker (x : Slot) : Marker := ⟨x.base, x.written.length⟩

def append (bytes : List UInt8) (x : Slot) : Slot := { x with written := x.written ++ bytes }

def finish (x : Slot) : Slot := { x with finished := true }

/-- The message, with zeros for bytes that have not been written. -/
def item (x : Slot) : Item := ⟨x.m, x.written ++ List.replicate (x.size - x.written.length) 0⟩

end Slot

/-! ### State -/

/-- The ring buffer: its tail, and the reservations that have not been read, each with its writer. -/
structure Ring where
  tail : ℕ
  entries : List (ℕ × Slot)
deriving DecidableEq

structure FragmentProgress where
  marker : Marker
  identifier : ℕ
  remainder : ℕ
deriving DecidableEq

/-- Where an oversized writer is: between two messages, in one that it hands on whole, or in one that it hands on in
fragments. `sections` are the bytes still to be passed to `write_bytes`, and `rest` those of the section it is in. -/
inductive Phase where
  | idle
  | whole (initial next : Marker) (sections : List (List UInt8))
  | parts (next : Marker) (progress : FragmentProgress) (rest : List UInt8) (sections : List (List UInt8))
deriving DecidableEq

/-- An oversized writer over a non-blocking writer. -/
structure Writer where
  phase : Phase
  pending : List Slot
  /-- The number of buffers allocated so far. -/
  buffers : ℕ
  /-- The messages that it has been asked to write. -/
  sent : List Item
deriving DecidableEq

structure PartialMessage where
  writer : ℕ
  m : ℕ
  totalSize : ℕ
  received : List UInt8
deriving DecidableEq

structure State where
  ring : Ring
  writers : ℕ → Writer
  partialMessages : ℕ → Option PartialMessage
  dispatched : List (ℕ × Item)
  /-- The messages in fragments that have been begun and not dispatched: writer and identifier. -/
  underway : List (ℕ × ℕ)
  /-- An exception has been thrown. -/
  failed : Bool

def init : State where
  ring := ⟨0, []⟩
  writers _ := ⟨.idle, [], 0, []⟩
  partialMessages _ := none
  dispatched := []
  underway := []
  failed := false

namespace State

variable (s : State)

def setWriter (w : ℕ) (f : Writer → Writer) : State :=
  { s with writers := Function.update s.writers w (f (s.writers w)) }

def setPhase (w : ℕ) (phase : Phase) : State := s.setWriter w fun x => { x with phase := phase }

/-- An exception leaves the state as it is. -/
def orFail (s' : Option State) : State := s'.getD { s with failed := true }

/-! ### The non-blocking writer -/

/-- A reservation of the ring buffer. -/
def reserve (w m size padding : ℕ) : State × Marker × ℕ :=
  let x : Slot := ⟨.ring s.ring.tail, m, size, [], false⟩
  ({ s with ring := ⟨s.ring.tail + entrySize size + padding, s.ring.entries ++ [(w, x)]⟩ }, x.data, word s.ring.tail)

/-- A message in the queue. The identifier is left at 0. -/
def enqueue (w m size : ℕ) : State × Marker × ℕ :=
  let buffer := (s.writers w).buffers
  let x : Slot := ⟨if size = 0 then .null else .heap buffer, m, size, [], false⟩
  (s.setWriter w fun wr => { wr with pending := wr.pending ++ [x], buffers := buffer + 1 }, x.data, 0)

/-- `NonBlockingWriter::prepare`, with the marker and the identifier that it gives. -/
def prepare (w m size : ℕ) (room : Option ℕ) : State × Marker × ℕ :=
  match (s.writers w).pending, room with
  | [], some padding => s.reserve w m size padding
  | _, _ => s.enqueue w m size

/-- Change the first message in the queue of writer `w` that meets `here`, or else the reservation that does. -/
def update (w : ℕ) (here : Slot → Bool) (f : Slot → Slot) : State :=
  if (s.writers w).pending.any here then s.setWriter w fun wr => { wr with pending := updateFirst here f wr.pending }
  else
    { s with ring := { s.ring with
        entries := updateFirst (fun e => here e.2) (fun e => (e.1, f e.2)) s.ring.entries } }

/-- `NonBlockingWriter::write_bytes`. It throws if the bytes are too many for the buffer of a message in the queue. -/
def writeBytes (w : ℕ) (marker : Marker) (bytes : List UInt8) : Option (State × Marker) :=
  let here := fun x : Slot => !x.finished && x.marker == marker
  if ((s.writers w).pending.find? here).any fun x => x.written.length + bytes.length > x.size then none
  else some (s.update w here (Slot.append bytes), ⟨marker.base, marker.offset + bytes.length⟩)

/-- `NonBlockingWriter::finish`. -/
def finish (s : State) (w : ℕ) (marker : Marker) : State := s.update w (fun x => x.data == marker) Slot.finish

/-- A round of the loop of `try_flush_pending`. -/
def flush (w : ℕ) (room : Option ℕ) : State :=
  match (s.writers w).pending, room with
  | x :: pending, some padding =>
    if x.finished then
      let s' := s.setWriter w fun wr => { wr with pending := pending }
      let y : Slot := ⟨.ring s.ring.tail, x.m, x.size, x.item.data, true⟩
      { s' with ring := ⟨s.ring.tail + entrySize x.size + padding, s.ring.entries ++ [(w, y)]⟩ }
    else s
  | _, _ => s

/-! ### The oversized writer -/

/-- History of a message that has been begun. -/
def begin (w : ℕ) (item : Item) (identifiers : List ℕ) (phase : Phase) : State :=
  { s.setWriter w fun wr => { wr with phase := phase, sent := wr.sent ++ [item] } with
    underway := s.underway ++ identifiers.map fun identifier => (w, identifier) }

variable (cfg : WriterConfig)

/-- `Writer::prepare`, for a message with the given sections. -/
def prepareMessage (s : State) (w m : ℕ) (sections : List (List UInt8)) (room : Option ℕ) : State :=
  let totalSize := sections.flatten.length
  if (s.writers w).phase ≠ .idle ∨ ¬(msgMin ≤ m ∧ m ≤ msgMax) ∨ totalSize > cfg.maxTotalSize then s
  else if totalSize ≤ cfg.maxFragmentSize then
    let (s', marker, _) := s.prepare w m totalSize room
    s'.begin w ⟨m, sections.flatten⟩ [] (.whole marker marker sections)
  else
    let (s', marker, identifier) := s.prepare w fragment cfg.maxFragmentSize room
    s.orFail ((s'.writeBytes w marker (initialFragmentHeader identifier m totalSize)).map fun (s'', next) =>
      s''.begin w ⟨m, sections.flatten⟩ [identifier]
        (.parts next ⟨marker, identifier, cfg.maxFragmentSize - headerSize⟩ [] sections))

/-- A round of the loop of `Writer::write_bytes`: a new fragment for the bytes that do not fit in the current one. -/
def nextFragment (s : State) (w : ℕ) (progress : FragmentProgress) (rest : List UInt8)
    (sections : List (List UInt8)) (room : Option ℕ) : State :=
  let fragSize := min (rest.length + idSize) cfg.maxFragmentSize
  let writeSize := fragSize - idSize
  let (s', marker, _) := s.prepare w fragment fragSize room
  s.orFail do
    let (s', next) ← (s'.finish w progress.marker).writeBytes w marker (leBytes 8 progress.identifier)
    let (s', next) ← s'.writeBytes w next (rest.take writeSize)
    return s'.setPhase w (.parts next ⟨marker, progress.identifier, 0⟩ (rest.drop writeSize) sections)

/-- `Writer::write_bytes` up to its loop, for the next section, or a round of the loop. -/
def writeSection (s : State) (w : ℕ) (room : Option ℕ) : State :=
  match (s.writers w).phase with
  | .whole initial next (bytes :: sections) =>
    s.orFail ((s.writeBytes w next bytes).map fun (s', next) => s'.setPhase w (.whole initial next sections))
  | .parts next progress [] (bytes :: sections) =>
    let writeSize := min bytes.length progress.remainder
    s.orFail ((s.writeBytes w next (bytes.take writeSize)).map fun (s', next) =>
      s'.setPhase w (.parts next { progress with remainder := progress.remainder - writeSize } (bytes.drop writeSize)
        sections))
  | .parts _ progress (b :: rest) sections => s.nextFragment cfg w progress (b :: rest) sections room
  | _ => s

/-- `Writer::finish`. -/
def finishMessage (w : ℕ) : State :=
  match (s.writers w).phase with
  | .whole initial _ [] => (s.finish w initial).setPhase w .idle
  | .parts _ progress [] [] =>
    if progress.remainder ≠ 0 then { s with failed := true } else (s.finish w progress.marker).setPhase w .idle
  | _ => s

end State

/-! ### The reconstructor -/

/-- A fragment without its identifier: the rest of the header, if the message is not known, and then bytes of it. -/
def absorb (found : Option PartialMessage) (w : ℕ) (data : List UInt8) : Option PartialMessage :=
  match found with
  | some p =>
    if data.length + p.received.length > p.totalSize then none else some { p with received := p.received ++ data }
  | none =>
    let totalSize := ofLeBytes ((data.drop 4).take 8)
    let payload := data.drop 12
    if data.length < 12 ∨ payload.length > totalSize then none
    else some ⟨w, ofLeBytes (data.take 4), totalSize, payload⟩

namespace State

variable (s : State)

/-- The reader dispatches a message. -/
def dispatch (w : ℕ) (item : Item) : State := { s with dispatched := s.dispatched ++ [(w, item)] }

/-- What the reader does with a message of writer `w`. -/
def handle (w : ℕ) (item : Item) : State :=
  if item.m = fragment then
    let identifier := ofLeBytes (item.data.take idSize)
    if item.data.length < idSize then { s with failed := true }
    else
      match absorb (s.partialMessages identifier) w (item.data.drop idSize) with
      | none => { s with failed := true }
      | some p =>
        if p.received.length = p.totalSize then
          { s.dispatch p.writer ⟨p.m, p.received⟩ with
            partialMessages := Function.update s.partialMessages identifier none
            underway := s.underway.erase (p.writer, identifier) }
        else { s with partialMessages := Function.update s.partialMessages identifier (some p) }
  else s.dispatch w item

/-- The reader goes on to the next reservation, if it is finished. -/
def read : State :=
  match s.ring.entries with
  | (w, x) :: entries =>
    if x.finished then State.handle { s with ring := { s.ring with entries := entries } } w x.item else s
  | [] => s

end State

/-! ### Runs -/

inductive Action where
  | prepare (w m : ℕ) (sections : List (List UInt8)) (room : Option ℕ)
  | write (w : ℕ) (room : Option ℕ)
  | finish (w : ℕ)
  | flush (w : ℕ) (room : Option ℕ)
  | read
deriving DecidableEq

/-- The action is not one of an oversized writer. -/
def Action.IsDelivery : Action → Prop
  | .flush _ _ | .read => True
  | _ => False

def step (cfg : WriterConfig) (s : State) : Action → State
  | .prepare w m sections room => s.prepareMessage cfg w m sections room
  | .write w room => s.writeSection cfg w room
  | .finish w => s.finishMessage w
  | .flush w room => s.flush w room
  | .read => s.read

abbrev run (cfg : WriterConfig) (s : State) (actions : List Action) : State := Runs.exec (step cfg) s actions

/-- The messages of writer `w` that handlers have seen. -/
def State.seen (s : State) (w : ℕ) : List Item := ofOwner w s.dispatched

/-- What the writers promise. -/
structure State.Intact (cfg : WriterConfig) (s : State) : Prop where
  no_exception : s.failed = false
  /-- Handlers have seen messages of a writer as they were written, once and in their order. -/
  in_order : ∀ w, s.seen w <+: (s.writers w).sent
  /-- Handlers will see all of them, once no message is being written. -/
  complete : (∀ w, (s.writers w).phase = .idle) → ∀ w, ∃ actions, (∀ a ∈ actions, a.IsDelivery) ∧
    (run cfg s actions).seen w = (s.writers w).sent

end Ccf.Oversized
