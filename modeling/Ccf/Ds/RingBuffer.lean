import Ccf.Lib.Memory
import Ccf.Lib.Runs

/-! # The ring buffer (`src/ds/ring_buffer.h`)

Any number of writers reserve room in a buffer, fill it in and mark it as finished; one reader hands finished messages
to its handler, clears them and gives the room back. The steps of both are the atomic loads, stores and exchanges of
the source, each with the local computation up to the next one; copies of message bytes and the clearing of memory are
steps of their own.

`head`, `head_cache`, `tail` and the copies of them in local variables are kept as the number of bytes since the start.
The code has them modulo `2^64`, and all it does with them goes through `word`, `wordSub` and `index`.
`reservations`, `finished` and `delivered` are history variables. -/

namespace Ccf.RingBuffer

/-! ### Constants and headers -/

/-- The high bit of a length indicates a pending message. -/
def pendingWriteFlag : ℕ := 2 ^ 31

def msgNone : ℕ := 0

def msgMin : ℕ := 1

def msgMax : ℕ := 2 ^ 32 - 2

def msgPad : ℕ := 2 ^ 32 - 1

def headerSize : ℕ := 8

def alignSize (n : ℕ) : ℕ := (n + (headerSize - 1)) / headerSize * headerSize

def entrySize (n : ℕ) : ℕ := alignSize (n + headerSize)

def maxSize : ℕ := 2 ^ 31 - 1 - headerSize

def maxReservationSize (bufferSize : ℕ) : ℕ := bufferSize / 2

/-- The message above the length, with the pending bit in the length. -/
def makeHeader (m size : ℕ) (pending : Bool) : ℕ :=
  m * 2 ^ 32 + (size % pendingWriteFlag + if pending then pendingWriteFlag else 0)

def message (header : ℕ) : ℕ := header / 2 ^ 32

def length (header : ℕ) : ℕ := header % 2 ^ 32

/-! ### Offsets -/

def word (x : ℕ) : ℕ := x % 2 ^ 64

/-- The difference of two words. -/
def wordSub (x y : ℕ) : ℕ := (word x + 2 ^ 64 - word y) % 2 ^ 64

/-- `x & mask`, the index of an offset in a buffer of the given size. -/
def index (size x : ℕ) : ℕ := word x &&& (size - 1)

def greaterWithWraparound (a b : ℕ) : Prop := word a ≠ word b ∧ wordSub a b < (2 ^ 64 - 1) / 2

instance (a b : ℕ) : Decidable (greaterWithWraparound a b) := inferInstanceAs (Decidable (_ ∧ _))

/-! ### Messages -/

/-- A message and its bytes. -/
structure Item where
  m : ℕ
  data : List UInt8
deriving DecidableEq

/-- The room a message needs. -/
def Item.room (item : Item) : ℕ := entrySize item.data.length

/-- What `prepare` checks before it reserves room in a buffer of the given size. -/
def Item.Writable (size : ℕ) (item : Item) : Prop :=
  msgMin ≤ item.m ∧ item.m ≤ msgMax ∧ item.data.length ≤ maxSize ∧ item.room ≤ maxReservationSize size

instance (size : ℕ) (item : Item) : Decidable (item.Writable size) := inferInstanceAs (Decidable (_ ∧ _))

/-- What a writer has been asked to do. -/
structure Job where
  item : Item
  wait : Bool
deriving DecidableEq

/-! ### Programs -/

/-- Where a writer is, named after what it does next, with its local variables. `start` is where its
reservation begins. -/
inductive Writer where
  | idle
  | loadCache (job : Job)
  | loadTail (job : Job) (hd : ℕ)
  | loadHead (job : Job) (tl tlIndex padding : ℕ)
  | storeCache (job : Job) (hd tl : ℕ)
  | reloadHead (job : Job) (tl : ℕ)
  | restoreCache (job : Job) (hd tl : ℕ)
  | exchange (job : Job) (hd tl tlIndex padding : ℕ)
  | writePadding (job : Job) (start tlIndex padding : ℕ)
  | writeHeader (job : Job) (start index : ℕ)
  | writeData (job : Job) (start index written : ℕ)
  | finishRead (job : Job) (start index : ℕ)
  | finishWrite (job : Job) (start index header : ℕ)
  | failed
deriving DecidableEq

inductive Reader where
  | idle
  | loadHead (limit : ℕ)
  | readHeader (limit hd advance count : ℕ)
  | handle (limit hd advance count m size : ℕ)
  | clear (hd advance : ℕ)
  | storeHead (hd advance : ℕ)
  | failed
deriving DecidableEq

/-- A successful exchange of the tail by `writer`: from `start` on, padding up to the end of the buffer if there
is any, and then the room for the message. -/
structure Reservation where
  writer : ℕ
  item : Item
  start : ℕ
  padding : ℕ
deriving DecidableEq

structure State where
  head : ℕ
  tail : ℕ
  headCache : ℕ
  mem : Mem
  writers : ℕ → Writer
  reader : Reader
  reservations : List Reservation
  finished : List ℕ
  delivered : List Item

/-- An empty buffer whose offsets are at `start`. -/
def init (start : ℕ) : State where
  head := start
  tail := start
  headCache := start
  mem _ := 0
  writers _ := .idle
  reader := .idle
  reservations := []
  finished := []
  delivered := []

namespace Writer

variable (size : ℕ)

/-- The second half of the loop of `reserve`, with a head that leaves enough room in total. -/
def place (job : Job) (hd tl : ℕ) : Writer :=
  let tlIndex := RingBuffer.index size tl
  let block := size - tlIndex
  if job.item.room > block then
    if job.item.room > RingBuffer.index size hd then .reloadHead job tl
    else .exchange job hd tl tlIndex block
  else .exchange job hd tl tlIndex 0

/-- The first half of the loop of `reserve`. -/
def attempt (job : Job) (hd tl tlIndex padding : ℕ) : Writer :=
  let gap := wordSub tl hd
  let avail := wordSub size gap
  if gap > size ∨ job.item.room > avail then .loadHead job tl tlIndex padding
  else place size job hd tl

/-- No room: `prepare` tries again if it has been asked to wait. -/
def noRoom (job : Job) : Writer := if job.wait then .loadCache job else .idle

end Writer

namespace Reader

/-- The condition of the loop of `read`, and what follows the loop. -/
def loop (size limit hd advance count : ℕ) : Reader :=
  let block := size - index size hd
  if advance < block ∧ count < limit then .readHeader limit hd advance count
  else if advance > 0 then .clear hd advance
  else .idle

end Reader

namespace State

variable (size : ℕ) (s : State)

def setWriter (i : ℕ) (w : Writer) : State := { s with writers := Function.update s.writers i w }

/-- Writer `i` stores bytes, if they are inside the buffer. -/
def store (i index : ℕ) (bytes : List UInt8) (next : Writer) : State :=
  if index + bytes.length > size then s.setWriter i .failed
  else { s.setWriter i next with mem := s.mem.write index bytes }

/-- The tail is still what writer `i` has loaded, and is moved behind the reservation. -/
def reserve (i : ℕ) (job : Job) (tlIndex padding : ℕ) : State :=
  let next := if padding ≠ 0 then .writePadding job s.tail tlIndex padding else .writeHeader job s.tail tlIndex
  { s.setWriter i next with
    tail := s.tail + job.item.room + padding
    reservations := s.reservations ++ [⟨i, job.item, s.tail, padding⟩] }

/-- The next step of writer `i`. The exchange of the tail is a weak one and may fail spuriously; message bytes
are written in chunks of any size. -/
def stepWriter (i : ℕ) (spurious : Bool) (chunk : ℕ) : State :=
  match s.writers i with
  | .idle | .failed => s
  | .loadCache job => s.setWriter i (.loadTail job s.headCache)
  | .loadTail job hd => s.setWriter i (Writer.attempt size job hd s.tail 0 0)
  | .loadHead job tl tlIndex padding =>
    let hd := s.head
    if greaterWithWraparound hd tl then s.setWriter i (.exchange job hd tl tlIndex padding)
    else if job.item.room > wordSub size (wordSub tl hd) then s.setWriter i (Writer.noRoom job)
    else s.setWriter i (.storeCache job hd tl)
  | .storeCache job hd tl => { s.setWriter i (Writer.place size job hd tl) with headCache := hd }
  | .reloadHead job tl =>
    let hd := s.head
    if job.item.room > index size hd then s.setWriter i (Writer.noRoom job)
    else s.setWriter i (.restoreCache job hd tl)
  | .restoreCache job hd tl =>
    let tlIndex := index size tl
    { s.setWriter i (.exchange job hd tl tlIndex (size - tlIndex)) with headCache := hd }
  | .exchange job hd tl tlIndex padding =>
    if word s.tail = word tl ∧ ¬spurious then s.reserve i job tlIndex padding
    else s.setWriter i (Writer.attempt size job hd s.tail tlIndex padding)
  | .writePadding job start tlIndex padding =>
    s.store size i tlIndex (leBytes 8 (makeHeader msgPad (padding - headerSize) false)) (.writeHeader job start 0)
  | .writeHeader job start index =>
    s.store size i index (leBytes 8 (makeHeader job.item.m job.item.data.length true)) (.writeData job start index 0)
  | .writeData job start index written =>
    let bytes := (job.item.data.drop written).take chunk
    let written' := written + bytes.length
    let next := if written' = job.item.data.length then .finishRead job start index
      else .writeData job start index written'
    s.store size i (index + headerSize + written) bytes next
  | .finishRead job start index =>
    if index + 8 > size then s.setWriter i .failed
    else s.setWriter i (.finishWrite job start index (s.mem.read64 index))
  | .finishWrite _ start index header =>
    if index + 8 > size then s.setWriter i .failed
    else
      { s.store size i index (leBytes 8 (makeHeader (message header) (length header) false)) .idle with
        finished := s.finished ++ [start] }

/-- The next step of the reader. -/
def stepReader : State :=
  match s.reader with
  | .idle | .failed => s
  | .loadHead limit => { s with reader := Reader.loop size limit s.head 0 0 }
  | .readHeader limit hd advance count =>
    let msgIndex := index size hd + advance
    if msgIndex + 8 > size then { s with reader := .failed }
    else
      let header := s.mem.read64 msgIndex
      let len := length header
      let m := message header
      if len ≥ pendingWriteFlag ∨ m = msgNone then
        { s with reader := if advance > 0 then .clear hd advance else .idle }
      else if m = msgPad then { s with reader := Reader.loop size limit hd (advance + (headerSize + len)) count }
      else { s with reader := .handle limit hd advance count m len }
  | .handle limit hd advance count m len =>
    let advance' := advance + entrySize len
    if index size hd + advance' > size then { s with reader := .failed }
    else
      { s with
        reader := Reader.loop size limit hd advance' (count + 1)
        delivered := s.delivered ++ [⟨m, s.mem.read (index size hd + advance + headerSize) len⟩] }
  | .clear hd advance =>
    if index size hd + advance > size then { s with reader := .failed }
    else { s with reader := .storeHead hd advance, mem := s.mem.clear (index size hd) advance }
  | .storeHead hd advance => { s with reader := .idle, head := hd + advance }

end State

inductive Action where
  /-- Writer `i` is asked to write a message. -/
  | prepare (i : ℕ) (item : Item) (wait : Bool)
  | writer (i : ℕ) (spurious : Bool) (chunk : ℕ)
  /-- The reader is asked to read. -/
  | read (limit : ℕ)
  | reader
deriving DecidableEq

/-- The action is one of the reader. -/
def Action.IsReader : Action → Prop
  | .read _ | .reader => True
  | _ => False

def step (size : ℕ) (s : State) : Action → State
  | .prepare i item wait =>
    if s.writers i = .idle ∧ item.Writable size then s.setWriter i (.loadCache ⟨item, wait⟩) else s
  | .writer i spurious chunk => s.stepWriter size i spurious chunk
  | .read limit => if s.reader = .idle then { s with reader := .loadHead limit } else s
  | .reader => s.stepReader size

abbrev run (size : ℕ) (s : State) (actions : List Action) : State := Runs.exec (step size) s actions

end Ccf.RingBuffer
