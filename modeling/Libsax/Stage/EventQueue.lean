import Mathlib.Algebra.Ring.Nat
import Mathlib.Algebra.Ring.Int.Defs
import Mathlib.Data.List.Basic
import Mathlib.Data.List.Pairwise
import Libsax.Lib.Run

/-! The event ring of a stage: producers allocate variable-sized blocks under
the queue lock and commit them in any order, one consumer pops the oldest block
and frees it in place. Ints are relative to `_buf`. -/
namespace Libsax.Stage.EventQueue

open Libsax.Lib

inductive BlockState where
  | allocated
  | committed
  | skipped
deriving DecidableEq, Repr

structure EventHeader where
  blockState : BlockState
  blockSize : Int
deriving DecidableEq, Repr

/-- `sizeof(event_header)`: a four-byte enumeration and an `int32_t`. -/
def headerSize : Int := 8

/-- The ring as the code holds it. `buf` is what a header read at an offset
finds there; every header access of the code is at a multiple of eight. -/
structure Queue where
  cap : Int
  buf : Int → EventHeader
  allocPos : Int
  freePos : Int

def setHeader (buf : Int → EventHeader) (pos : Int) (header : EventHeader) :
    Int → EventHeader :=
  fun other => if other = pos then header else buf other

@[simp] theorem setHeader_same (buf : Int → EventHeader) (pos : Int)
    (header : EventHeader) : setHeader buf pos header pos = header := by
  simp [setHeader]

theorem setHeader_other (buf : Int → EventHeader) {pos other : Int}
    (header : EventHeader) (hne : other ≠ pos) :
    setHeader buf pos header other = buf other := by
  simp [setHeader, hne]

/-- Conversion of an integer to `int32_t` keeps its low 32 bits. -/
def toInt32 (value : Int) : Int := value.bmod (2 ^ 32)

/-- `new_len` of `allocate`: the length is widened to `size_t`, the header and
the alignment slack are added there, the low three bits are cleared, and the
result is narrowed to `int32_t` again. -/
def newLen (length : Int) : Int :=
  toInt32 ((length + 8 + 8 - 1) % 2 ^ 64 / 8 * 8)

def allocate (queue : Queue) (length : Int) : Queue × Option Int :=
  let newLen := newLen length
  let localFreePos := queue.freePos
  let cond1 := decide (queue.allocPos - localFreePos ≥ 0)
  let cond2 := decide (queue.cap - queue.allocPos - newLen ≥ 0)
  -- not enough space in the rear, so roll back to the front
  let skipFlag := cond1 && !cond2
  let newAllocPos := if skipFlag then 0 else queue.allocPos
  let allocated := (cond1 && cond2) || decide (localFreePos - newAllocPos - newLen > 0)
  if allocated then
    let buf := setHeader queue.buf newAllocPos ⟨.allocated, newLen⟩
    let buf :=
      if skipFlag && decide (queue.cap - queue.allocPos > headerSize) then
        setHeader buf queue.allocPos { buf queue.allocPos with blockState := .skipped }
      else buf
    ({ queue with buf := buf, allocPos := newAllocPos + newLen }, some (newAllocPos + headerSize))
  else (queue, none)

/-- One attempt of `allocate_event` under the lock. `sizeof(EVENT_TYPE)` is
converted to the `int32_t` parameter of `allocate`. -/
def allocateEvent (queue : Queue) (size : Nat) : Queue × Option Int :=
  allocate queue (toInt32 size)

def commitEvent (queue : Queue) (ev : Int) : Queue :=
  let block := ev - headerSize
  { queue with buf := setHeader queue.buf block { queue.buf block with blockState := .committed } }

def popEvent (queue : Queue) : Queue × Option Int :=
  if queue.freePos = queue.allocPos then (queue, none)
  else
    let queue := if queue.cap - queue.freePos ≤ headerSize then { queue with freePos := 0 } else queue
    match (queue.buf queue.freePos).blockState with
    | .committed => (queue, some (queue.freePos + headerSize))
    | .skipped =>
      let queue := { queue with freePos := 0 }
      match (queue.buf 0).blockState with
      | .committed => (queue, some headerSize)
      | _ => (queue, none)
    | .allocated => (queue, none)

/-- The `free` half of `destroy_event`; the destructor of the event itself only
writes its own bytes. -/
def free (queue : Queue) (ev : Int) : Queue :=
  { queue with freePos := queue.freePos + (queue.buf (ev - headerSize)).blockSize }

/-- Ghost record of a block between its allocation and its destruction. -/
structure Event where
  serial : Nat
  pos : Int
  size : Nat
  committed : Bool
deriving DecidableEq, Repr

def Event.ptr (event : Event) : Int := event.pos + headerSize

/-- One past the last byte of the event object placed in the block. -/
def Event.stop (event : Event) : Int := event.pos + headerSize + event.size

def Event.Apart (left right : Event) : Prop := left.stop ≤ right.pos ∨ right.stop ≤ left.pos

instance : Std.Symm Event.Apart := ⟨fun _ _ => Or.symm⟩

structure System where
  queue : Queue
  /-- blocks not yet destroyed, in the order of their allocation -/
  live : List Event
  /-- number of successful allocations so far -/
  allocated : Nat
  /-- the event the consumer has popped and not yet destroyed -/
  popped : Option Int
  /-- what each successful pop found behind the pointer it returned -/
  returned : List (Option Event)

inductive Action where
  /-- a producer attempts `allocate_event` for a type of this size -/
  | allocate (size : Nat)
  /-- the producer of this event commits it -/
  | commit (serial : Nat)
  /-- code outside the queue changes payload bytes seen by a header read at this offset -/
  | store (pos : Int) (header : EventHeader)
  /-- the consumer polls; allowed once the previous event is destroyed -/
  | pop
  /-- the consumer destroys the event it popped -/
  | destroy

def System.find (system : System) (ptr : Int) : Option Event :=
  system.live.find? fun event => event.ptr = ptr

def markCommitted (serial : Nat) (event : Event) : Event :=
  if event.serial = serial then { event with committed := true } else event

def System.allocate (system : System) (size : Nat) : Option System :=
  if size = 0 then none
  else match allocateEvent system.queue size with
    | (queue, some ptr) => some
        { system with
          queue := queue
          live := system.live ++ [⟨system.allocated, ptr - headerSize, size, false⟩]
          allocated := system.allocated + 1 }
    | (queue, none) => some { system with queue := queue }

def System.commit (system : System) (serial : Nat) : Option System :=
  match system.live.find? fun event => event.serial = serial && !event.committed with
  | some event => some
      { system with
        queue := commitEvent system.queue event.ptr
        live := system.live.map (markCommitted serial) }
  | none => none

/-- A header read at `pos` overlaps the payload of some live block. -/
def System.store (system : System) (pos : Int) (header : EventHeader) : Option System :=
  if system.live.any fun event => event.pos < pos && pos < event.stop then
    some { system with queue := { system.queue with buf := setHeader system.queue.buf pos header } }
  else none

def System.pop (system : System) : Option System :=
  if system.popped.isSome then none
  else match popEvent system.queue with
    | (queue, some ptr) => some
        { system with
          queue := queue
          popped := some ptr
          returned := system.returned ++ [system.find ptr] }
    | (queue, none) => some { system with queue := queue }

def System.destroy (system : System) : Option System :=
  match system.popped with
  | some ptr => some
      { system with
        queue := free system.queue ptr
        live := system.live.filter fun event => event.ptr ≠ ptr
        popped := none }
  | none => none

def step (system : System) : Action → Option System
  | .allocate size => system.allocate size
  | .commit serial => system.commit serial
  | .store pos header => system.store pos header
  | .pop => system.pop
  | .destroy => system.destroy

/-- The constructor: `new char[_cap]` leaves the bytes unspecified. -/
def create (cap : Int) (bytes : Int → EventHeader) : System where
  queue := { cap := cap, buf := bytes, allocPos := 0, freePos := 0 }
  live := []
  allocated := 0
  popped := none
  returned := []

end Libsax.Stage.EventQueue
