import Libsax.Net.LinkedBufferRuns

/-! `buffer`: the net buffer in one piece of storage, which grows by whole pages
and is copied up to the cursor when it does. -/
namespace Libsax.Net

open Libsax.Lib

/-- `bytes` is what `_buf` points to, `size` how much of it is allocated, and
`blocks` the number of allocations asked for so far. -/
structure Buffer where
  current : UInt32
  mark : UInt32
  limit : UInt32
  capacity : UInt32
  blockSize : UInt32
  bytes : Nat → UInt8
  size : Nat
  blocks : Nat

/-- The answers to the allocations in turn: no memory, or memory that holds
whatever it holds. -/
abbrev Heap := Nat → Option (Nat → UInt8)

namespace Buffer

def invalidValue : UInt32 := 0xFFFFFFFF

def blockSizeMask (buf : Buffer) : UInt32 := buf.blockSize - 1

/-- `g_shm_alloc_pages` multiplies in 32 bits. `none` is a copy past the end of
either piece of storage. -/
def reserve (heap : Heap) (buf : Buffer) (size : UInt32) : Option (Buffer × Bool) :=
  if buf.capacity < size then
    let pages := size / buf.blockSize + (if size &&& buf.blockSizeMask > 0 then 1 else 0)
    let allocated := (buf.blockSize * pages).toNat
    match heap buf.blocks with
    | none => some ({ buf with blocks := buf.blocks + 1 }, false)
    | some fresh =>
      if buf.current.toNat ≤ buf.size ∧ buf.current.toNat ≤ allocated then
        some ({ buf with
          bytes := fun index =>
            if index < buf.current.toNat then buf.bytes index else fresh index
          size := allocated
          capacity := pages * buf.blockSize
          blocks := buf.blocks + 1 }, true)
      else none
  else some (buf, true)

/-- The constructor; `none` is a failed assertion or `std::bad_alloc`. -/
def create (heap : Heap) (blockSize : UInt32) : Option Buffer :=
  if blockSize > 0 ∧ blockSize &&& (blockSize - 1) = 0 then
    match reserve heap ⟨0, invalidValue, invalidValue, 0, blockSize, fun _ => 0, 0, 0⟩ blockSize with
    | some (buf, true) => some buf
    | _ => none
  else none

def setMark (buf : Buffer) : Buffer := { buf with mark := buf.current }

/-- `limit(uint32_t)`; `none` is a failed assertion. -/
def setLimit (buf : Buffer) (newLimit : UInt32) : Option (Buffer × UInt32) :=
  if buf.limit = invalidValue then some (buf, invalidValue)
  else if newLimit ≤ buf.capacity then some ({ buf with limit := newLimit }, buf.limit)
  else none

def skip (heap : Heap) (buf : Buffer) (length : UInt32) : Option (Buffer × Bool) :=
  if buf.limit = invalidValue then
    match reserve heap buf (buf.current + length) with
    | none => none
    | some (buf, false) => some (buf, false)
    | some (buf, true) =>
      some ({ buf with mark := buf.current, current := buf.current + length }, true)
  else if buf.limit - buf.current < length then some (buf, false)
  else some ({ buf with mark := buf.current, current := buf.current + length }, true)

def reset (buf : Buffer) : Buffer × Bool :=
  if buf.mark = invalidValue then (buf, false)
  else ({ buf with current := buf.mark, mark := buf.current }, true)

def clear (buf : Buffer) : Buffer :=
  { buf with current := 0, mark := invalidValue, limit := invalidValue }

def rewind (buf : Buffer) : Buffer := { buf with mark := buf.current, current := 0 }

def flip (buf : Buffer) : Buffer × Bool :=
  if buf.limit ≠ invalidValue then (buf, false)
  else ({ buf with mark := invalidValue, limit := buf.current, current := 0 }, true)

/-- `none` is a move past the end of the storage. -/
def compact (buf : Buffer) : Option (Buffer × Bool) :=
  if buf.limit = invalidValue then some (buf, false)
  else
    let length := buf.limit - buf.current
    let compacted : Buffer := { buf with
      bytes := fun index =>
        if index < length.toNat then buf.bytes (buf.current.toNat + index) else buf.bytes index
      current := length
      mark := invalidValue
      limit := invalidValue }
    if buf.limit ≠ buf.current ∧ ¬buf.current.toNat + length.toNat ≤ buf.size then none
    else some (compacted, true)

def remaining (buf : Buffer) : UInt32 :=
  if buf.limit = invalidValue then invalidValue else buf.limit - buf.current

def dataLength (buf : Buffer) : UInt32 :=
  if buf.limit ≠ invalidValue then invalidValue else buf.current

/-- `get(uint8_t[], uint32_t)`; `none` is a copy past the end of the storage. -/
def get (buf : Buffer) (length : UInt32) : Option (Buffer × Option (List UInt8)) :=
  if buf.limit = invalidValue ∨ buf.limit - buf.current < length then some (buf, none)
  else if buf.current.toNat + length.toNat ≤ buf.size then
    some ({ buf with current := buf.current + length },
      some ((List.range length.toNat).map fun index => buf.bytes (buf.current.toNat + index)))
  else none

def put (heap : Heap) (buf : Buffer) (data : List UInt8) : Option (Buffer × Bool) :=
  let length := UInt32.ofNat data.length
  if buf.limit ≠ invalidValue then some (buf, false)
  else
    match reserve heap buf (buf.current + length) with
    | none => none
    | some (buf, false) => some (buf, false)
    | some (buf, true) =>
      if buf.current.toNat + length.toNat ≤ buf.size then
        some ({ buf with
          bytes := fun index =>
            if buf.current.toNat ≤ index ∧ index < buf.current.toNat + data.length then
              data.getD (index - buf.current.toNat) 0
            else buf.bytes index
          current := buf.current + length }, true)
      else none

/-- `put(uintN_t, bool)` for an integer of `size` bytes -/
def putInt (heap : Heap) (buf : Buffer) (size number : Nat) (bigendian : Bool) :
    Option (Buffer × Bool) :=
  let number :=
    if bigendian ^^ !LinkedBuffer.isLittleEndian then Bytes.swap size number else number
  buf.put heap (Bytes.encode size number)

def getInt (buf : Buffer) (size : Nat) (bigendian : Bool) : Option (Buffer × Option Nat) := do
  match ← buf.get (UInt32.ofNat size) with
  | (buf, none) => return (buf, none)
  | (buf, some bytes) =>
    let number := Bytes.decode bytes
    return (buf, some
      (if bigendian ^^ !LinkedBuffer.isLittleEndian then Bytes.swap size number else number))

def peekInt (buf : Buffer) (size : Nat) (bigendian : Bool) : Option (Buffer × Option Nat) := do
  let tmp := buf.current
  match ← buf.getInt size bigendian with
  | (buf, none) => return (buf, none)
  | (buf, some number) => return ({ buf with current := tmp }, some number)

end Buffer

namespace FlatBuffer

/-- Skipped bytes are not specified any more. -/
def skipOver (flat : FlatBuffer) (length : Nat) : FlatBuffer × Bool :=
  if flat.limit.isSome then flat.skip length
  else ({ flat.write (List.replicate length none) with mark := some flat.position }, true)

def setLimit (flat : FlatBuffer) (newLimit : Nat) : FlatBuffer × Option Nat :=
  match flat.limit with
  | none => (flat, none)
  | some limit => ({ flat with limit := some newLimit }, some limit)

def clear (flat : FlatBuffer) : FlatBuffer :=
  { flat with position := 0, mark := none, limit := none }

/-- The bytes from the cursor to the limit move to the front, in place. -/
def compactInPlace (flat : FlatBuffer) : FlatBuffer × Bool :=
  match flat.limit with
  | none => (flat, false)
  | some limit =>
    (⟨fun index =>
        if index < limit - flat.position then flat.cells (flat.position + index)
        else flat.cells index, limit - flat.position, none, none⟩, true)

end FlatBuffer

namespace Contiguous

inductive Call where
  | put (data : List UInt8)
  | putInt (size number : Nat) (bigendian : Bool)
  | get (length : UInt32)
  | getInt (size : Nat) (bigendian : Bool)
  | peekInt (size : Nat) (bigendian : Bool)
  | skip (length : UInt32)
  | mark
  | limit (newLimit : UInt32)
  | reset
  | rewind
  | flip
  | compact
  | clear
deriving DecidableEq

def execBuffer (heap : Heap) (buf : Buffer) : Call → Option (Buffer × Reply)
  | .put data => do
    let (buf, result) ← buf.put heap data
    return (buf, ⟨result, [], 0⟩)
  | .putInt size number bigendian => do
    let (buf, result) ← buf.putInt heap size number bigendian
    return (buf, ⟨result, [], 0⟩)
  | .get length => do
    let (buf, bytes) ← buf.get length
    return (buf, ⟨bytes.isSome, bytes.getD [], 0⟩)
  | .getInt size bigendian => do
    let (buf, number) ← buf.getInt size bigendian
    return (buf, ⟨number.isSome, [], number.getD 0⟩)
  | .peekInt size bigendian => do
    let (buf, number) ← buf.peekInt size bigendian
    return (buf, ⟨number.isSome, [], number.getD 0⟩)
  | .skip length => do
    let (buf, result) ← buf.skip heap length
    return (buf, ⟨result, [], 0⟩)
  | .mark => some (buf.setMark, ⟨true, [], 0⟩)
  | .limit newLimit => do
    let (buf, preLimit) ← buf.setLimit newLimit
    return (buf, ⟨true, [], preLimit.toNat⟩)
  | .reset => some (buf.reset.1, ⟨buf.reset.2, [], 0⟩)
  | .rewind => some (buf.rewind, ⟨true, [], 0⟩)
  | .flip => some (buf.flip.1, ⟨buf.flip.2, [], 0⟩)
  | .compact => do
    let (buf, result) ← buf.compact
    return (buf, ⟨result, [], 0⟩)
  | .clear => some (buf.clear, ⟨true, [], 0⟩)

def execFlat (flat : FlatBuffer) : Call → FlatBuffer × FlatReply
  | .put data => ((flat.put data).1, ⟨(flat.put data).2, [], some 0⟩)
  | .putInt size number bigendian =>
    let moved := flat.put (FlatBuffer.wire size number bigendian)
    (moved.1, ⟨moved.2, [], some 0⟩)
  | .get length =>
    let moved := flat.get length.toNat
    (moved.1, ⟨moved.2.isSome, moved.2.getD [], some 0⟩)
  | .getInt size bigendian =>
    let moved := flat.get size
    (moved.1, ⟨moved.2.isSome, [],
      moved.2.elim (some 0) fun bytes => FlatBuffer.number bytes bigendian⟩)
  | .peekInt size bigendian =>
    let moved := flat.get size
    (flat, ⟨moved.2.isSome, [],
      moved.2.elim (some 0) fun bytes => FlatBuffer.number bytes bigendian⟩)
  | .skip length => ((flat.skipOver length.toNat).1, ⟨(flat.skipOver length.toNat).2, [], some 0⟩)
  | .mark => (flat.setMark, ⟨true, [], some 0⟩)
  | .limit newLimit =>
    let moved := flat.setLimit newLimit.toNat
    (moved.1, ⟨true, [], some (moved.2.getD (2 ^ 32 - 1))⟩)
  | .reset => (flat.reset.1, ⟨flat.reset.2, [], some 0⟩)
  | .rewind => (flat.rewind, ⟨true, [], some 0⟩)
  | .flip => (flat.flip.1, ⟨flat.flip.2, [], some 0⟩)
  | .compact => (flat.compactInPlace.1, ⟨flat.compactInPlace.2, [], some 0⟩)
  | .clear => (flat.clear, ⟨true, [], some 0⟩)

/-- Both sides, and the replies of every call so far. -/
structure System where
  buffer : Buffer
  flat : FlatBuffer
  replies : List (Reply × FlatReply)

/-- `none` is an access outside of the storage or a failed assertion. -/
def step (heap : Heap) (system : System) (call : Call) : Option System := do
  let (buffer, reply) ← execBuffer heap system.buffer call
  let (flat, flatReply) := execFlat system.flat call
  return ⟨buffer, flat, system.replies ++ [(reply, flatReply)]⟩

def start (heap : Heap) (blockSize : UInt32) : Option System :=
  (Buffer.create heap blockSize).map fun buffer => ⟨buffer, .create, []⟩

/-- How many bytes a call takes up behind the cursor of a buffer that is written. -/
def demand (buf : Buffer) : Call → Option Nat
  | .put data => if buf.limit = Buffer.invalidValue then some data.length else none
  | .putInt size _ _ => if buf.limit = Buffer.invalidValue then some size else none
  | .skip length => if buf.limit = Buffer.invalidValue then some length.toNat else none
  | _ => none

def Call.size : Call → Nat
  | .getInt size _ => size
  | .peekInt size _ => size
  | _ => 0

/-- Positions and lengths stay below 2^32 - 1, and a new limit is between the
cursor and the capacity. -/
structure Bounded (system : System) (call : Call) : Prop where
  size : call.size < 2 ^ 32 - 1
  demand : ∀ length, demand system.buffer call = some length →
    system.buffer.current.toNat + length < 2 ^ 32 - 1
  limit : ∀ newLimit, call = .limit newLimit → system.buffer.limit ≠ Buffer.invalidValue →
    system.buffer.current ≤ newLimit ∧ newLimit ≤ system.buffer.capacity

/-- While reading, `reset` does not go past the limit; and no storage is asked for
that comes to 2^32 bytes in whole pages. -/
structure Sane (system : System) (call : Call) : Prop where
  reset : call = .reset → system.buffer.limit ≠ Buffer.invalidValue →
    system.buffer.mark ≠ Buffer.invalidValue → system.buffer.mark ≤ system.buffer.limit
  growth : ∀ length, demand system.buffer call = some length →
    system.buffer.capacity.toNat < system.buffer.current.toNat + length →
      system.buffer.current.toNat + length + system.buffer.blockSize.toNat ≤ 2 ^ 32

/-- The two sides cannot be told apart, and the storage holds what was put. -/
structure Sound (system : System) : Prop where
  replies : ∀ entry ∈ system.replies, entry.1.Agrees entry.2
  position : system.buffer.current.toNat = system.flat.position
  limit : system.buffer.limit.toNat = system.flat.limit.getD (2 ^ 32 - 1)
  remaining : system.buffer.remaining.toNat = system.flat.remaining.getD (2 ^ 32 - 1)
  dataLength : system.buffer.dataLength.toNat = system.flat.dataLength.getD (2 ^ 32 - 1)
  content : ∀ index byte, system.flat.cells index = some byte →
    index < system.buffer.size ∧ system.buffer.bytes index = byte

end Contiguous

end Libsax.Net
