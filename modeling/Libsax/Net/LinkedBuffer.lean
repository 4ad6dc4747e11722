import Libsax.Lib.Bytes
import Libsax.Lib.Chunks

/-! `linked_buffer`: a chain of blocks of one size with cursors into it. Reading
mode is the presence of a valid `_limit`. The allocator is asked for one block
at a time; `memory` is the number of blocks that it grants before it fails. -/
namespace Libsax.Net

open Libsax.Lib Libsax.Lib.Chunks

/-- `struct pos`. A block pointer is the number of the block in the order of
allocation; `curr_buf` is kept as its offset from `block->buf`. -/
structure Pos where
  position : UInt32
  remaining : UInt32
  block : Option Nat
  currBuf : Nat
  invalid : Bool
deriving DecidableEq, Repr

def Pos.setInvalid (pos : Pos) : Pos := { pos with invalid := true }

/-- `bytes` is the content of the blocks and `nodes` the number of blocks
allocated so far; `bufList` links the blocks in order. -/
structure LinkedBuffer where
  current : Pos
  zero : Pos
  mark : Pos
  limit : Pos
  blockSize : UInt32
  capacity : UInt32
  usable : UInt32
  bufList : List Nat
  bytes : Nat → Nat → UInt8
  nodes : Nat

namespace LinkedBuffer

def invalidValue : UInt32 := 0xFFFFFFFF

/-- The constructor; `bytes` is whatever the blocks hold when they are allocated. -/
def create (blockSize : UInt32) (bytes : Nat → Nat → UInt8) : LinkedBuffer where
  current := ⟨0, blockSize, some 0, 0, false⟩
  zero := ⟨0, blockSize, some 0, 0, false⟩
  mark := ⟨0, 0, none, 0, true⟩
  limit := ⟨0, 0, none, 0, true⟩
  blockSize := blockSize
  capacity := blockSize
  usable := blockSize
  bufList := [0]
  bytes := bytes
  nodes := 1

def next (buf : LinkedBuffer) (block : Nat) : Option Nat :=
  buf.bufList[buf.bufList.idxOf block + 1]?

def pushBack (buf : LinkedBuffer) : LinkedBuffer :=
  { buf with
    bufList := buf.bufList ++ [buf.nodes]
    nodes := buf.nodes + 1
    capacity := buf.capacity + buf.blockSize
    usable := buf.usable + buf.blockSize }

def reserveLoop (size : UInt32) : Nat → LinkedBuffer → LinkedBuffer × Bool
  | 0, buf => (buf, !decide (buf.usable < size))
  | memory + 1, buf =>
    if buf.usable < size then reserveLoop size memory buf.pushBack else (buf, true)

/-- The extra byte keeps room behind the last byte of the data. -/
def reserve (buf : LinkedBuffer) (memory : Nat) (size : UInt32) : LinkedBuffer × Bool :=
  reserveLoop (size + 1) memory buf

/-- `_usable < (_current.position + length + 1) && !reserve(_current.position + length)`,
negated -/
def ensure (buf : LinkedBuffer) (memory : Nat) (length : UInt32) : LinkedBuffer × Bool :=
  if buf.usable < buf.current.position + length + 1 then
    buf.reserve memory (buf.current.position + length)
  else (buf, true)

/-- The loop over the blocks behind the current one. `skip`, `get` and `put`
run it alike; the chunks are what `get` and `put` copy. A round takes at least
one byte or is the last, so `fuel` is the number of bytes left and one more.
`none` is a null dereference. -/
def walkLoop (buf : LinkedBuffer) : Nat → Pos → UInt32 → Option (Pos × List Chunk)
  | 0, _, _ => none
  | fuel + 1, pos, remaining => do
    let block ← pos.block
    let block ← buf.next block
    let tmp := if remaining > buf.blockSize then buf.blockSize else remaining
    let pos := { pos with
      block := some block
      currBuf := tmp.toNat
      remaining := buf.blockSize - tmp }
    if remaining - tmp > 0 then do
      let (pos, chunks) ← walkLoop buf fuel pos (remaining - tmp)
      return (pos, ⟨block, 0, tmp.toNat⟩ :: chunks)
    else return (pos, [⟨block, 0, tmp.toNat⟩])

/-- Where `_current` comes to stand after `length` bytes, and the chunks passed. -/
def advance (buf : LinkedBuffer) (length : UInt32) : Option (Pos × List Chunk) := do
  let block ← buf.current.block
  let position := buf.current.position + length
  if length < buf.current.remaining then
    return ({ buf.current with
      currBuf := buf.current.currBuf + length.toNat
      remaining := buf.current.remaining - length
      position := position }, [⟨block, buf.current.currBuf, length.toNat⟩])
  else
    let remaining := length - buf.current.remaining
    let (pos, chunks) ← buf.walkLoop (remaining.toNat + 1) buf.current remaining
    return ({ pos with position := position },
      ⟨block, buf.current.currBuf, buf.current.remaining.toNat⟩ :: chunks)

def setMark (buf : LinkedBuffer) : LinkedBuffer := { buf with mark := buf.current }

def skip (buf : LinkedBuffer) (memory : Nat) (length : UInt32) : Option (LinkedBuffer × Bool) :=
  if !buf.limit.invalid && buf.limit.position - buf.current.position < length then
    some (buf, false)
  else
    match if buf.limit.invalid then buf.ensure memory length else (buf, true) with
    | (buf, false) => some (buf, false)
    | (buf, true) => do
      let (current, _) ← buf.advance length
      return ({ buf with mark := buf.current, current := current }, true)

def reset (buf : LinkedBuffer) : LinkedBuffer × Bool :=
  if buf.mark.invalid then (buf, false)
  else ({ buf with current := buf.mark, mark := buf.current }, true)

def clear (buf : LinkedBuffer) : LinkedBuffer :=
  let bufList := if buf.bufList.length > 1 then buf.bufList.take 1 else buf.bufList
  let zero : Pos := ⟨0, buf.blockSize, bufList.head?, 0, false⟩
  { buf with
    bufList := bufList
    capacity := buf.blockSize
    usable := buf.blockSize
    zero := zero
    current := zero
    mark := buf.mark.setInvalid
    limit := buf.limit.setInvalid }

def rewind (buf : LinkedBuffer) : LinkedBuffer :=
  { buf with mark := buf.current, current := buf.zero }

def flip (buf : LinkedBuffer) : LinkedBuffer × Bool :=
  if !buf.limit.invalid then (buf, false)
  else
    ({ buf with mark := buf.mark.setInvalid, limit := buf.current, current := buf.zero }, true)

/-- `while (get_head() != block)` of `compact`: the list left and the capacity.
Once the list is empty the loop never ends, which is `none`. -/
def popUntil (block : Option Nat) (blockSize : UInt32) :
    List Nat → UInt32 → Option (List Nat × UInt32)
  | [], _ => none
  | head :: rest, capacity =>
    if some head = block then some (head :: rest, capacity)
    else popUntil block blockSize rest (capacity - blockSize)

def compact (buf : LinkedBuffer) : Option (LinkedBuffer × Bool) :=
  if buf.limit.invalid then some (buf, false)
  else do
    let drained := buf.limit.position = buf.current.position
    let zero : Pos :=
      if drained then ⟨0, buf.blockSize, buf.current.block, 0, false⟩
      else ⟨0, buf.current.remaining, buf.current.block, buf.current.currBuf, false⟩
    let current : Pos :=
      if drained then zero
      else ⟨buf.limit.position - buf.current.position, buf.limit.remaining, buf.limit.block,
        buf.limit.currBuf, false⟩
    let (bufList, capacity) ← popUntil zero.block buf.blockSize buf.bufList buf.capacity
    return ({ buf with
      zero := zero
      current := current
      bufList := bufList
      capacity := capacity
      usable := capacity - (buf.blockSize - zero.remaining)
      mark := buf.mark.setInvalid
      limit := buf.limit.setInvalid }, true)

def remaining (buf : LinkedBuffer) : UInt32 :=
  if buf.limit.invalid then invalidValue else buf.limit.position - buf.current.position

def dataLength (buf : LinkedBuffer) : UInt32 :=
  if !buf.limit.invalid then invalidValue else buf.current.position

/-- `put(uint8_t[], uint32_t)` -/
def put (buf : LinkedBuffer) (memory : Nat) (data : List UInt8) :
    Option (LinkedBuffer × Bool) :=
  let length := UInt32.ofNat data.length
  if !buf.limit.invalid then some (buf, false)
  else
    match buf.ensure memory length with
    | (buf, false) => some (buf, false)
    | (buf, true) => do
      let (current, chunks) ← buf.advance length
      return ({ buf with current := current, bytes := storeAll buf.bytes chunks data }, true)

/-- `get(uint8_t[], uint32_t)`; the bytes are what it copies out. -/
def get (buf : LinkedBuffer) (length : UInt32) : Option (LinkedBuffer × Option (List UInt8)) :=
  if buf.limit.invalid || buf.limit.position - buf.current.position < length then
    some (buf, none)
  else do
    let (current, chunks) ← buf.advance length
    return ({ buf with current := current }, some (chunks.flatMap (load buf.bytes)))

/-- The copying loop of `get(linked_buffer&, uint32_t)`: one `put` for each
chunk. Its result is not looked at. -/
def putChunks (source : Nat → Nat → UInt8) (memory : Nat) :
    List Chunk → LinkedBuffer → Option LinkedBuffer
  | [], buf => some buf
  | chunk :: rest, buf => do
    let (buf, _) ← buf.put memory (load source chunk)
    putChunks source memory rest buf

/-- `get(linked_buffer&, uint32_t)` between two different buffers -/
def getBuffer (buf other : LinkedBuffer) (memory : Nat) (length : UInt32) :
    Option (LinkedBuffer × LinkedBuffer × Bool) :=
  if buf.limit.invalid || buf.limit.position - buf.current.position < length then
    some (buf, other, false)
  else if !other.limit.invalid then some (buf, other, false)
  else
    match other.ensure memory length with
    | (other, false) => some (buf, other, false)
    | (other, true) => do
      let (current, chunks) ← buf.advance length
      let other ← putChunks buf.bytes memory chunks other
      return ({ buf with current := current }, other, true)

/-- `IS_LITTLE_ENDIAN`; the header does not compile on other machines. -/
def isLittleEndian : Bool := true

/-- `put(uintN_t, bool)` for an integer of `size` bytes -/
def putInt (buf : LinkedBuffer) (memory size number : Nat) (bigendian : Bool) :
    Option (LinkedBuffer × Bool) :=
  let number := if bigendian ^^ !isLittleEndian then Bytes.swap size number else number
  buf.put memory (Bytes.encode size number)

def getInt (buf : LinkedBuffer) (size : Nat) (bigendian : Bool) :
    Option (LinkedBuffer × Option Nat) := do
  match ← buf.get (UInt32.ofNat size) with
  | (buf, none) => return (buf, none)
  | (buf, some bytes) =>
    let number := Bytes.decode bytes
    return (buf, some (if bigendian ^^ !isLittleEndian then Bytes.swap size number else number))

def peekInt (buf : LinkedBuffer) (size : Nat) (bigendian : Bool) :
    Option (LinkedBuffer × Option Nat) := do
  let tmp := buf.current
  match ← buf.getInt size bigendian with
  | (buf, none) => return (buf, none)
  | (buf, some number) => return ({ buf with current := tmp }, some number)

/-- The pointer, as block and offset, and `limit_length` -/
def directGet (buf : LinkedBuffer) : Option ((Option Nat × Nat) × UInt32) :=
  if buf.limit.invalid then none
  else
    let limitLength :=
      if buf.current.block = buf.limit.block then buf.limit.position - buf.current.position
      else buf.current.remaining
    some ((buf.current.block, buf.current.currBuf), limitLength)

def commitGet (buf : LinkedBuffer) (ptr : Option Nat × Nat) (length : UInt32) :
    Option (LinkedBuffer × Bool) :=
  let advanced := { buf.current with
    position := buf.current.position + length
    currBuf := buf.current.currBuf + length.toNat
    remaining := buf.current.remaining - length }
  if buf.limit.invalid || (buf.current.block, buf.current.currBuf) ≠ ptr then some (buf, false)
  else if buf.current.block = buf.limit.block then
    if buf.current.position + length > buf.limit.position then some (buf, false)
    else some ({ buf with current := advanced }, true)
  else if buf.current.remaining < length then some (buf, false)
  else if buf.current.remaining = length then do
    let block ← buf.current.block
    let block ← buf.next block
    return ({ buf with current :=
      ⟨buf.current.position + length, buf.blockSize, some block, 0, buf.current.invalid⟩ }, true)
  else some ({ buf with current := advanced }, true)

end LinkedBuffer

end Libsax.Net
