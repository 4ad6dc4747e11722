import Libsax.Lib.Bytes

/-! `buffer` of the second net library: one piece of storage with positions of
machine size, which is either written at its end or read from its start. -/
namespace Libsax.Net2

open Libsax.Lib

/-- `storage` is what `_buf` points to, `blocks` the number of allocations asked
for so far. -/
structure Buffer where
  storage : Option (Nat → UInt8)
  mark : UInt64
  position : UInt64
  limit : UInt64
  capacity : UInt64
  reading : Bool
  limitedWrite : Bool
  blocks : Nat

/-- The answers to the allocations in turn: no memory, or memory that holds
whatever it holds. -/
abbrev Heap := Nat → Option (Nat → UInt8)

namespace Buffer

def invalidPos : UInt64 := 0xFFFFFFFFFFFFFFFF

def maxAllocateSize : UInt64 := (1 : UInt64) <<< 63

/-- The loop of `calc_size_level` from a level on. -/
def sizeLevelFrom (size : UInt64) : Nat → Nat → UInt64 → Nat
  | 0, level, _ => level
  | rest + 1, level, temp =>
    if temp ≥ size then level else sizeLevelFrom size rest (level + 1) (temp <<< 1)

def calcSizeLevel (size : UInt64) : Nat := sizeLevelFrom size 64 0 1

/-- `memory_pool::allocate`: the size that it comes to, and the memory. -/
def allocate (heap : Heap) (blocks : Nat) (size : UInt64) : UInt64 × Option (Nat → UInt8) :=
  if size > maxAllocateSize then (size, none)
  else (1 <<< UInt64.ofNat (calcSizeLevel size), heap blocks)

/-- `none` is a copy past the end of either piece of storage. -/
def reserve (heap : Heap) (buf : Buffer) (size : UInt64) : Option (Buffer × Bool) :=
  if buf.capacity ≥ size then some (buf, true)
  else
    match allocate heap buf.blocks size with
    | (_, none) => some ({ buf with blocks := buf.blocks + 1 }, false)
    | (size, some fresh) =>
      let reserved : Buffer := { buf with
        storage := some fun index =>
          match buf.storage with
          | some bytes => if index < buf.position.toNat then bytes index else fresh index
          | none => fresh index
        limit := if buf.reading || !buf.limitedWrite then size else buf.limit
        capacity := size
        blocks := buf.blocks + 1 }
      if buf.storage.isSome ∧ ¬(buf.position ≤ buf.capacity ∧ buf.position ≤ size) then none
      else some (reserved, true)

def create (heap : Heap) (blocks : Nat) (initSize : UInt64) : Option Buffer :=
  (reserve heap ⟨none, invalidPos, 0, 0, 0, false, false, blocks⟩ initSize).map Prod.fst

def remaining (buf : Buffer) : UInt64 := buf.limit - buf.position

def setMark (buf : Buffer) : Buffer := { buf with mark := buf.position }

def reset (buf : Buffer) : Buffer × Bool :=
  if buf.mark ≠ invalidPos then ({ buf with position := buf.mark }, true) else (buf, false)

def flip (buf : Buffer) : Buffer × Bool :=
  if buf.reading then (buf, false)
  else
    ({ buf with
      reading := true
      limit := buf.position
      limitedWrite := false
      position := 0
      mark := if buf.mark > 0 then invalidPos else buf.mark }, true)

/-- `none` is a move past the end of the storage. -/
def compact (buf : Buffer) : Option (Buffer × Bool) :=
  if !buf.reading then some (buf, false)
  else
    let length := buf.remaining
    let compacted : Buffer := { buf with
      reading := false
      mark := invalidPos
      storage := buf.storage.map fun bytes index =>
        if index < length.toNat then bytes (buf.position.toNat + index) else bytes index
      position := length
      limit := buf.capacity
      limitedWrite := false }
    if buf.position > 0 ∧ ¬buf.position.toNat + length.toNat ≤ buf.capacity.toNat then none
    else some (compacted, true)

/-- What `memmove` reads from the storage at the cursor, when that much is there. -/
def ahead (buf : Buffer) (length : UInt64) : Option (List UInt8) :=
  match buf.storage with
  | some bytes =>
    if buf.position.toNat + length.toNat ≤ buf.capacity.toNat then
      some ((List.range length.toNat).map fun index => bytes (buf.position.toNat + index))
    else none
  | none => if length = 0 then some [] else none

def get (buf : Buffer) (length : UInt64) : Option (Buffer × Option (List UInt8)) :=
  if buf.storage.isNone ∨ !buf.reading ∨ buf.remaining < length then some (buf, none)
  else
    (buf.ahead length).map fun bytes =>
      ({ buf with position := buf.position + length }, some bytes)

/-- The `memmove` of `put` and the step that follows it. -/
def write (buf : Buffer) (data : List UInt8) : Option Buffer :=
  if buf.position.toNat + data.length ≤ buf.capacity.toNat then
    some { buf with
      storage := buf.storage.map fun bytes index =>
        if buf.position.toNat ≤ index ∧ index < buf.position.toNat + data.length then
          data.getD (index - buf.position.toNat) 0
        else bytes index
      position := buf.position + UInt64.ofNat data.length }
  else none

def put (heap : Heap) (buf : Buffer) (data : List UInt8) : Option (Buffer × Bool) :=
  let length := UInt64.ofNat data.length
  if buf.storage.isNone ∨ buf.reading then some (buf, false)
  else if buf.remaining < length then
    if buf.limitedWrite then some (buf, false)
    else
      match reserve heap buf (buf.position + length) with
      | none => none
      | some (buf, false) => some (buf, false)
      | some (buf, true) => (buf.write data).map fun buf => (buf, true)
  else (buf.write data).map fun buf => (buf, true)

/-- `put(buffer&, size_t)`, with both buffers as they are afterwards. -/
def putBuffer (heap : Heap) (buf other : Buffer) (length : UInt64) :
    Option (Buffer × Buffer × Bool) :=
  if other.remaining < length then some (buf, other, false)
  else
    match other.ahead length with
    | none => none
    | some data =>
      match buf.put heap data with
      | none => none
      | some (buf, false) => some (buf, other, false)
      | some (buf, true) => some (buf, { other with position := other.position + length }, true)

def getBuffer (heap : Heap) (buf other : Buffer) (length : UInt64) :
    Option (Buffer × Buffer × Bool) :=
  (putBuffer heap other buf length).map fun (other, buf, result) => (buf, other, result)

/-- `put(uintN_t, true)` for an integer of `size` bytes -/
def putInt (heap : Heap) (buf : Buffer) (size number : Nat) : Option (Buffer × Bool) :=
  buf.put heap (Bytes.encode size number).reverse

def getInt (buf : Buffer) (size : Nat) : Option (Buffer × Option Nat) :=
  match buf.get (UInt64.ofNat size) with
  | none => none
  | some (buf, bytes) => some (buf, bytes.map fun bytes => Bytes.decode bytes.reverse)

end Buffer

end Libsax.Net2
