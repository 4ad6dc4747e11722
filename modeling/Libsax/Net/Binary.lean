import Mathlib.Algebra.Ring.Nat
import Libsax.Lib.ByteStore
import Libsax.Lib.Run

/-! The read and write buffer `binary`: one block of memory with a cursor that
reads and a cursor that writes. -/
namespace Libsax.Net

open Libsax.Lib

/-- `start` is the block that `_start` points to, `none` for `NULL`. The other
pointers are offsets into the block. -/
structure Binary where
  start : Option ByteStore
  end_ : Nat
  data : Nat
  free : Nat

namespace Binary

def create : Binary := ⟨none, 0, 0, 0⟩

def getDataLen (b : Binary) : Nat := b.free - b.data

def getFreeLen (b : Binary) : Nat := b.end_ - b.free

/-- An `int` holds the number; beyond that the arithmetic is undefined. -/
def int (number : Nat) : Option Nat := if number < 2 ^ 31 then some number else none

def clear (b : Binary) : Binary := { b with data := 0, free := 0 }

def drain (b : Binary) (len : Nat) : Binary :=
  let b := { b with data := b.data + len }
  if b.data ≥ b.free then b.clear else b

def pour (b : Binary) (len : Nat) : Binary × Bool :=
  if b.free + len ≤ b.end_ then ({ b with free := b.free + len }, true) else (b, false)

def strip (b : Binary) (len : Nat) : Binary × Bool :=
  if b.data + len ≤ b.free then ({ b with free := b.free - len }, true) else (b, false)

def maxSize : Nat := 2048

/-- `shrink`; `malloc` is the block that was got, with what happens to be in it. -/
def shrink (b : Binary) (malloc : Option ByteStore) : Option Binary :=
  match b.start with
  | none => some b
  | some block =>
    let dlen := b.free - b.data
    if b.end_ ≤ maxSize ∨ dlen > maxSize then some b
    else
      match malloc with
      | none => if dlen > 0 then none else some ⟨none, maxSize, 0, 0⟩
      | some newbuf =>
        some ⟨some (newbuf.write 0 (block.read b.data dlen)), maxSize, 0, dlen⟩

/-- The loops of `ensure`: double a size until it reaches what is wanted. An
`int` is doubled less than 32 times. -/
def grow : Nat → Nat → Nat → Option Nat
  | 0, _, _ => none
  | fuel + 1, size, wanted =>
    if size < wanted then (int (2 * size)).bind fun size => grow fuel size wanted
    else some size

def ensure (b : Binary) (need : Nat) (malloc : Option ByteStore) : Option (Binary × Bool) :=
  match b.start with
  | none => do
    let len ← grow 32 256 need
    match malloc with
    | none => some (b, false)
    | some block => some (⟨some block, len, 0, 0⟩, true)
  | some block =>
    if b.end_ < b.free + need then do
      let flen ← int (b.end_ - b.free + b.data)
      let dlen ← int (b.free - b.data)
      let idle ← if flen < need then some true else (int (flen * 4)).map fun n => decide (n < dlen)
      if idle then
        let bufsize ← int (b.end_ * 2)
        let bufsize ← grow 32 bufsize (need + dlen)
        match malloc with
        | none => some (b, false)
        | some neu => some (⟨some (neu.write 0 (block.read b.data dlen)), bufsize, 0, dlen⟩, true)
      else some (⟨some (block.write 0 (block.read b.data dlen)), b.end_, 0, dlen⟩, true)
    else some (b, true)

def content (b : Binary) : List UInt8 :=
  match b.start with
  | none => []
  | some block => block.read b.data b.getDataLen

/-- What the caller does before `pour`: write bytes to the free area. -/
def fill (b : Binary) (bytes : List UInt8) : Binary :=
  if b.free + bytes.length ≤ b.end_ then
    { b with start := b.start.map fun block => block.write b.free bytes }
  else b

end Binary

inductive BinaryCall where
  | ensure (need : Nat) (malloc : Option ByteStore)
  | pour (bytes : List UInt8)
  | drain (len : Nat)
  | strip (len : Nat)
  | shrink (malloc : Option ByteStore)
  | clear

namespace Binary

/-- `none` is undefined behaviour. -/
def exec (b : Binary) : BinaryCall → Option (Binary × Bool)
  | .ensure need malloc => b.ensure need malloc
  | .pour bytes => some ((b.fill bytes).pour bytes.length)
  | .drain len => some (b.drain len, true)
  | .strip len => some (b.strip len)
  | .shrink malloc => (b.shrink malloc).map (·, true)
  | .clear => some (b.clear, true)

/-- A buffer and the bytes its caller takes it for. -/
structure System where
  binary : Binary
  queue : List UInt8

def expected (system : System) : BinaryCall → Bool
  | .pour bytes => decide (bytes.length ≤ system.binary.getFreeLen)
  | .strip len => decide (len ≤ system.queue.length)
  | _ => true

def remember (system : System) : BinaryCall → List UInt8
  | .pour bytes =>
    if bytes.length ≤ system.binary.getFreeLen then system.queue ++ bytes else system.queue
  | .drain len => system.queue.drop len
  | .strip len =>
    if len ≤ system.queue.length then system.queue.take (system.queue.length - len)
    else system.queue
  | .clear => []
  | _ => system.queue

def step (system : System) (call : BinaryCall) : Option System :=
  (system.binary.exec call).map fun out => ⟨out.1, remember system call⟩

def initial : System := ⟨create, []⟩

/-- Content and requested space stay within `2 ^ 27`, and there is memory. -/
def Fitting (system : System) : BinaryCall → Prop
  | .ensure need malloc => system.queue.length + need ≤ 2 ^ 27 ∧ malloc.isSome = true
  | .pour bytes => system.queue.length + bytes.length ≤ 2 ^ 27
  | .shrink malloc => malloc.isSome = true
  | _ => True

instance (system : System) (call : BinaryCall) : Decidable (Fitting system call) := by
  unfold Fitting
  cases call <;> infer_instance

/-- What the buffer promises whoever calls it next. -/
structure Sound (system : System) : Prop where
  data_le_free : system.binary.data ≤ system.binary.free
  free_le_end : system.binary.free ≤ system.binary.end_
  content : system.binary.content = system.queue
  answers : ∀ call, Fitting system call →
    ∃ next, system.binary.exec call = some (next, expected system call)
  ensures : ∀ need malloc next, Fitting system (.ensure need malloc) →
    system.binary.ensure need malloc = some (next, true) → need ≤ next.getFreeLen

end Binary

end Libsax.Net
