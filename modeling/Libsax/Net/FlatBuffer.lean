import Libsax.Lib.Bytes

/-! What a net buffer is for: one array of bytes with a cursor, a mark and, in
reading mode, a limit. A byte that was skipped or never written is `none`. -/
namespace Libsax.Net

open Libsax.Lib

structure FlatBuffer where
  cells : Nat → Option UInt8
  position : Nat
  mark : Option Nat
  limit : Option Nat

namespace FlatBuffer

def create : FlatBuffer := ⟨fun _ => none, 0, none, none⟩

def write (flat : FlatBuffer) (data : List (Option UInt8)) : FlatBuffer :=
  { flat with
    cells := fun index =>
      if flat.position ≤ index ∧ index < flat.position + data.length then
        (data[index - flat.position]?).join
      else flat.cells index
    position := flat.position + data.length }

def read (flat : FlatBuffer) (length : Nat) : List (Option UInt8) :=
  (List.range length).map fun index => flat.cells (flat.position + index)

/-- Reading is open and there are `length` bytes up to the limit. -/
def Readable (flat : FlatBuffer) (length : Nat) : Prop :=
  ∃ limit, flat.limit = some limit ∧ length ≤ limit - flat.position

instance (flat : FlatBuffer) (length : Nat) : Decidable (flat.Readable length) :=
  match h : flat.limit with
  | none => .isFalse fun ⟨_, hlimit, _⟩ => by simp [h] at hlimit
  | some limit =>
    if hle : length ≤ limit - flat.position then .isTrue ⟨limit, h, hle⟩
    else .isFalse fun ⟨other, hother, hle'⟩ => by
      rw [h] at hother
      cases hother
      exact hle hle'

def put (flat : FlatBuffer) (data : List UInt8) : FlatBuffer × Bool :=
  if flat.limit.isSome then (flat, false) else (flat.write (data.map some), true)

def get (flat : FlatBuffer) (length : Nat) : FlatBuffer × Option (List (Option UInt8)) :=
  if flat.Readable length then
    ({ flat with position := flat.position + length }, some (flat.read length))
  else (flat, none)

def skip (flat : FlatBuffer) (length : Nat) : FlatBuffer × Bool :=
  if flat.limit.isSome ∧ ¬ flat.Readable length then (flat, false)
  else
    ({ flat with mark := some flat.position, position := flat.position + length }, true)

def setMark (flat : FlatBuffer) : FlatBuffer := { flat with mark := some flat.position }

def reset (flat : FlatBuffer) : FlatBuffer × Bool :=
  match flat.mark with
  | none => (flat, false)
  | some mark => ({ flat with position := mark, mark := some flat.position }, true)

def rewind (flat : FlatBuffer) : FlatBuffer :=
  { flat with position := 0, mark := some flat.position }

def flip (flat : FlatBuffer) : FlatBuffer × Bool :=
  match flat.limit with
  | some _ => (flat, false)
  | none => ({ flat with position := 0, mark := none, limit := some flat.position }, true)

def compact (flat : FlatBuffer) : FlatBuffer × Bool :=
  match flat.limit with
  | none => (flat, false)
  | some limit =>
    (⟨fun index => if index < limit - flat.position then flat.cells (flat.position + index)
        else none, limit - flat.position, none, none⟩, true)

/-- Move `length` bytes from one buffer to the end of another. -/
def getBuffer (flat other : FlatBuffer) (length : Nat) : FlatBuffer × FlatBuffer × Bool :=
  if flat.Readable length ∧ other.limit = none then
    ({ flat with position := flat.position + length }, other.write (flat.read length), true)
  else (flat, other, false)

def remaining (flat : FlatBuffer) : Option Nat := flat.limit.map fun limit => limit - flat.position

def dataLength (flat : FlatBuffer) : Option Nat :=
  if flat.limit.isSome then none else some flat.position

def wire (size number : Nat) (bigendian : Bool) : List UInt8 :=
  if bigendian then (Bytes.encode size number).reverse else Bytes.encode size number

def number (bytes : List (Option UInt8)) (bigendian : Bool) : Option Nat :=
  if bytes.all Option.isSome then
    let known := bytes.map fun byte => byte.getD 0
    some (Bytes.decode (if bigendian then known.reverse else known))
  else none

end FlatBuffer

end Libsax.Net
