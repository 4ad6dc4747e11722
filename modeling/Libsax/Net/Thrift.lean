import Libsax.Net.BufferRefines

/-! `thrift_binary_protocol`, over a `buffer`. Its functions return how many bytes they
stand for and do not look at what the buffer answers, so that a failed read leaves a
variable as it was. One that was not set before is `none` then, and so is a function that
uses it. -/
namespace Libsax.Net.Thrift

open Libsax.Lib

/-- `TType`, with what a byte may also be cast to -/
inductive TType where
  | stop
  | void
  | bool
  | byte
  | i16
  | i32
  | u64
  | i64
  | double
  | string
  | struct
  | map
  | set
  | list
  | utf8
  | utf16
  | other (code : UInt8)
deriving DecidableEq, Repr

namespace TType

def ofByte (code : UInt8) : TType :=
  if code = 0 then stop
  else if code = 1 then void
  else if code = 2 then bool
  else if code = 3 then byte
  else if code = 6 then i16
  else if code = 8 then i32
  else if code = 9 then u64
  else if code = 10 then i64
  else if code = 4 then double
  else if code = 11 then string
  else if code = 12 then struct
  else if code = 13 then map
  else if code = 14 then set
  else if code = 15 then list
  else if code = 16 then utf8
  else if code = 17 then utf16
  else other code

def toByte : TType → UInt8
  | stop => 0
  | void => 1
  | bool => 2
  | byte => 3
  | i16 => 6
  | i32 => 8
  | u64 => 9
  | i64 => 10
  | double => 4
  | string => 11
  | struct => 12
  | map => 13
  | set => 14
  | list => 15
  | utf8 => 16
  | utf16 => 17
  | other code => code

end TType

section Writing

variable (heap : Heap)

/-- What a function that writes does: the buffer after it, and how many bytes it was to
write. -/
abbrev Writer := Buffer → Option (Buffer × UInt32)

def writeBool (value : Bool) : Writer := fun buf => do
  let (buf, _) ← buf.put heap [if value then 1 else 0]
  return (buf, 1)

def writeByte (byte : UInt8) : Writer := fun buf => do
  let (buf, _) ← buf.put heap [byte]
  return (buf, 1)

def writeI16 (i16 : UInt16) : Writer := fun buf => do
  let (buf, _) ← buf.putInt heap 2 i16.toNat true
  return (buf, 2)

def writeI32 (i32 : UInt32) : Writer := fun buf => do
  let (buf, _) ← buf.putInt heap 4 i32.toNat true
  return (buf, 4)

def writeI64 (i64 : UInt64) : Writer := fun buf => do
  let (buf, _) ← buf.putInt heap 8 i64.toNat true
  return (buf, 8)

def writeDouble (bits : UInt64) : Writer := fun buf => do
  let (buf, _) ← buf.putInt heap 8 bits.toNat true
  return (buf, 8)

def writeString (str : List UInt8) : Writer := fun buf => do
  let size := UInt32.ofNat str.length
  let (buf, result) ← writeI32 heap size buf
  if size > 0 then
    let (buf, _) ← buf.put heap (str.take size.toNat)
    return (buf, result + size)
  else return (buf, result + size)

def writeFieldBegin (fieldType : TType) (fieldId : UInt16) : Writer := fun buf => do
  let (buf, wsize) ← writeByte heap fieldType.toByte buf
  let (buf, more) ← writeI16 heap fieldId buf
  return (buf, wsize + more)

def writeFieldStop : Writer := writeByte heap TType.stop.toByte

def writeMapBegin (keyType valType : TType) (size : UInt32) : Writer := fun buf => do
  let (buf, wsize) ← writeByte heap keyType.toByte buf
  let (buf, more) ← writeByte heap valType.toByte buf
  let (buf, last) ← writeI32 heap size buf
  return (buf, wsize + more + last)

def writeListBegin (elemType : TType) (size : UInt32) : Writer := fun buf => do
  let (buf, wsize) ← writeByte heap elemType.toByte buf
  let (buf, more) ← writeI32 heap size buf
  return (buf, wsize + more)

def writeSetBegin (elemType : TType) (size : UInt32) : Writer := writeListBegin heap elemType size

end Writing

/-- What a function that reads an integer does: the variable after it is `none` if the
buffer refused. -/
abbrev Reader := Buffer → Option (Buffer × Option Nat × UInt32)

def readInt (size : Nat) (result : UInt32) : Reader := fun buf => do
  let (buf, number) ← buf.getInt size true
  return (buf, number, result)

def readByte : Reader := readInt 1 1
/-- The comparison with zero is a use of the byte. -/
def readBool (buf : Buffer) : Option (Buffer × Bool × UInt32) := do
  let (buf, b, result) ← readInt 1 1 buf
  return (buf, (← b) ≠ 0, result)
def readI16 : Reader := readInt 2 2
def readI32 : Reader := readInt 4 4
def readI64 : Reader := readInt 8 8
def readDouble : Reader := readInt 8 8

def typeOf (byte : Option Nat) : Option TType :=
  byte.map fun byte => .ofByte (UInt8.ofNat byte)

/-- `readStringBody`; `str.resize` fills with zeros. -/
def readStringBody (buf : Buffer) (size : UInt32) : Option (Buffer × List UInt8 × UInt32) :=
  if size = 0 then some (buf, [], 0)
  else do
    let (buf, bytes) ← buf.get size
    return (buf, bytes.getD (List.replicate size.toNat 0), size)

def readString (buf : Buffer) : Option (Buffer × List UInt8 × UInt32) := do
  let (buf, size, result) ← readI32 buf
  let (buf, str, more) ← readStringBody buf (UInt32.ofNat (← size))
  return (buf, str, result + more)

/-- The id is set to zero behind the last field. -/
def readFieldBegin (buf : Buffer) : Option (Buffer × TType × Option Nat × UInt32) := do
  let (buf, type, result) ← readByte buf
  let fieldType ← typeOf type
  if fieldType = .stop then return (buf, fieldType, some 0, result)
  let (buf, fieldId, more) ← readI16 buf
  return (buf, fieldType, fieldId, result + more)

/-- The types and the size may all be missing. -/
def readMapBegin (buf : Buffer) :
    Option (Buffer × Option TType × Option TType × Option Nat × UInt32) := do
  let (buf, k, result) ← readByte buf
  let (buf, v, more) ← readByte buf
  let (buf, sizei, last) ← readI32 buf
  return (buf, typeOf k, typeOf v, sizei, result + more + last)

def readListBegin (buf : Buffer) : Option (Buffer × Option TType × Option Nat × UInt32) := do
  let (buf, e, result) ← readByte buf
  let (buf, sizei, more) ← readI32 buf
  return (buf, typeOf e, sizei, result + more)

def readSetBegin (buf : Buffer) : Option (Buffer × Option TType × Option Nat × UInt32) :=
  readListBegin buf

/-- What `skip` does of one type: the buffer after it, and what it returns. -/
abbrev Skipper := Buffer → Option (Buffer × UInt32)

/-- `_buf->skip(length); return length;` -/
def skipBytes (heap : Heap) (length : UInt32) : Skipper := fun buf => do
  let (buf, _) ← buf.skip heap length
  return (buf, length)

/-- `for (i = 0; i < size; i++)` -/
def skipLoop (body : Skipper) : Nat → Buffer → UInt32 → Option (Buffer × UInt32)
  | 0, buf, result => some (buf, result)
  | size + 1, buf, result => do
    let (buf, more) ← body buf
    skipLoop body size buf (result + more)

def skipEntry (key value : Skipper) : Skipper := fun buf => do
  let (buf, first) ← key buf
  let (buf, second) ← value buf
  return (buf, first + second)

/-- `while (true)` over the fields of a structure. -/
def fieldLoop (skip : TType → Skipper) : Nat → Buffer → UInt32 → Option (Buffer × UInt32)
  | 0, _, _ => none
  | fuel + 1, buf, result => do
    let (buf, ftype, _, more) ← readFieldBegin buf
    if ftype = .stop then return (buf, result + more)
    let (buf, last) ← skip ftype buf
    fieldLoop skip fuel buf (result + more + last)

/-- An element type is used only if there are elements. -/
def typed (skip : TType → Skipper) (type : Option TType) : Skipper := fun buf => do
  skip (← type) buf

/-- `skip`, to a depth of `fuel` and over as many fields. -/
def skip (heap : Heap) : Nat → TType → Skipper
  | 0, _, _ => none
  | fuel + 1, type, buf =>
    match type with
    | .bool => skipBytes heap 1 buf
    | .byte => skipBytes heap 1 buf
    | .i16 => skipBytes heap 2 buf
    | .i32 => skipBytes heap 4 buf
    | .i64 => skipBytes heap 8 buf
    | .double => skipBytes heap 8 buf
    | .string => do
      let (buf, size, result) ← readI32 buf
      let (buf, more) ← skipBytes heap (UInt32.ofNat (← size)) buf
      return (buf, result + more)
    | .struct => fieldLoop (skip heap fuel) fuel buf 0
    | .map => do
      let (buf, keyType, valType, size, result) ← readMapBegin buf
      skipLoop (skipEntry (typed (skip heap fuel) keyType) (typed (skip heap fuel) valType))
        (← size) buf result
    | .set => do
      let (buf, elemType, size, result) ← readSetBegin buf
      skipLoop (typed (skip heap fuel) elemType) (← size) buf result
    | .list => do
      let (buf, elemType, size, result) ← readListBegin buf
      skipLoop (typed (skip heap fuel) elemType) (← size) buf result
    | _ => some (buf, 0)

end Libsax.Net.Thrift
