import Libsax.Lib.Bytes
import Libsax.Lib.ByteStore

/-! The blocks of the hash database, `bucket_chain`: fixed pieces of the file
that hold records one after the other and name the block that follows them. -/
namespace Libsax.Db

open Libsax.Lib

abbrev Key := List UInt8

abbrev Value := List UInt8

def sizeAdd (a b : Nat) : Nat := (a + b) % 2 ^ 64

def sizeSub (a b : Nat) : Nat := if b ≤ a then a - b else a + 2 ^ 64 - b

theorem sizeAdd_eq {a b : Nat} (hlt : a + b < 2 ^ 64) : sizeAdd a b = a + b :=
  Nat.mod_eq_of_lt hlt

theorem sizeSub_eq {a b : Nat} (hle : b ≤ a) : sizeSub a b = a - b := if_pos hle

/-- `str` is `none` while the pointer is `NULL`. -/
structure BucketChain where
  str : Option (List UInt8)
  fpos : Nat
  num : Int32
  isLoaded : Bool
  isDirty : Bool
  nextfpos : Nat
deriving DecidableEq, Repr

/-- A pointer to a block: the block with those that `next` leads to, or `NULL`. -/
abbrev Chain := List BucketChain

namespace BucketChain

def create (fpos : Nat) : BucketChain :=
  { str := none, fpos := fpos, num := 0, isLoaded := false, isDirty := true, nextfpos := 0 }

def blockSize (bucketSize : Nat) : Nat := bucketSize - 4 - 8

/-- The position of the next block: that of `next`, if there is one in memory. -/
def linkTo (bucket : BucketChain) : Chain → Nat
  | [] => bucket.nextfpos
  | next :: _ => next.fpos

/-- `write`, with the blocks behind `next`. -/
def write (file : ByteStore) (bucket : BucketChain) (next : Chain) :
    ByteStore × BucketChain × Bool :=
  match bucket.isDirty, bucket.isLoaded, bucket.str with
  | true, true, some str =>
    let nextfpos := bucket.linkTo next
    let file := file.write bucket.fpos (Bytes.encode 4 bucket.num.toUInt32.toNat)
    let file := file.write (bucket.fpos + 4) str
    let file := file.write (bucket.fpos + 4 + str.length) (Bytes.encode 8 nextfpos)
    (file, { bucket with nextfpos := nextfpos, isDirty := false }, true)
  | _, _, _ => (file, bucket, false)

theorem write_idle (bucket : BucketChain)
    (hidle : ¬(bucket.isLoaded = true ∧ bucket.isDirty = true)) (file : ByteStore) (next : Chain) :
    bucket.write file next = (file, bucket, false) := by
  unfold write
  split
  · next hdirty hloaded _ => exact absurd ⟨hloaded, hdirty⟩ hidle
  · rfl

/-- `read_file`: the block and what is behind it afterwards. -/
def readFile (bucketSize : Nat) (file : ByteStore) (bucket : BucketChain) (next : Chain) : Chain :=
  if bucket.isLoaded then bucket :: next
  else
    let num := Int32.ofNat (Bytes.decode (file.read bucket.fpos 4))
    let str := file.read (bucket.fpos + 4) (blockSize bucketSize)
    let nextfpos := Bytes.decode (file.read (bucket.fpos + 4 + blockSize bucketSize) 8)
    let next :=
      if nextfpos = 0 then next
      else
        match next with
        | [] => [create nextfpos]
        | behind :: rest => { behind with fpos := nextfpos } :: rest
    { bucket with
      str := some str
      num := num
      nextfpos := nextfpos
      isLoaded := true
      isDirty := false } :: next

/-- `loadNext`, given what is behind the block; the flag says whether a block
was read from the file. -/
def loadNext (bucketSize : Nat) (file : ByteStore) : Chain → Chain × Bool
  | [] => ([], false)
  | next :: rest =>
    if next.isLoaded then (next :: rest, false)
    else (readFile bucketSize file next rest, true)

def unload (bucket : BucketChain) : BucketChain × Bool :=
  ({ bucket with str := none, isLoaded := false }, bucket.str.isSome)

end BucketChain

/-- Read `length` bytes of a block; a read that leaves the block is undefined. -/
def peek (str : List UInt8) (p length : Nat) : Option (List UInt8) :=
  if p + length ≤ str.length then some ((str.drop p).take length) else none

/-- `memcpy` into a block; a write that leaves the block is undefined. -/
def poke (str : List UInt8) (p : Nat) (data : List UInt8) : Option (List UInt8) :=
  if p + data.length ≤ str.length then
    some (str.take p ++ data ++ str.drop (p + data.length))
  else none

def peekSize (str : List UInt8) (p : Nat) : Option Nat := (peek str p 8).map Bytes.decode

/-- What an inserted record looks like: its two sizes, its key, its value. -/
def record (key : Key) (value : Value) : List UInt8 :=
  Bytes.encode 8 key.length ++ Bytes.encode 8 value.length ++ key ++ value

/-- What `del_` does to the bytes of a block: those behind a record move over it. -/
def closeGap (bucketSize : Nat) (str : List UInt8) (p : Nat) : Option (List UInt8) := do
  let ksz ← peekSize str p
  let vsz ← peekSize str (p + 8)
  let p := p + 8 + 8
  let leftSize := sizeSub (sizeSub bucketSize (2 * 8 + ksz + vsz)) p
  let moved ← peek str (p + ksz + vsz) leftSize
  poke str (p - 2 * 8) moved

inductive Place where
  /-- the record of the key starts here -/
  | found (p : Nat)
  /-- no record of the key; the last record ends here -/
  | past (p : Nat)
deriving DecidableEq, Repr

/-- The loop of `search_` over the records of one block, `left` of them to come. -/
def scan (str : List UInt8) (key : Key) : Nat → Nat → Option Place
  | 0, p => some (.past p)
  | left + 1, p => do
    let ksz ← peekSize str p
    let vsz ← peekSize str (p + 8)
    let p := p + 8 + 8
    if ksz ≠ key.length then scan str key left (p + (ksz + vsz))
    else
      let stored ← peek str p ksz
      if stored = key then some (.found (p - 2 * 8)) else scan str key left (p + (ksz + vsz))

end Libsax.Db
