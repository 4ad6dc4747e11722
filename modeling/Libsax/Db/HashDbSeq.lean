import Libsax.Db.HashDbUpdate

/-! Iteration over the hash database. The end of a block is where the size behind a
record is 0, whatever the counter of the block says. -/
namespace Libsax.Db

open Libsax.Lib

/-- `Cursor`, with the bucket whose chain it points into. -/
structure Locn where
  idx : Nat
  depth : Nat
  p : Nat
deriving DecidableEq, Repr

namespace HashDb

/-- `get_`, for a caller that has this much room; a longer key or value is written
beyond it. The inner `none` is the answer `false`. -/
def get_ (db : HashDb) (locn : Option Locn) (keyRoom valRoom : Nat) :
    Option (Option (Key × Value)) :=
  if !db.isOpen then some none
  else
    match locn with
    | none => some none
    | some locn => do
      let sa ← (db.entry locn.idx)[locn.depth]?
      if sa.num = 0 then some none
      else do
        let str ← sa.str
        let ksz ← peekSize str locn.p
        let vsz ← peekSize str (locn.p + 8)
        let key ← peek str (locn.p + 8 + 8) ksz
        let value ← peek str (locn.p + 8 + 8 + ksz) vsz
        if ksz ≤ keyRoom ∧ vsz ≤ valRoom then some (some (key, value)) else none

def loadNext (db : HashDb) (idx depth : Nat) : HashDb :=
  let (next, loaded) :=
    BucketChain.loadNext db.sfh.bucketSize db.file ((db.entry idx).drop (depth + 1))
  { db with
    entry := Function.update db.entry idx ((db.entry idx).take (depth + 1) ++ next)
    activeNum := db.activeNum + UInt32.ofNat loaded.toNat }

/-- The loops `while (sa && sa->num <= 0) sa = loadNext_(sa)`, from the block `depth`
on: the first block with records. -/
def skipEmpty : Nat → HashDb → Nat → Nat → Option (HashDb × Option Nat)
  | 0, _, _, _ => none
  | fuel + 1, db, idx, depth =>
    match (db.entry idx)[depth]? with
    | none => some (db, none)
    | some sa =>
      if sa.num ≤ 0 then skipEmpty fuel (db.loadNext idx depth) idx (depth + 1)
      else some (db, some depth)

/-- The head of a bucket, made from the directory and loaded. -/
def enterLoaded (db : HashDb) (idx : Nat) : HashDb :=
  let (db, entry) := db.load (db.enter idx)
  { db with entry := Function.update db.entry idx entry }

/-- `isEmptyBucket_` of a bucket that there is: its first block with records. -/
def isEmptyBucket (db : HashDb) (idx : Nat) : Option (HashDb × Option Nat) :=
  skipEmpty (db.sfh.nBlock + 1) (db.enterLoaded idx) idx 0

/-- The loop of `seq_` over the buckets from `idx` on. -/
def nextBucket : Nat → HashDb → Nat → Option (HashDb × Option Locn)
  | 0, _, _ => none
  | fuel + 1, db, idx =>
    if idx ≥ db.directorySize then some (db, none)
    else do
      let (db, found) ← db.isEmptyBucket idx
      match found with
      | some depth => some (db, some ⟨idx, depth, 0⟩)
      | none =>
        if idx ≥ db.directorySize - 1 then some (db, none) else nextBucket fuel db (idx + 1)

/-- The bucket behind that of a key, or the first one if there is no key. -/
def bucketAfter (hashFun : Key → UInt32) (db : HashDb) : Option Key → Nat
  | some key => index hashFun db key + 1
  | none => 0

/-- The next block with records: in the chain, or in the buckets behind that of `ptr`. -/
def seqBlock (hashFun : Key → UInt32) (db : HashDb) (idx depth : Nat) (ptr : Option Key) :
    Option (HashDb × Option Locn) := do
  let (db, found) ← skipEmpty (db.sfh.nBlock + 1) (db.loadNext idx depth) idx (depth + 1)
  match found with
  | some depth => some (db, some ⟨idx, depth, 0⟩)
  | none => db.nextBucket (db.directorySize + 1) (bucketAfter hashFun db ptr)

def seq_ (hashFun : Key → UInt32) (db : HashDb) (locn : Option Locn) :
    Option (HashDb × Option Locn × Bool) :=
  if !db.isOpen then some (db, locn, false)
  else
    match locn with
    | none => some (db, none, false)
    | some ⟨idx, depth, p⟩ => do
      let sa ← (db.entry idx)[depth]?
      if sa.num ≠ 0 then do
        let str ← sa.str
        let ksize ← peekSize str p
        let vsize ← peekSize str (p + 8)
        let ptr ← peek str (p + 8 + 8) ksize
        let p := p + 8 + 8 + ksize + vsize
        if (← peekSize str p) = 0 then do
          let (db, locn) ← db.seqBlock hashFun idx depth (some ptr)
          some (db, locn, true)
        else some (db, some ⟨idx, depth, p⟩, true)
      else do
        let (db, locn) ← db.seqBlock hashFun idx depth none
        some (db, locn, true)

/-- `safeFlushCache_` of a cursor: it is looked up again after blocks were
unloaded. The record goes through arrays of fixed sizes. -/
def safeFlushCache (hashFun : Key → UInt32) (db : HashDb) (locn : Option Locn) :
    Option (HashDb × Option Locn) :=
  if db.activeNum.toNat > db.sfh.cacheSize then do
    let (key, _) ← (← db.get_ locn 1024 (1024 * 64))
    let (db, _, locn) ← search_ hashFun db.flushCacheImpl.flushCache key
    some (db, locn.map fun locn => ⟨index hashFun db key, locn.depth, locn.p⟩)
  else some (db, locn)

def seq (hashFun : Key → UInt32) (db : HashDb) (locn : Option Locn) :
    Option (HashDb × Option Locn × Bool) := do
  let (db, locn) ← db.safeFlushCache hashFun locn
  db.seq_ hashFun locn

/-- The loop of `get_first_locn` over the buckets from `idx` on. -/
def firstBucket : Nat → HashDb → Nat → HashDb × Option Locn
  | 0, db, _ => (db, none)
  | left + 1, db, idx =>
    if (db.enter idx).isEmpty then firstBucket left db (idx + 1)
    else (db.enterLoaded idx, some ⟨idx, 0, 0⟩)

def firstRecord (hashFun : Key → UInt32) : Nat → HashDb → Option Locn →
    Option (HashDb × Option Locn)
  | 0, _, _ => none
  | fuel + 1, db, locn => do
    match ← db.get_ locn 1024 (db.sfh.bucketSize - 4 - 8) with
    | some _ => some (db, locn)
    | none => do
      let (db, locn, _) ← db.seq_ hashFun locn
      firstRecord hashFun fuel db locn

def getFirstLocn (hashFun : Key → UInt32) (db : HashDb) : Option (HashDb × Option Locn) :=
  if db.sfh.numItems = 0 then some (db, none)
  else
    let (db, locn) := firstBucket db.directorySize db 0
    firstRecord hashFun 2 db locn

end HashDb

/-- Whoever iterates, with what the cursor pointed to so far. -/
structure Reader where
  db : HashDb
  locn : Option Locn
  seen : List (Key × Value)

def Reader.look (db : HashDb) (locn : Option Locn) (seen : List (Key × Value)) :
    Option Reader := do
  let record ← db.get_ locn (2 ^ 64) (2 ^ 64)
  some ⟨db, locn, seen ++ record.toList⟩

def Reader.first (hashFun : Key → UInt32) (db : HashDb) : Option Reader := do
  let (db, locn) ← db.getFirstLocn hashFun
  look db locn []

def Reader.next (hashFun : Key → UInt32) (reader : Reader) (_ : Unit) : Option Reader := do
  let (db, locn, _) ← reader.db.seq hashFun reader.locn
  look db locn reader.seen

/-- The position behind `left` records from `p` on. -/
def endOf (str : List UInt8) : Nat → Nat → Option Nat
  | 0, p => some p
  | left + 1, p => do
    let ksz ← peekSize str p
    let vsz ← peekSize str (p + 8)
    endOf str left (p + 8 + 8 + (ksz + vsz))

/-- Behind the last record of the block there is a size of 0. -/
def ended (db : HashDb) (locn : Locn) : Bool :=
  match (db.entry locn.idx)[locn.depth]? with
  | none => false
  | some sa =>
    match sa.str.bind fun str => (endOf str sa.num.toNatClampNeg 0).bind (peekSize str) with
    | none => false
    | some size => size = 0

/-- The record under the cursor can be carried over a flush of the cache, if one is due. -/
def carried (db : HashDb) (locn : Option Locn) : Bool :=
  db.activeNum.toNat ≤ db.sfh.cacheSize || (db.get_ locn 1024 (1024 * 64)).join.isSome

/-- `get_first_locn` reads the first record into an array of 1024 bytes for the key. -/
def firstFits (db : HashDb) : Bool :=
  ((db.stored db.directorySize).bind List.head?).all fun entry => entry.1.length ≤ 1024

/-- The iterator stands at a record that it can go on from. -/
def Reader.Safe (reader : Reader) (_ : Unit) : Prop :=
  carried reader.db reader.locn = true ∧ reader.locn.all (ended reader.db) = true

instance (reader : Reader) (step : Unit) : Decidable (reader.Safe step) := by
  unfold Reader.Safe
  infer_instance

end Libsax.Db
