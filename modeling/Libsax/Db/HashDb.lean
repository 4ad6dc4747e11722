import Mathlib.Logic.Function.Basic
import Std.Data.TreeMap
import Libsax.Lib.Buckets
import Libsax.Lib.Run
import Libsax.Db.HashBucket

/-! The hash database `hashdb`: a directory of block chains, kept in memory as
far as it was needed, under dirty flags, and in one file. -/
namespace Libsax.Db

open Libsax.Lib

structure HashHeader where
  magic : Nat
  bucketSize : Nat
  dpow : Nat
  cacheSize : Nat
  numItems : Nat
  nBlock : Nat
deriving DecidableEq, Repr

namespace HashHeader

def consistent : Nat := 0x1a9999a1

def create : HashHeader :=
  { magic := consistent, bucketSize := 1024, dpow := 16, cacheSize := 1024 * 200, numItems := 0
    nBlock := 0 }

/-- `sizeof(hash_header)`: the `int` is padded to the alignment of a `size_t`. -/
def size : Nat := 48

def bytes (header : HashHeader) : List UInt8 :=
  Bytes.encode 8 header.magic ++ (Bytes.encode 8 header.bucketSize ++
    (Bytes.encode 8 header.dpow ++ (Bytes.encode 8 header.cacheSize ++
      (Bytes.encode 8 header.numItems ++ Bytes.encode 8 header.nBlock))))

def toFile (header : HashHeader) (file : ByteStore) : ByteStore := file.write 0 header.bytes

def fromFile (file : ByteStore) : HashHeader :=
  { magic := Bytes.decode (file.read 0 4)
    bucketSize := Bytes.decode (file.read 8 8)
    dpow := Bytes.decode (file.read 16 8)
    cacheSize := Bytes.decode (file.read 24 8)
    numItems := Bytes.decode (file.read 32 8)
    nBlock := Bytes.decode (file.read 40 8) }

end HashHeader

/-- `attached` says that `dataFile_`, `entry_` and `bucketAddr` are not `NULL`:
`open` and `close` set all three. `exists_` says that there is a file. -/
structure HashDb where
  sfh : HashHeader
  exists_ : Bool
  file : ByteStore
  attached : Bool
  isOpen : Bool
  activeNum : UInt32
  dirtyPageNum : UInt32
  directorySize : Nat
  dmask : Nat
  cacheSize : Nat
  entry : Nat → Chain
  bucketAddr : Nat → Nat

/-- `Cursor`: the block at a depth of a chain, and a place in its `str`. -/
structure Cursor where
  depth : Nat
  p : Nat
deriving DecidableEq, Repr

/-- How `search_` went along a chain. -/
structure Walk where
  found : Bool
  locn : Cursor
  chain : Chain
  loads : Nat
deriving DecidableEq, Repr

namespace HashDb

def create : HashDb :=
  { sfh := HashHeader.create, exists_ := false, file := fun _ => 0, attached := false
    isOpen := false, activeNum := 0, dirtyPageNum := 0, directorySize := 2 ^ 16
    dmask := 2 ^ 16 - 1, cacheSize := 0, entry := fun _ => [], bucketAddr := fun _ => 0 }

def setBucketSize (db : HashDb) (bucketSize : Nat) : HashDb :=
  { db with sfh := { db.sfh with bucketSize := bucketSize } }

/-- `setDegree`; `1 << dpow` is an `int`, so `dpow` is below 31. -/
def setDegree (db : HashDb) (dpow : Nat) : HashDb :=
  { db with
    sfh := { db.sfh with dpow := dpow }
    directorySize := 2 ^ dpow
    dmask := 2 ^ dpow - 1 }

def setCacheSize (db : HashDb) (cacheSize : Nat) : HashDb :=
  { db with sfh := { db.sfh with cacheSize := cacheSize }, cacheSize := cacheSize }

/-- `setDirty_` counts a block that was clean. -/
def setDirty (db : HashDb) (bucket : BucketChain) : HashDb × BucketChain :=
  if bucket.isDirty then (db, bucket)
  else ({ db with dirtyPageNum := db.dirtyPageNum + 1 }, { bucket with isDirty := true })

/-- `load_`: the block at the head of a chain, from the file if need be. -/
def load (db : HashDb) : Chain → HashDb × Chain
  | [] => (db, [])
  | bucket :: next =>
    if bucket.isLoaded then (db, bucket :: next)
    else ({ db with activeNum := db.activeNum + 1 },
      bucket.readFile db.sfh.bucketSize db.file next)

def allocateBlock (db : HashDb) : HashDb × BucketChain :=
  let fpos := sizeAdd (HashHeader.size + 8 * db.directorySize) (db.sfh.bucketSize * db.sfh.nBlock)
  ({ db with
      sfh := { db.sfh with nBlock := sizeAdd db.sfh.nBlock 1 }
      activeNum := db.activeNum + 1
      dirtyPageNum := db.dirtyPageNum + 1 },
    { str := some (List.replicate (BucketChain.blockSize db.sfh.bucketSize) 0)
      fpos := fpos
      num := 0
      isLoaded := true
      isDirty := true
      nextfpos := 0 })

/-- The queue of `commit` goes through the chains level by level; it yields the
loaded dirty blocks with their positions in the file. A block is named by its
bucket and its depth. -/
def dirtyBlocks : Nat → List (Nat × Nat × Chain) → List (Nat × (Nat × Nat))
  | 0, _ => []
  | _ + 1, [] => []
  | fuel + 1, (_, _, []) :: qnode => dirtyBlocks fuel qnode
  | fuel + 1, (i, depth, popNode :: next) :: qnode =>
    let qnode := if next.isEmpty then qnode else qnode ++ [(i, depth + 1, next)]
    if popNode.isLoaded && popNode.isDirty then
      (popNode.fpos, (i, depth)) :: dirtyBlocks fuel qnode
    else dirtyBlocks fuel qnode

/-- The chains that the queue starts with. -/
def entries (db : HashDb) : List (Nat × Nat × Chain) :=
  (List.range db.directorySize).map fun i => (i, 0, db.entry i)

/-- Each round of the loop drops a block or an empty chain. -/
def queueSize (qnode : List (Nat × Nat × Chain)) : Nat :=
  (qnode.map fun item => item.2.2.length + 1).sum

/-- `toBeWrited` is ordered by position and keeps the first block of a position. -/
def toBeWrited (db : HashDb) : Std.TreeMap Nat (Nat × Nat) :=
  (dirtyBlocks (queueSize db.entries) db.entries).foldl
    (fun blocks item => blocks.insertIfNew item.1 item.2) ∅

def writeBlock (db : HashDb) (block : Nat × Nat) : HashDb :=
  match (db.entry block.1).drop block.2 with
  | [] => db
  | bucket :: next =>
    let (file, bucket, written) := bucket.write db.file next
    { db with
      file := file
      entry := Function.update db.entry block.1 ((db.entry block.1).set block.2 bucket)
      dirtyPageNum := if written then db.dirtyPageNum - 1 else db.dirtyPageNum }

def directory (db : HashDb) : List UInt8 :=
  (List.range db.directorySize).flatMap fun i => Bytes.encode 8 (db.bucketAddr i)

def writeHeader (db : HashDb) : HashDb :=
  { db with file := (db.sfh.toFile db.file).write HashHeader.size db.directory }

def commit (db : HashDb) : HashDb :=
  if db.attached then
    db.toBeWrited.toList.foldl (fun db item => db.writeBlock item.2) db.writeHeader
  else db

def unloadAll (db : HashDb) : HashDb := { db with entry := fun _ => [], activeNum := 0 }

def flush (db : HashDb) : HashDb := db.commit.unloadAll

/-- The blocks that `sh_cache_` collects: in memory as they are in the file. -/
def unloadable (bucket : BucketChain) : Bool := bucket.isLoaded && !bucket.isDirty

def evict (bucket : BucketChain) : BucketChain :=
  if unloadable bucket then bucket.unload.1 else bucket

/-- `flushCacheImpl_`. The order of `sh_cache_` has no effect. -/
def flushCacheImpl (db : HashDb) : HashDb :=
  let db := if 2 * db.dirtyPageNum.toNat ≥ db.activeNum.toNat then db.commit else db
  let gone := (contents db.directorySize db.entry).countP
    fun bucket => unloadable bucket && bucket.unload.2
  { db with
    entry := fun i => if i < db.directorySize then (db.entry i).map evict else db.entry i
    activeNum := db.activeNum - UInt32.ofNat gone }

def flushCache (db : HashDb) : HashDb :=
  if db.activeNum.toNat > db.sfh.cacheSize then db.flushCacheImpl else db

/-- The loop of `search_` along a chain whose first block is loaded. -/
def searchChain (bucketSize : Nat) (file : ByteStore) (key : Key) : Nat → Chain → Option Walk
  | 0, _ => none
  | _ + 1, [] => none
  | fuel + 1, sa :: next => do
    let str ← sa.str
    match ← scan str key sa.num.toNatClampNeg 0 with
    | .found p => some ⟨true, ⟨0, p⟩, sa :: next, 0⟩
    | .past p =>
      let (behind, loaded) := BucketChain.loadNext bucketSize file next
      if behind.isEmpty then some ⟨false, ⟨0, p⟩, [sa], 0⟩
      else do
        let walk ← searchChain bucketSize file key fuel behind
        some
          { walk with
            locn := { walk.locn with depth := walk.locn.depth + 1 }
            chain := sa :: walk.chain
            loads := walk.loads + loaded.toNat }

/-- `sdb_hash_fun`, the hash function of a database that is given no other one. -/
def sdbHashFun (key : Key) : UInt32 :=
  key.foldl (fun convkey byte => 37 * convkey + byte.toUInt32) 0

def index (hashFun : Key → UInt32) (db : HashDb) (key : Key) : Nat :=
  (hashFun key).toNat &&& db.dmask

/-- The entry of a bucket, made from the directory if it is not in memory. -/
def enter (db : HashDb) (idx : Nat) : Chain :=
  match db.entry idx with
  | [] => if db.bucketAddr idx = 0 then [] else [BucketChain.create (db.bucketAddr idx)]
  | chain => chain

/-- `search_`. There are at most `nBlock` blocks to walk over. -/
def search_ (hashFun : Key → UInt32) (db : HashDb) (key : Key) :
    Option (HashDb × Bool × Option Cursor) :=
  if !db.isOpen then some (db, false, none)
  else
    let idx := index hashFun db key
    match db.enter idx with
    | [] => some (db, false, none)
    | entry => do
      let (db, entry) := db.load entry
      let walk ← searchChain db.sfh.bucketSize db.file key (db.sfh.nBlock + 1) entry
      let db :=
        { db with
          entry := Function.update db.entry idx walk.chain
          activeNum := db.activeNum + UInt32.ofNat walk.loads }
      some (db, walk.found, some walk.locn)

def putRecord (db : HashDb) (idx : Nat) (locn : Cursor) (key : Key) (value : Value) :
    Option HashDb := do
  let sa ← (db.entry idx)[locn.depth]?
  let str ← sa.str
  let str ← poke str locn.p (record key value)
  let (db, sa) := db.setDirty sa
  let sa := { sa with str := some str, num := sa.num + 1 }
  some
    { db with
      sfh := { db.sfh with numItems := sizeAdd db.sfh.numItems 1 }
      entry := Function.update db.entry idx ((db.entry idx).set locn.depth sa) }

/-- The last place of a block where a record of these sizes may start:
`bucketSize - BucketGap` in `size_t`. -/
def lastPlace (bucketSize ksize vsize : Nat) : Nat :=
  sizeSub bucketSize (sizeAdd (sizeAdd ksize vsize) (8 + 4 + 3 * 8))

def nextBlock (db : HashDb) (idx depth : Nat) : Option HashDb := do
  let sa ← (db.entry idx)[depth]?
  if ((db.entry idx).drop (depth + 1)).isEmpty then
    let (db, sa) := db.setDirty sa
    let (db, block) := db.allocateBlock
    some { db with
      entry := Function.update db.entry idx ((db.entry idx).set depth sa ++ [block]) }
  else
    let (next, loaded) :=
      BucketChain.loadNext db.sfh.bucketSize db.file ((db.entry idx).drop (depth + 1))
    some { db with
      entry := Function.update db.entry idx ((db.entry idx).take (depth + 1) ++ next)
      activeNum := db.activeNum + UInt32.ofNat loaded.toNat }

/-- `insert_` after the search: the block to put the record in is at the cursor,
behind it, or not there yet. -/
def addRecord (db : HashDb) (idx : Nat) (locn : Option Cursor) (key : Key) (value : Value) :
    Option HashDb :=
  match locn with
  | none =>
    if db.bucketAddr idx = 0 then
      let (db, block) := db.allocateBlock
      putRecord
        { db with
          entry := Function.update db.entry idx [block]
          bucketAddr := Function.update db.bucketAddr idx block.fpos }
        idx ⟨0, 0⟩ key value
    else none
  | some locn =>
    if locn.p > lastPlace db.sfh.bucketSize key.length value.length then do
      let db ← db.nextBlock idx locn.depth
      db.putRecord idx ⟨locn.depth + 1, 0⟩ key value
    else db.putRecord idx locn key value

def insert (hashFun : Key → UInt32) (db : HashDb) (key : Key) (value : Value) :
    Option (HashDb × Bool) :=
  if !db.isOpen then some (db, false)
  else do
    let (db, found, locn) ← search_ hashFun db.flushCache key
    if found then some (db, false)
    else do
      let db ← db.addRecord (index hashFun db key) locn key value
      some (db, true)

/-- `find`: the value, or `none` for the size -1. -/
def find (hashFun : Key → UInt32) (db : HashDb) (key : Key) :
    Option (HashDb × Option Value) :=
  if !db.isOpen then some (db, none)
  else do
    let (db, found, locn) ← search_ hashFun db key
    if !found then some (db, none)
    else do
      let locn ← locn
      let sa ← (db.entry (index hashFun db key))[locn.depth]?
      let str ← sa.str
      let vsz ← peekSize str (locn.p + 8)
      let value ← peek str (locn.p + 8 + 8 + key.length) vsz
      some (db, some value)

def cutRecord (db : HashDb) (idx : Nat) (locn : Cursor) : Option HashDb := do
  let sa ← (db.entry idx)[locn.depth]?
  let str ← sa.str
  let str ← closeGap db.sfh.bucketSize str locn.p
  let sa := { sa with str := some str, num := sa.num - 1 }
  let (db, sa) := db.setDirty sa
  some
    { db with
      sfh := { db.sfh with numItems := sizeSub db.sfh.numItems 1 }
      entry := Function.update db.entry idx ((db.entry idx).set locn.depth sa) }

def del (hashFun : Key → UInt32) (db : HashDb) (key : Key) : Option (HashDb × Bool) :=
  if !db.isOpen then some (db, false)
  else do
    let (db, found, locn) ← search_ hashFun db key
    if !found then some (db, false)
    else do
      let db ← db.cutRecord (index hashFun db key) (← locn)
      some (db, true)

def overwrite (db : HashDb) (idx depth p : Nat) (data : List UInt8) : Option HashDb := do
  let sa ← (db.entry idx)[depth]?
  let str ← sa.str
  let (db, sa) := db.setDirty sa
  let str ← poke str p data
  some { db with
    entry := Function.update db.entry idx ((db.entry idx).set depth { sa with str := some str }) }

def update (hashFun : Key → UInt32) (db : HashDb) (key : Key) (value : Value) :
    Option (HashDb × Bool) :=
  if !db.isOpen then some (db, false)
  else do
    let (db, found, locn) ← search_ hashFun db key
    if !found then db.insert hashFun key value
    else do
      let locn ← locn
      let idx := index hashFun db key
      let sa ← (db.entry idx)[locn.depth]?
      let str ← sa.str
      let ksz ← peekSize str locn.p
      let vsz ← peekSize str (locn.p + 8)
      if vsz = value.length then do
        let db ← db.overwrite idx locn.depth (locn.p + 8 + 8 + ksz) value
        some (db, true)
      else do
        let db ← db.overwrite idx locn.depth (locn.p + 8 + 8) (List.replicate key.length 0xff)
        db.insert hashFun key value

def search (hashFun : Key → UInt32) (db : HashDb) (key : Key) : Option (HashDb × Bool) := do
  let (db, found, _) ← search_ hashFun db.flushCache key
  some (db, found)

def readDirectory (file : ByteStore) (i : Nat) : Nat :=
  Bytes.decode (file.read (HashHeader.size + 8 * i) 8)

def open_ (db : HashDb) : HashDb × Bool :=
  if db.isOpen then (db, true)
  else if !db.exists_ then
    let db :=
      { db with
        exists_ := true
        file := fun _ => 0
        attached := true
        entry := fun _ => []
        bucketAddr := fun _ => 0 }
    ({ db.commit with isOpen := true }, true)
  else
    let sfh := HashHeader.fromFile db.file
    if sfh.magic ≠ HashHeader.consistent then ({ db with sfh := sfh }, false)
    else
      let directorySize := 2 ^ sfh.dpow
      let bucketAddr := fun i => if i < directorySize then readDirectory db.file i else 0
      ({ db with
          sfh := { sfh with cacheSize := if db.cacheSize = 0 then sfh.cacheSize else db.cacheSize }
          attached := true
          directorySize := directorySize
          dmask := directorySize - 1
          bucketAddr := bucketAddr
          entry := fun i => if bucketAddr i = 0 then [] else [BucketChain.create (bucketAddr i)]
          isOpen := true },
        true)

def close (db : HashDb) : HashDb × Bool :=
  if !db.isOpen then (db, true)
  else
    let db := { db with isOpen := false }.flush
    ({ db with attached := false, entry := fun _ => [], bucketAddr := fun _ => 0 }, true)

end HashDb

end Libsax.Db
