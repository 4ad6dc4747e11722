import Mathlib.Algebra.Ring.Nat
import Mathlib.Algebra.Ring.Int.Defs
import Mathlib.Data.List.Perm.Basic
import Libsax.Lib.Run
import Libsax.Lib.Window

/-! The pool of fixed-size blocks: a ring of free block numbers, and in front
of each block a header that tells whether the block is live and which
allocation handed it out. Pointers are byte offsets into the pool's memory. -/
namespace Libsax.Memory.BlockPool

open Libsax.Lib

/-- The eight bytes in front of a block. The union's `uint64_t key` is the two
halves taken together. -/
structure Header where
  id : Int32
  magic : UInt32
deriving DecidableEq, Repr

def headerSize : Int := 8

/-- `header` is what a header access finds at an offset from the first block. -/
structure Pool where
  blockSize : Int
  blockCount : Nat
  beginIndex : Nat
  endIndex : Nat
  nextMagic : UInt32
  ids : Nat → Int
  header : Int → Header

def Pool.headerOf (pool : Pool) (id : Int) : Int := id * pool.blockSize

/-- `FS_GET_BLOCK_ID`, as the code calls it: on the data pointer. -/
def Pool.idOf (pool : Pool) (block : Int) : Int := block.tdiv pool.blockSize

/-- The data of a block starts behind its header. -/
def Pool.blockOf (pool : Pool) (id : Int) : Int := pool.headerOf id + headerSize

/-- `g_fsb_needed`: computed in `unsigned long`, returned as `long`. -/
def needed (blockSize : Int) (blockCount : Int32) : Int :=
  ((blockSize + 8 + 8) * blockCount.toInt + 48).bmod (2 ^ 64)

/-- `g_fsb_available`: the subtraction and the division are made in `unsigned long`. -/
def available (total blockSize : Int) : Int :=
  let total := (total - 48).bmod (2 ^ 64)
  (total % 2 ^ 64 / ((blockSize + 8 + 8) % 2 ^ 64)).bmod (2 ^ 64)

/-- One round of the loop of `g_fsb_init`. -/
def initBlock (pool : Pool) (i : Nat) : Pool :=
  { pool with
    ids := Function.update pool.ids i i
    header := Function.update pool.header (pool.headerOf i) ⟨0, 0⟩ }

/-- `g_fsb_init` on the memory at `addr`, whatever that memory held before. -/
def init (addr : Option Pool) (total blockSize : Int) (blockCount : Int32) : Option Pool := do
  let pool ← addr
  if blockSize > 0 ∧ blockCount.toInt > 0 ∧ total ≥ needed blockSize blockCount then
    let pool := { pool with
      blockSize := blockSize + headerSize
      blockCount := blockCount.toInt.toNat
      beginIndex := 0
      nextMagic := 0
      endIndex := blockCount.toInt.toNat }
    return (List.range pool.blockCount).foldl initBlock pool
  else none

/-- `g_fsb_used`; the `long` differences are narrowed to `int`. -/
def used (pool : Pool) : Int32 :=
  let l := Int32.ofInt ((pool.beginIndex : Int) - pool.endIndex)
  if l.toInt > 0 then Int32.ofInt (l.toInt - 1) else Int32.ofInt (pool.blockCount + l.toInt)

/-- The magic of the next allocation; zero is kept for free blocks. -/
def followingMagic (magic : UInt32) : UInt32 := if magic + 1 = 0 then 1 else magic + 1

def alloc (pool : Pool) : Pool × Option Int :=
  if pool.beginIndex ≠ pool.endIndex then
    let id := pool.ids pool.beginIndex
    let magic := followingMagic pool.nextMagic
    let pool := { pool with
      beginIndex := nextSlot (pool.blockCount + 1) pool.beginIndex
      nextMagic := magic }
    if id ≥ 0 then
      ({ pool with
        header := Function.update pool.header (pool.headerOf id) ⟨Int32.ofInt id, magic⟩ },
        some (pool.blockOf id))
    else (pool, none)
  else (pool, none)

/-- The test that `g_fsb_free` and `g_fsb_getkey` make of a block. -/
def Pool.accepts (pool : Pool) (block : Int) : Bool :=
  let header := pool.header (block - headerSize)
  let id := pool.idOf block
  decide (id ≥ 0) && decide (id < pool.blockCount) && decide (id = header.id.toInt)
    && decide (header.magic ≠ 0)

def free (pool : Pool) (block : Int) : Pool × Int :=
  if pool.accepts block then
    ({ pool with
      header := Function.update pool.header (block - headerSize) ⟨0, 0⟩
      ids := Function.update pool.ids pool.endIndex (pool.idOf block)
      endIndex := nextSlot (pool.blockCount + 1) pool.endIndex }, 0)
  else (pool, -1)

def getkey (pool : Pool) (block : Int) : Header :=
  if pool.accepts block then pool.header (block - headerSize) else ⟨0, 0⟩

def getblock (pool : Pool) (key : Header) : Option Int :=
  if key.magic ≠ 0 ∧ key.id.toInt ≥ 0 ∧ key.id.toInt < pool.blockCount then
    if pool.header (pool.headerOf key.id.toInt) = key then some (pool.blockOf key.id.toInt)
    else none
  else none

def Pool.blocks (pool : Pool) : List Int :=
  (List.range pool.blockCount).map fun id : Nat => pool.blockOf id

/-- Ghost record of a block between the `g_fsb_alloc` that returned it and the
`g_fsb_free` that returned 0 for it; allocations are numbered from 1. -/
structure Allocation where
  block : Int
  serial : Nat
deriving DecidableEq, Repr

/-- The pool with the history its callers have seen. A key is filed with the
allocation that was live in the block when `g_fsb_getkey` returned it. -/
structure System where
  pool : Pool
  live : List Allocation
  serial : Nat
  issued : List (Header × Option Nat)

def start (pool : Pool) : System := ⟨pool, [], 0, []⟩

inductive Call where
  | alloc
  | free (block : Int)
  | getkey (block : Int)
  | getblock (key : Header)
deriving DecidableEq, Repr

def Call.isAlloc : Call → Bool
  | .alloc => true
  | _ => false

def System.owner (system : System) (block : Int) : Option Nat :=
  (system.live.find? fun allocation => allocation.block = block).map Allocation.serial

def System.alloc (system : System) : System :=
  match BlockPool.alloc system.pool with
  | (pool, some block) =>
    { system with
      pool := pool
      live := ⟨block, system.serial + 1⟩ :: system.live
      serial := system.serial + 1 }
  | (pool, none) => { system with pool := pool }

def System.free (system : System) (block : Int) : System :=
  match BlockPool.free system.pool block with
  | (pool, 0) =>
    { system with
      pool := pool
      live := system.live.filter fun allocation => allocation.block ≠ block }
  | (pool, _) => { system with pool := pool }

def System.getkey (system : System) (block : Int) : System :=
  { system with
    issued := (BlockPool.getkey system.pool block, system.owner block) :: system.issued }

/-- One call on the pool; pointers are those of blocks of this pool. -/
def step (system : System) : Call → Option System
  | .alloc => some system.alloc
  | .free block => if block ∈ system.pool.blocks then some (system.free block) else none
  | .getkey block => if block ∈ system.pool.blocks then some (system.getkey block) else none
  | .getblock _ => some system

end Libsax.Memory.BlockPool
