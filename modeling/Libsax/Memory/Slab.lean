import Mathlib.Algebra.Ring.Nat
import Mathlib.Logic.Function.Basic
import Libsax.Lib.Run

/-! `g_slab`: pages are handed out in runs, or one by one to hold chunks of one size, with a bit for
each chunk. The bits of the smallest chunks lie in their page. Addresses count from the start of
the pages. `none` is an access outside of the pool or through a null pointer, or a loop without
end. -/
namespace Libsax.Memory

inductive SlabRef where
  | slot (number : Nat)
  | page (number : Nat)
  | free
deriving DecidableEq, Repr

/-- The two lowest bits of `prev`: `SLAB_PAGE`, `SLAB_BIG`, `SLAB_EXACT`, `SLAB_SMALL`. -/
inductive SlabType where
  | page
  | big
  | exact
  | small
deriving DecidableEq, Repr

@[ext] structure SlabPage where
  slab : BitVec 64
  next : Option SlabRef
  prev : Option SlabRef × SlabType
deriving DecidableEq, Repr

def slabPageStart : BitVec 64 := 0x8000000000000000

def slabPageBusy : BitVec 64 := 0xffffffffffffffff

def slabBusy : BitVec 64 := 0xffffffffffffffff

def slabShiftMask : BitVec 64 := 0x000000000000000f

def slabMapMask : BitVec 64 := 0xffffffff00000000

def slabMapShift : Nat := 32

def minShift : Nat := 3

/-- What `g_slab_setup` computes. -/
structure SlabSizes where
  pagesize : Nat
  pagesizeShift : Nat
  maxSize : Nat
  exactSize : Nat
  exactShift : Nat
deriving DecidableEq, Repr

/-- `g_slab_setup`; its loops count how often a number can be halved. -/
def slabSetup (pageSize : Nat) : SlabSizes where
  pagesize := pageSize
  pagesizeShift := pageSize.log2
  maxSize := pageSize / 2
  exactSize := pageSize / (8 * 8)
  exactShift := (pageSize / (8 * 8)).log2

/-- `node` is what the pointers lead to, `bitmap` the words at the start of a page. `extent` is how
far the memory reaches from the start of the pages on. -/
structure SlabPool where
  sizes : SlabSizes
  pages : Nat
  extent : Nat
  node : SlabRef → SlabPage
  bitmap : Nat → Nat → BitVec 64

namespace SlabPool

def deref (pool : SlabPool) : Option SlabRef → Option SlabRef
  | none => none
  | some (.slot number) =>
    if number < pool.sizes.pagesizeShift - minShift then some (.slot number) else none
  | some (.page number) => if number < pool.pages then some (.page number) else none
  | some .free => some .free

def setNode (pool : SlabPool) (ref : SlabRef) (page : SlabPage) : SlabPool :=
  { pool with node := Function.update pool.node ref page }

def setNext (pool : SlabPool) (ref : SlabRef) (next : Option SlabRef) : SlabPool :=
  pool.setNode ref { pool.node ref with next := next }

def setPrev (pool : SlabPool) (ref : SlabRef) (prev : Option SlabRef × SlabType) : SlabPool :=
  pool.setNode ref { pool.node ref with prev := prev }

def setSlab (pool : SlabPool) (ref : SlabRef) (slab : BitVec 64) : SlabPool :=
  pool.setNode ref { pool.node ref with slab := slab }

def setWord (pool : SlabPool) (i n : Nat) (word : BitVec 64) : SlabPool :=
  { pool with bitmap := Function.update pool.bitmap i (Function.update (pool.bitmap i) n word) }

/-- The page and so many that follow it, each of which becomes the same. -/
def setRest (pool : SlabPool) (i : Nat) (page : SlabPage) : Nat → Option SlabPool
  | 0 => some pool
  | rest + 1 => do
    let pool ← pool.setRest i page rest
    some (pool.setNode (← pool.deref (some (.page (i + rest + 1)))) page)

def onlyIf (pool : SlabPool) (c : Prop) [Decidable c] (change : SlabPool → Option SlabPool) :
    Option SlabPool := if c then change pool else some pool

def unlink (pool : SlabPool) (ref : SlabRef) : Option SlabPool := do
  let prev ← pool.deref (pool.node ref).prev.1
  let pool := pool.setNext prev (pool.node ref).next
  let next ← pool.deref (pool.node ref).next
  some (pool.setPrev next (pool.node ref).prev)

/-- The pages behind the first so many of a run take its place. -/
def split (pool : SlabPool) (i pages : Nat) : Option SlabPool := do
  let page := pool.node (.page i)
  let rest ← pool.deref (some (.page (i + pages)))
  let pool := pool.setNode rest ⟨page.slab - BitVec.ofNat 64 pages, page.next, page.prev⟩
  let pool := pool.setNext (← pool.deref page.prev.1) (some rest)
  some (pool.setPrev (← pool.deref page.next) (some rest, .page))

/-- A run leaves the list of free pages, but for what is left of it. -/
def dequeue (pool : SlabPool) (i pages : Nat) : Option SlabPool :=
  if (pool.node (.page i)).slab.toNat > pages then pool.split i pages else pool.unlink (.page i)

def takeRun (pool : SlabPool) (i pages : Nat) : Option SlabPool := do
  let pool ← pool.dequeue i pages
  let pool := pool.setNode (.page i) ⟨BitVec.ofNat 64 pages ||| slabPageStart, none, none, .page⟩
  -- the loop over the others does not end otherwise
  if pages = 0 then none else pool.setRest i ⟨slabPageBusy, none, none, .page⟩ (pages - 1)

/-- `slab_alloc_pages`, from one page of the list of free pages on. -/
def allocPages : Nat → SlabPool → SlabRef → Nat → Option (SlabPool × Option Nat)
  | 0, _, _, _ => none
  | _ + 1, pool, .free, _ => some (pool, none)
  | _ + 1, _, .slot _, _ => none
  | fuel + 1, pool, .page i, pages => do
    if (pool.node (.page i)).slab.toNat ≥ pages then some (← pool.takeRun i pages, some i)
    else allocPages fuel pool (← pool.deref (pool.node (.page i)).next) pages

/-- A page is put in front of the list of free pages. -/
def enqueue (pool : SlabPool) (i : Nat) : Option SlabPool := do
  let pool := pool.setPrev (.page i) (some .free, .page)
  let pool := pool.setNext (.page i) (pool.node .free).next
  let pool := pool.setPrev (← pool.deref (pool.node (.page i)).next) (some (.page i), .page)
  some (pool.setNext .free (some (.page i)))

def freePages (pool : SlabPool) (i pages : Nat) : Option SlabPool := do
  let pool := pool.setSlab (.page i) (BitVec.ofNat 64 pages)
  guard (pages ≠ 0)
  let pool ← pool.setRest i ⟨0, none, none, .page⟩ (pages - 1)
  let pool ← pool.onlyIf ((pool.node (.page i)).next ≠ none) (·.unlink (.page i))
  pool.enqueue i

def bit (i : Nat) : BitVec 64 := 1#64 <<< i

/-- The number of the first chunk from one on, of so many, whose bit is not set. -/
def firstClear (word : BitVec 64) : Nat → Nat → Option Nat
  | 0, _ => none
  | count + 1, i => if word &&& bit i ≠ 0 then firstClear word count (i + 1) else some i

/-- How many words the bits of the chunks of a page take. -/
def map (sizes : SlabSizes) (shift : Nat) : Nat := (1 <<< (sizes.pagesizeShift - shift)) / (8 * 8)

/-- How many chunks these words take. -/
def header (sizes : SlabSizes) (shift : Nat) : Nat :=
  let n := (1 <<< (sizes.pagesizeShift - shift)) / 8 / (1 <<< shift)
  if n = 0 then 1 else n

/-- The first word, of so many from one on, that is not busy. -/
def firstWord (words : Nat → BitVec 64) : Nat → Nat → Option Nat
  | 0, _ => none
  | count + 1, n => if words n ≠ slabBusy then some n else firstWord words count (n + 1)

/-- The page has no chunk any more. -/
def full (pool : SlabPool) (i : Nat) (type : SlabType) : Option SlabPool := do
  let pool ← pool.unlink (.page i)
  some (pool.setNode (.page i) ⟨(pool.node (.page i)).slab, none, none, type⟩)

def chunk (sizes : SlabSizes) (i shift number : Nat) : Nat :=
  (i <<< sizes.pagesizeShift) + (number <<< shift)

/-- A page with chunks of `shift < slab_exact_shift`. -/
def takeSmall (shift : Nat) (pool : SlabPool) (i : Nat) : Option (Option (SlabPool × Nat)) := do
  let words := pool.bitmap i
  match firstWord words (map pool.sizes shift) 0 with
  | none => some none
  | some n =>
    match firstClear (words n) 64 0 with
    | none => some none
    | some m =>
      let word := words n ||| bit m
      let pool := pool.setWord i n word
      let pool ← pool.onlyIf
        (word = slabBusy ∧ firstWord words (map pool.sizes shift - (n + 1)) (n + 1) = none)
        (·.full i .small)
      some (some (pool, chunk pool.sizes i shift (n * (8 * 8) + m)))

/-- A page with chunks of `shift == slab_exact_shift`. -/
def takeExact (shift : Nat) (pool : SlabPool) (i : Nat) : Option (Option (SlabPool × Nat)) := do
  let slab := (pool.node (.page i)).slab
  if slab ≠ slabBusy then
    match firstClear slab 64 0 with
    | none => some none
    | some m =>
      let pool := pool.setSlab (.page i) (slab ||| bit m)
      let pool ← pool.onlyIf (slab ||| bit m = slabBusy) (·.full i .exact)
      some (some (pool, chunk pool.sizes i shift m))
  else some none

/-- The bits of so many chunks. -/
def mask (count : Nat) : BitVec 64 := (bit count - 1) <<< slabMapShift

/-- A page with chunks of `shift > slab_exact_shift`, so many of them. -/
def takeBig (shift count : Nat) (pool : SlabPool) (i : Nat) :
    Option (Option (SlabPool × Nat)) := do
  let slab := (pool.node (.page i)).slab
  if slab &&& slabMapMask ≠ mask count then
    match firstClear slab count slabMapShift with
    | none => some none
    | some m =>
      let slab := slab ||| bit m
      let pool := pool.setSlab (.page i) slab
      let pool ← pool.onlyIf (slab &&& slabMapMask = mask count) (·.full i .big)
      some (some (pool, chunk pool.sizes i shift (m - slabMapShift)))
  else some none

/-- The loop over the pages of a slot, which ends without a chunk at a null pointer. -/
def takeChunk (take : SlabPool → Nat → Option (Option (SlabPool × Nat))) :
    Nat → SlabPool → SlabRef → Option (SlabPool × Option Nat)
  | 0, _, _ => none
  | fuel + 1, pool, .page i => do
    match ← take pool i with
    | some (pool, p) => some (pool, some p)
    | none =>
      if (pool.node (.page i)).next = none then some (pool, none)
      else takeChunk take fuel pool (← pool.deref (pool.node (.page i)).next)
  | _ + 1, _, _ => none

/-- The words of a new page of small chunks from the second one on. -/
def clearWords (pool : SlabPool) (i : Nat) : Nat → SlabPool
  | 0 => pool
  | count + 1 => (pool.clearWords i count).setWord i (count + 1) 0

/-- A page that has just been taken is for the chunks of a slot; the first one is handed out. -/
def openPage (pool : SlabPool) (i slot shift : Nat) : Option (SlabPool × Option Nat) := do
  let ref ← pool.deref (some (.slot slot))
  if shift < pool.sizes.exactShift then
    let n := header pool.sizes shift
    let pool := pool.setWord i 0 (BitVec.ofNat 64 (2 <<< n - 1))
    let pool := pool.clearWords i (map pool.sizes shift - 1)
    let pool := pool.setNode (.page i) ⟨BitVec.ofNat 64 shift, some ref, some ref, .small⟩
    some (pool.setNext ref (some (.page i)), some (chunk pool.sizes i shift n))
  else if shift = pool.sizes.exactShift then
    let pool := pool.setNode (.page i) ⟨1, some ref, some ref, .exact⟩
    some (pool.setNext ref (some (.page i)), some (chunk pool.sizes i shift 0))
  else
    let pool := pool.setNode (.page i)
      ⟨bit slabMapShift ||| BitVec.ofNat 64 shift, some ref, some ref, .big⟩
    some (pool.setNext ref (some (.page i)), some (chunk pool.sizes i shift 0))

def newPage (pool : SlabPool) (slot shift : Nat) : Option (SlabPool × Option Nat) := do
  let (pool, page) ← allocPages (pool.pages + 2) pool (← pool.deref (pool.node .free).next) 1
  match page with
  | none => some (pool, none)
  | some i => pool.openPage i slot shift

/-- A chunk of one of the pages of a slot, which begin with `page`. -/
def findChunk (pool : SlabPool) (shift : Nat) (page : SlabRef) : Option (SlabPool × Option Nat) :=
  if shift < pool.sizes.exactShift then takeChunk (takeSmall shift) (pool.pages + 1) pool page
  else if shift = pool.sizes.exactShift then
    takeChunk (takeExact shift) (pool.pages + 1) pool page
  else
    let count := 1 <<< (pool.sizes.pagesizeShift -
      ((pool.node page).slab &&& slabShiftMask).toNat)
    takeChunk (takeBig shift count) (pool.pages + 1) pool page

/-- A chunk of `1 << shift` bytes. -/
def allocChunk (pool : SlabPool) (shift : Nat) : Option (SlabPool × Option Nat) := do
  let slot := shift - minShift
  let ref ← pool.deref (some (.slot slot))
  let page ← pool.deref (pool.node ref).next
  if (pool.node page).next ≠ some page then
    match ← pool.findChunk shift page with
    | (pool, some p) => some (pool, some p)
    | (pool, none) => pool.newPage slot shift
  else pool.newPage slot shift

def alloc (pool : SlabPool) (size : Nat) : Option (SlabPool × Option Nat) :=
  if size ≥ pool.sizes.maxSize then do
    let pages := ((size + pool.sizes.pagesize - 1) % 2 ^ 64) >>> pool.sizes.pagesizeShift
    let (pool, page) ← allocPages (pool.pages + 2) pool (← pool.deref (pool.node .free).next) pages
    some (pool, page.map (· <<< pool.sizes.pagesizeShift))
  -- the loop counts how often `size - 1` can be halved
  else if size > 1 <<< minShift then pool.allocChunk ((size - 1).log2 + 1)
  else pool.allocChunk minShift

/-- A page that was full is put in front of the others. -/
def relink (pool : SlabPool) (i slot : Nat) (type : SlabType) : Option SlabPool := do
  let ref ← pool.deref (some (.slot slot))
  let pool := pool.setNext (.page i) (pool.node ref).next
  let pool := pool.setNext ref (some (.page i))
  let pool := pool.setPrev (.page i) (some ref, type)
  some (pool.setPrev (← pool.deref (pool.node (.page i)).next) (some (.page i), type))

def inside (p size : Nat) : Nat := p % size

/-- `g_slab_free`, for a pointer from the start of the pages on. -/
def free (pool : SlabPool) (p : Nat) : Option SlabPool :=
  if p > pool.extent then some pool
  else do
    let i := p >>> pool.sizes.pagesizeShift
    let _ ← pool.deref (some (.page i))
    let page := pool.node (.page i)
    match page.prev.2 with
    | .small =>
      let shift := (page.slab &&& slabShiftMask).toNat
      if inside p (1 <<< shift) ≠ 0 then some pool
      else
        let n := inside p pool.sizes.pagesize >>> shift
        let word := pool.bitmap i (n / (8 * 8))
        let m := bit (n % (8 * 8))
        if word &&& m ≠ 0 then do
          let pool ← pool.onlyIf (page.next = none) (·.relink i (shift - minShift) .small)
          let pool := pool.setWord i (n / (8 * 8)) (word &&& ~~~ m)
          if pool.bitmap i 0 &&& ~~~ (bit (header pool.sizes shift) - 1) ≠ 0 then some pool
          else if (List.range (map pool.sizes shift - 1)).any fun n => pool.bitmap i (n + 1) ≠ 0 then
            some pool
          else pool.freePages i 1
        else some pool
    | .exact =>
      let m := bit (inside p pool.sizes.pagesize >>> pool.sizes.exactShift)
      if inside p pool.sizes.exactSize ≠ 0 then some pool
      else if page.slab &&& m ≠ 0 then do
        let pool ← pool.onlyIf (page.slab = slabBusy)
          (·.relink i (pool.sizes.exactShift - minShift) .exact)
        let pool := pool.setSlab (.page i) (page.slab &&& ~~~ m)
        if page.slab &&& ~~~ m ≠ 0 then some pool else pool.freePages i 1
      else some pool
    | .big =>
      let shift := (page.slab &&& slabShiftMask).toNat
      if inside p (1 <<< shift) ≠ 0 then some pool
      else
        let m := bit ((inside p pool.sizes.pagesize >>> shift) + slabMapShift)
        if page.slab &&& m ≠ 0 then do
          let pool ← pool.onlyIf (page.next = none) (·.relink i (shift - minShift) .big)
          let pool := pool.setSlab (.page i) (page.slab &&& ~~~ m)
          if page.slab &&& ~~~ m &&& slabMapMask ≠ 0 then some pool else pool.freePages i 1
        else some pool
    | .page =>
      if inside p pool.sizes.pagesize ≠ 0 then some pool
      else if page.slab = 0 ∨ page.slab = slabPageBusy then some pool
      else pool.freePages i (page.slab &&& ~~~ slabPageStart).toNat

/-- `g_slab_check`, for a pointer from the start of the pages on. -/
def check (pool : SlabPool) (p : Nat) : Bool := decide (p < pool.extent)

end SlabPool

end Libsax.Memory
