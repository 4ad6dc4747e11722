import Mathlib.Algebra.Ring.Nat
import Mathlib.Algebra.Ring.Int.Defs
import Libsax.Db.HashBucket

/-! The nodes of the B-tree database, `btree_node`, and the pages that they are
written to: the leaf flag, the number of records, the positions of the children,
the place of the overflow area, and the records. Records that do not fit the page
are in the overflow area; a key size of 0 stands where they would begin. -/
namespace Libsax.Btree

open Libsax.Lib
open Libsax.Db (Key Value peek poke peekSize)

structure CbFileHeader where
  magic : Nat
  maxKeys : Nat
  pageSize : Nat
  cacheSize : Nat
  numItems : Nat
  rootPos : Int
  nPages : Nat
  oPages : Nat
deriving DecidableEq, Repr

def toLong (number : Nat) : Int :=
  if number % 2 ^ 64 < 2 ^ 63 then number % 2 ^ 64 else number % 2 ^ 64 - 2 ^ 64

def encodeLong (number : Int) : List UInt8 := Bytes.encode 8 (number % 2 ^ 64).toNat

def decodeLong (bytes : List UInt8) : Int := toLong (Bytes.decode bytes)

/-- `fseek`, which fails in front of the start of the file. -/
def fseek (pos : Int) : Option Nat := if 0 ≤ pos then some pos.toNat else none

namespace CbFileHeader

def consistent : Nat := 0x1a9999a1

/-- `sizeof(CbFileHeader)`: the `int` is padded to the alignment of a `size_t`. -/
def size : Nat := 64

def create : CbFileHeader :=
  { magic := consistent, maxKeys := 24, pageSize := 1024, cacheSize := 100 * 1024, numItems := 0
    rootPos := size, nPages := 0, oPages := 0 }

def bytes (header : CbFileHeader) : List UInt8 :=
  Bytes.encode 8 header.magic ++ (Bytes.encode 8 header.maxKeys ++
    (Bytes.encode 8 header.pageSize ++ (Bytes.encode 8 header.cacheSize ++
      (Bytes.encode 8 header.numItems ++ (encodeLong header.rootPos ++
        (Bytes.encode 8 header.nPages ++ Bytes.encode 8 header.oPages))))))

def toFile (header : CbFileHeader) (file : ByteStore) : ByteStore := file.write 0 header.bytes

def fromFile (file : ByteStore) : CbFileHeader :=
  { magic := Bytes.decode (file.read 0 4)
    maxKeys := Bytes.decode (file.read 8 8)
    pageSize := Bytes.decode (file.read 16 8)
    cacheSize := Bytes.decode (file.read 24 8)
    numItems := Bytes.decode (file.read 32 8)
    rootPos := decodeLong (file.read 40 8)
    nPages := Bytes.decode (file.read 48 8)
    oPages := Bytes.decode (file.read 56 8) }

/-- Where the file ends: behind all pages that were handed out. -/
def fileEnd (header : CbFileHeader) : Nat := size + header.pageSize * (header.nPages + header.oPages)

end CbFileHeader

/-- What an entry of `values` points to: a size and as many bytes, or `NULL`. -/
abbrev Cell := Option (List UInt8)

def cell (value : Value) : Cell := some (Bytes.encode 8 value.length ++ value)

def content (cell : Cell) : Option Value := do
  let bytes ← cell
  let vsize ← peekSize bytes 0
  peek bytes 8 vsize

/-- A key, and the cell beside it. -/
abbrev Item := Key × Cell

/-- A node as far as it is in memory. `items` are the entries of `keys` and `values`
below `objCount`, `children` the entries of `children` that are not `NULL`. The
pointer `parent` is left out: a node is named by the children that lead to it. -/
structure BtreeNode where
  fpos : Int
  isLeaf : Bool
  isLoaded : Bool
  isDirty : Bool
  childNo : Nat
  overflowAddress : Int
  overflowPageCount : Nat
  items : List Item
  children : List BtreeNode

namespace BtreeNode

def objCount (node : BtreeNode) : Nat := node.items.length

/-- The constructor. -/
def create : BtreeNode :=
  { fpos := -1, isLeaf := true, isLoaded := false, isDirty := true, childNo := 2 ^ 64 - 1
    overflowAddress := -1, overflowPageCount := 0, items := [], children := [] }

def setDirty (node : BtreeNode) : BtreeNode := { node with isDirty := true }

/-- Children from a position of their parent on. -/
def numbered (first : Nat) (children : List BtreeNode) : List BtreeNode :=
  children.mapIdx fun i child => { child with childNo := first + i }

def delFromLeaf (node : BtreeNode) (objNo : Nat) : BtreeNode :=
  { node with items := node.items.eraseIdx objNo, isDirty := true }

end BtreeNode

/-- The records as `write` puts them one after the other. -/
structure PageBuffer where
  /-- the bytes in front of `p` -/
  bytes : List UInt8
  np : Nat
  firstOvfl : Bool

def putItem (pageSize : Nat) (buf : PageBuffer) (item : Item) : Option PageBuffer := do
  let ptr1 ← item.2
  let vsize ← peekSize ptr1 0
  let value ← peek ptr1 0 (vsize + 8)
  let esize := 2 * 8 + item.1.length + vsize
  let buf ←
    if buf.bytes.length + esize + 8 > buf.np * pageSize then
      if buf.bytes.length < buf.np * pageSize then
        let bytes :=
          if buf.firstOvfl then
            buf.bytes ++ List.replicate (pageSize - buf.bytes.length) 0
          else buf.bytes
        some { buf with
          bytes := bytes, np := (bytes.length + esize + 8 - 1) / pageSize + 1, firstOvfl := false }
      else none
    else some buf
  some { buf with bytes := buf.bytes ++ (Bytes.encode 8 item.1.length ++ item.1 ++ value) }

def putItems (pageSize : Nat) : PageBuffer → List Item → Option PageBuffer
  | buf, [] => some buf
  | buf, item :: items => do putItems pageSize (← putItem pageSize buf item) items

namespace BtreeNode

/-- The first bytes of a page, up to the place of the overflow area. -/
def pageHead (node : BtreeNode) : List UInt8 :=
  Bytes.encode 1 node.isLeaf.toNat ++ (Bytes.encode 8 node.objCount ++
    if 0 < node.objCount && !node.isLeaf then
      (node.children.take (node.objCount + 1)).flatMap fun child => encodeLong child.fpos
    else [])

/-- `write`, for a node that is loaded and dirty. An assertion that fails and a
missing child end it with `none`, a position that cannot be reached with `false`. -/
def write (header : CbFileHeader) (file : ByteStore) (node : BtreeNode) :
    Option (CbFileHeader × ByteStore × BtreeNode × Bool) :=
  if !node.isDirty || !node.isLoaded then some (header, file, node, false)
  else
    match fseek node.fpos with
    | none => some (header, file, node, false)
    | some fpos => do
      if 0 < node.objCount && !node.isLeaf && node.children.length < node.objCount + 1 then none
      else do
        let head := node.pageHead
        let tsz := head.length + 8 + 8
        if tsz + 8 > header.pageSize then none
        else do
          let buf ← putItems header.pageSize
            ⟨head ++ (encodeLong node.overflowAddress ++ Bytes.encode 8 node.overflowPageCount),
              1, true⟩ node.items
          if buf.np ≤ 1 then
            let page := buf.bytes ++ List.replicate (header.pageSize - buf.bytes.length) 0
            some (header, file.write fpos page, { node with isDirty := false }, true)
          else
            let fresh := node.overflowAddress < 0 || node.overflowPageCount < buf.np - 1
            let overflowAddress :=
              if fresh then toLong header.fileEnd else node.overflowAddress
            let header :=
              if fresh then { header with oPages := header.oPages + (buf.np - 1) } else header
            let page := head ++ (encodeLong overflowAddress ++ Bytes.encode 8 (buf.np - 1)) ++
              (buf.bytes.take header.pageSize).drop tsz
            let overflow := buf.bytes.drop header.pageSize ++
              List.replicate (buf.np * header.pageSize - buf.bytes.length) 0xff
            let node :=
              { node with overflowAddress := overflowAddress, overflowPageCount := buf.np - 1 }
            match fseek overflowAddress with
            | none => some (header, file.write fpos page, node, false)
            | some pos =>
              some (header, (file.write fpos page).write pos overflow,
                { node with isDirty := false }, true)

/-- The loop of `read` over the records: in the page, then in the overflow area. A
second key size of 0 fails an assertion, as does one at the start of the area. -/
def readItems (overflow : Option (List UInt8)) :
    Nat → List UInt8 → Nat → Bool → Option (List Item)
  | 0, _, _, _ => some []
  | left + 1, str, p, firstOvfl => do
    let (str, p, firstOvfl) ←
      if (← peekSize str p) = 0 then
        if firstOvfl then do some (← overflow, 0, false) else none
      else some (str, p, firstOvfl)
    let ksize ← peekSize str p
    if ksize = 0 then none
    else do
      let key ← peek str (p + 8) ksize
      let vsize ← peekSize str (p + 8 + ksize)
      let value ← peek str (p + 8 + ksize + 8) vsize
      -- a value of size 0 leaves the entry of `values` as it was, `NULL`
      let cell := if vsize ≠ 0 then some (Bytes.encode 8 vsize ++ value) else none
      let items ← readItems overflow left str (p + 8 + ksize + 8 + vsize) firstOvfl
      some ((key, cell) :: items)

/-- `read`. Whoever reads a node does not look at the answer: where the overflow area
cannot be reached, a node that is read in part is used, for which `none` stands. -/
def read (header : CbFileHeader) (file : ByteStore) (node : BtreeNode) :
    Option (BtreeNode × Bool) :=
  if node.isLoaded then some (node, true)
  else
    match fseek node.fpos with
    | none => some (node, false)
    | some fpos => do
      let page := file.read fpos header.pageSize
      let leafFlag ← peek page 0 1
      let objCount ← peekSize page 1
      let isLeaf := decide (Bytes.decode leafFlag = 1)
      if objCount > header.maxKeys then none
      else do
        let inner := 0 < objCount && !isLeaf
        let p := if inner then 9 + 8 * (objCount + 1) else 9
        let addresses ← peek page 9 (p - 9)
        let children :=
          if inner then
            (List.range (objCount + 1)).map fun i =>
              { create with fpos := decodeLong ((addresses.drop (8 * i)).take 8), childNo := i }
          else node.children
        let overflowAddress := decodeLong (← peek page p 8)
        let overflowPageCount ← peekSize page (p + 8)
        let overflow := (fseek overflowAddress).map fun pos =>
          file.read pos (header.pageSize * overflowPageCount)
        let items ← readItems overflow objCount page (p + 8 + 8) true
        some ({ node with
          isLeaf := isLeaf
          isLoaded := true
          isDirty := false
          overflowAddress := overflowAddress
          overflowPageCount := overflowPageCount
          items := items
          children := children }, true)

end BtreeNode

/-- What all nodes of a tree refer to: the header, the file and the number of nodes
in memory. -/
structure Store where
  sfh : CbFileHeader
  file : ByteStore
  activeNodeNum : Nat

def loadChild (store : Store) (node : BtreeNode) (childNum : Nat) :
    Option (Store × BtreeNode) :=
  if node.isLeaf then none
  else do
    let child := { (← node.children[childNum]?) with childNo := childNum }
    if child.isLoaded then
      some (store, { node with children := node.children.set childNum child })
    else do
      let (child, loaded) ← child.read store.sfh store.file
      some ({ store with activeNodeNum := store.activeNodeNum + loaded.toNat },
        { node with children := node.children.set childNum child })

end Libsax.Btree
