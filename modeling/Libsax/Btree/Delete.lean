import Libsax.Btree.Seq

/-! Deletion from the B-tree, and the calls that look a record up. On the way down every
node gets at least `maxKeys / 3` records before it is gone through: it takes one from a
sibling, or is merged with it. A record of an inner node gives way to the one before it
or behind it in the tree, which is deleted in its place. -/
namespace Libsax.Btree

open Libsax.Lib
open Libsax.Db (Key Value)

inductive KeyPos where
  /-- `CCP_NONE`, with `(size_t)-1` -/
  | none
  | inThis (i : Nat)
  | inLeft (i : Nat)
  | inRight (i : Nat)
deriving DecidableEq, Repr

/-- The loop of `findPos`, from the record `i` on. In an inner node without records, the answer
is `CCP_INRIGHT` with `(size_t)-1`, which `_delete` takes as it takes `CCP_NONE`. -/
def findPosFrom (cmp : Key → Key → Ordering) (key : Key) (isLeaf : Bool) :
    Nat → List Item → KeyPos
  | i, [] => if isLeaf || i = 0 then .none else .inRight (i - 1)
  | i, item :: items =>
    match cmp key item.1 with
    | .eq => .inThis i
    | .lt => if isLeaf then .none else .inLeft i
    | .gt => findPosFrom cmp key isLeaf (i + 1) items

def findPos (cmp : Key → Key → Ordering) (node : BtreeNode) (key : Key) : KeyPos :=
  findPosFrom cmp key node.isLeaf 0 node.items

/-- The loops of `_findPred` and `_findSucc`: always down to one end, to a record of a leaf. -/
def findEnd (pickChild pickItem : BtreeNode → Nat) :
    Nat → Store → BtreeNode → Option (Store × BtreeNode × Item)
  | 0, _, _ => none
  | fuel + 1, store, node =>
    if node.isLeaf then do some (store, node, ← node.items[pickItem node]?)
    else do
      let childNum := pickChild node
      let (store, node) ← loadChild store node childNum
      let child ← node.children[childNum]?
      let (store, child, item) ← findEnd pickChild pickItem fuel store child
      some (store, { node with children := node.children.set childNum child }, item)

def findPred : Nat → Store → BtreeNode → Option (Store × BtreeNode × Item) :=
  findEnd BtreeNode.objCount fun leaf => pred leaf.objCount

def findSucc : Nat → Store → BtreeNode → Option (Store × BtreeNode × Item) :=
  findEnd (fun _ => 0) fun _ => 0

def Store.release (store : Store) : Store :=
  { store with activeNodeNum := store.activeNodeNum - 1 }

/-- `_merge`: the records of two children that have `maxKeys / 3 - 1` each, and the record
between them, are in the first child then. The second is deleted, its page is not used any
more. A parent that has no more records is not marked dirty. -/
def merge (store : Store) (parent : BtreeNode) (objNo : Nat) : Option (Store × BtreeNode) := do
  let minDegree := store.sfh.maxKeys / 3
  let (store, parent) ← loadChild store parent objNo
  let (store, parent) ← loadChild store parent (objNo + 1)
  let c1 ← parent.children[objNo]?
  let c2 ← parent.children[objNo + 1]?
  let sep ← parent.items[objNo]?
  let (store, c2) ← if c2.isLeaf then some (store, c2) else loadFrom minDegree 0 store c2
  let c1 :=
    { c1 with
      isDirty := true
      items := c1.items.take (minDegree - 1) ++ sep :: c2.items.take (minDegree - 1)
      children := c1.children ++ BtreeNode.numbered minDegree (c2.children.take minDegree) }
  let (store, parent) ←
    loadFrom (parent.objCount - (objNo + 1)) (objNo + 2) store parent
  some (store.release, { parent with
    isDirty := parent.isDirty || decide (1 < parent.objCount)
    items := parent.items.eraseIdx objNo
    children := parent.children.take objNo ++ c1 ::
      BtreeNode.numbered (objNo + 1) (parent.children.drop (objNo + 2)) })

/-- The last record of the left sibling moves up, the one above it to the child. -/
def takeLeft (store : Store) (node : BtreeNode) (keyChildPos : Nat) : Option BtreeNode := do
  let childNode ← node.children[keyChildPos]?
  let leftSib ← node.children[keyChildPos - 1]?
  let sep ← node.items[keyChildPos - 1]?
  let last ← leftSib.items.getLast?
  let moved ←
    if leftSib.isLeaf then some []
    else do some [{ (← leftSib.children[leftSib.objCount]?) with childNo := 0 }]
  let childNode :=
    { childNode with
      isDirty := true
      items := sep :: childNode.items.take (store.sfh.maxKeys / 3 - 1)
      children := moved ++ BtreeNode.numbered 1 childNode.children }
  let leftSib :=
    { leftSib with
      isDirty := true
      items := leftSib.items.dropLast
      children := leftSib.children.take leftSib.objCount }
  some { node with
    isDirty := true
    items := node.items.set (keyChildPos - 1) last
    children := (node.children.set (keyChildPos - 1) leftSib).set keyChildPos childNode }

/-- The first record of the right sibling moves up, the one above it to the child. -/
def takeRight (store : Store) (node : BtreeNode) (keyChildPos : Nat) : Option BtreeNode := do
  let childNode ← node.children[keyChildPos]?
  let rightSib ← node.children[keyChildPos + 1]?
  let sep ← node.items[keyChildPos]?
  let first ← rightSib.items.head?
  let moved ←
    if rightSib.isLeaf then some []
    else do some [{ (← rightSib.children.head?) with childNo := store.sfh.maxKeys / 3 }]
  let childNode :=
    { childNode with
      isDirty := true
      items := childNode.items.take (store.sfh.maxKeys / 3 - 1) ++ [sep]
      children := childNode.children ++ moved }
  let rightSib :=
    { rightSib with
      isDirty := true
      items := rightSib.items.tail
      children := BtreeNode.numbered 0 rightSib.children.tail }
  some { node with
    isDirty := true
    items := node.items.set keyChildPos first
    children := (node.children.set (keyChildPos + 1) rightSib).set keyChildPos childNode }

/-- Both children have `maxKeys / 3 - 1` records, as is asserted before they are merged. -/
def mergeAt (store : Store) (node : BtreeNode) (first : Nat) : Option (Store × BtreeNode × Nat) := do
  let c1 ← node.children[first]?
  let c2 ← node.children[first + 1]?
  if c1.objCount = store.sfh.maxKeys / 3 - 1 && c2.objCount = store.sfh.maxKeys / 3 - 1 then do
    let (store, node) ← merge store node first
    some (store, node, first)
  else none

/-- The child that the key is under gets enough records to be gone through. -/
def fillChild (store : Store) (node : BtreeNode) (first keyChildPos : Nat) :
    Option (Store × BtreeNode × Nat) := do
  let minDegree := store.sfh.maxKeys / 3
  let (store, node) ← loadChild store node first
  let (store, node) ←
    if first + 1 ≤ node.objCount then loadChild store node (first + 1) else some (store, node)
  let (store, node) ← loadChild store node keyChildPos
  let childNode ← node.children[keyChildPos]?
  if minDegree ≤ childNode.objCount then some (store, node, keyChildPos)
  else do
    let (store, node) ←
      if 0 < keyChildPos then loadChild store node (keyChildPos - 1) else some (store, node)
    let leftCount ←
      if 0 < keyChildPos then do some (← node.children[keyChildPos - 1]?).objCount else some 0
    let (store, node) ←
      if keyChildPos < node.objCount then loadChild store node (keyChildPos + 1)
      else some (store, node)
    let rightCount ←
      if keyChildPos < node.objCount then do some (← node.children[keyChildPos + 1]?).objCount
      else some 0
    if minDegree ≤ leftCount then do some (store, ← takeLeft store node keyChildPos, keyChildPos)
    else if minDegree ≤ rightCount then do
      some (store, ← takeRight store node keyChildPos, keyChildPos)
    else mergeAt store node first

/-- A record of an inner node gives way to the one before it or behind it, if one of the children
beside it has enough records; else they are merged around it. What is to be deleted below then. -/
def replaceItem (depth : Nat) (store : Store) (node : BtreeNode) (i : Nat) (key : Key) :
    Option (Store × BtreeNode × Nat × Key) := do
  let minDegree := store.sfh.maxKeys / 3
  let (store, node) ← loadChild store node i
  let (store, node) ← loadChild store node (i + 1)
  let prior ← node.children[i]?
  let successor ← node.children[i + 1]?
  if minDegree ≤ prior.objCount then do
    let (store, prior, item) ← findPred depth store prior
    some (store, { node with
      isDirty := true, items := node.items.set i item, children := node.children.set i prior },
      i, item.1)
  else if minDegree ≤ successor.objCount then do
    let (store, successor, item) ← findSucc depth store successor
    some (store, { node with
      isDirty := true, items := node.items.set i item
      children := node.children.set (i + 1) successor }, i + 1, item.1)
  else do
    let (store, node, first) ← mergeAt store node i
    some (store, node, first, key)

def delete (cmp : Key → Key → Ordering) :
    Nat → Store → BtreeNode → Key → Option (Store × BtreeNode × Bool)
  | 0, _, _, _ => none
  | fuel + 1, store, node, key =>
    let below := fun (store : Store) (node : BtreeNode) (childNum : Nat) (key : Key) => do
      let child ← node.children[childNum]?
      let (store, child, deleted) ← delete cmp fuel store child key
      some (store, { node with children := node.children.set childNum child }, deleted)
    match findPos cmp node key with
    | .none => some (store, node, false)
    | .inThis i =>
      if node.isLeaf then some (store, node.delFromLeaf i, true)
      else do
        let (store, node, childNum, key) ← replaceItem fuel store node i key
        below store node childNum key
    | .inLeft i => do
      let (store, node, childNum) ← fillChild store node i i
      below store node childNum key
    | .inRight i => do
      let (store, node, childNum) ← fillChild store node i (i + 1)
      below store node childNum key

def Store.discountItem (store : Store) : Store :=
  { store with sfh := { store.sfh with numItems := store.sfh.numItems - 1 } }

/-- The root of the tree that a node is in, with the node as it is now. -/
def BtreeNode.plug : BtreeNode → List BtreeNode → BtreeNode
  | node, [] => node
  | node, parent :: above =>
    plug { parent with children := parent.children.set node.childNo node } above

namespace Btreedb

/-- `del`. A root without records gives way to the one child that it has, which is not loaded
here. -/
def del (cmp : Key → Key → Ordering) (db : Btreedb) (key : Key) : Option (Btreedb × Bool) := do
  let (store, root) ←
    if db.root.objCount = 0 && !db.root.isLeaf then do
      some (db.store.release, ← db.root.children[0]?)
    else some (db.store, db.root)
  let (store, root, deleted) ← delete cmp (store.sfh.nPages + 1) store root key
  some (⟨if deleted then store.discountItem else store, root⟩, deleted)

/-- `find` and `find2`: the value, in the buffer that the caller gets. -/
def find (cmp : Key → Key → Ordering) (db : Btreedb) (key : Key) :
    Option (Btreedb × Option Value) := do
  let (db, locn, found) ← db.search_ cmp key
  if found then do some (db, some (← content (← locn.item).2))
  else some (db, none)

def update (cmp : Key → Key → Ordering) (mode : Mode) (db : Btreedb) (key : Key) (value : Value) :
    Option (Btreedb × Bool) := do
  let (db, locn, found) ← db.search_ cmp key
  if found then do
    let place ← locn.place
    let item ← place.node.items[locn.pos]?
    let node :=
      { place.node with
        isDirty := true
        items := place.node.items.set locn.pos (item.1, cell value) }
    some ({ db with root := node.plug place.above }, true)
  else db.insert cmp mode key value

end Btreedb

end Libsax.Btree
