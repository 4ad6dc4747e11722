import Libsax.Btree.Node

/-! Insertion into the B-tree. On the way down a full child is split, or, if it is a leaf
and splitting is delayed, gives a record to a sibling; two full leaves are split into
three. -/
namespace Libsax.Btree

open Libsax.Lib
open Libsax.Db (Key Value)

inductive Spot where
  | found (i : Nat)
  | gap (low : Nat)
deriving DecidableEq, Repr

/-- The binary search. Its indexes are of type `int`, whose overflow is undefined. -/
def bisect (cmp : Key → Key → Ordering) (key : Key) (items : List Item) :
    Nat → Int → Int → Option Spot
  | 0, _, _ => none
  | fuel + 1, low, high =>
    if low ≤ high then
      if low + high < 2 ^ 31 then do
        let mid := (low + high) / 2
        let item ← items[mid.toNat]?
        match cmp key item.1 with
        | .eq => some (.found mid.toNat)
        | .lt => bisect cmp key items fuel low (mid - 1)
        | .gt => bisect cmp key items fuel (mid + 1) high
      else none
    else some (.gap low.toNat)

def spot (cmp : Key → Key → Ordering) (key : Key) (items : List Item) : Option Spot :=
  bisect cmp key items (items.length + 1) 0 (items.length - 1)

def allocateNode (store : Store) : Store × BtreeNode :=
  ({ store with
      sfh := { store.sfh with nPages := store.sfh.nPages + 1 }
      activeNodeNum := store.activeNodeNum + 1 },
    { BtreeNode.create with isLoaded := true, isDirty := true, fpos := toLong store.sfh.fileEnd })

def Store.countItem (store : Store) : Store :=
  { store with sfh := { store.sfh with numItems := store.sfh.numItems + 1 } }

/-- `_split`: the middle record of a full child goes up, the records behind it go to a
new child. -/
def split (store : Store) (parent : BtreeNode) (childNum : Nat) : Option (Store × BtreeNode) := do
  let child ← parent.children[childNum]?
  let leftCount := child.objCount / 2
  let saved ← child.items[leftCount]?
  let (store, newChild) := allocateNode store
  let newChild :=
    { newChild with
      childNo := childNum + 1
      isLeaf := child.isLeaf
      items := child.items.drop (leftCount + 1)
      children := BtreeNode.numbered 0 (child.children.drop (leftCount + 1)) }
  let child :=
    { child with
      isDirty := true
      items := child.items.take leftCount
      children := child.children.take (leftCount + 1) }
  some (store, { parent with
    isDirty := true
    items := parent.items.take childNum ++ saved :: parent.items.drop childNum
    children := parent.children.take childNum ++ child :: newChild ::
      BtreeNode.numbered (childNum + 2) (parent.children.drop (childNum + 1)) })

/-- `_split3Leaf`: two full leaves become three. The new one is between them and takes
the page of the second. -/
def split3Leaf (store : Store) (parent : BtreeNode) (childNum : Nat) :
    Option (Store × BtreeNode) := do
  let maxKeys := store.sfh.maxKeys
  let count1 := 2 * maxKeys / 3
  let count2 := maxKeys - maxKeys / 3 - 1
  let count3 := 2 * maxKeys - 1 - count1 - count2
  let (store, parent) ← loadChild store parent childNum
  let (store, parent) ← loadChild store parent (childNum + 1)
  let child1 ← parent.children[childNum]?
  let child2 ← parent.children[childNum + 1]?
  let sep ← parent.items[childNum]?
  let item1 ← child1.items[count1]?
  let item2 ← child2.items[maxKeys / 3]?
  let (store, newNode) := allocateNode store
  let newChild :=
    { newNode with
      fpos := child2.fpos
      isLeaf := true
      childNo := childNum + 1
      items := (child1.items.drop (count1 + 1)).take (maxKeys - count1 - 1) ++
        sep :: child2.items.take (count3 - (maxKeys - count1)) }
  let child1 := { child1 with isDirty := true, items := child1.items.take count1 }
  let child2 :=
    { child2 with
      isDirty := true
      fpos := newNode.fpos
      childNo := childNum + 2
      items := (child2.items.drop (maxKeys / 3 + 1)).take count2 }
  some (store, { parent with
    isDirty := true
    items := parent.items.take childNum ++ item1 :: item2 :: parent.items.drop (childNum + 1)
    children := parent.children.take childNum ++ child1 :: newChild :: child2 ::
      BtreeNode.numbered (childNum + 3) (parent.children.drop (childNum + 2)) })

/-- How an insertion goes on below a node: it is over, or goes down to a child. -/
inductive Route where
  | done (inserted : Bool)
  | down (childNum : Nat)
deriving DecidableEq, Repr

/-- The last record of a full leaf moves up, the one above it to the right sibling. -/
def shiftRight (cmp : Key → Key → Ordering) (store : Store) (node : BtreeNode) (low : Nat)
    (item : Item) (child adjNode : BtreeNode) : Option (Store × BtreeNode × Route) := do
  let last ← child.items.getLast?
  if cmp last.1 item.1 = .eq then some (store, node, .done false)
  else do
    let sep ← node.items[low]?
    let adjNode := { adjNode with isDirty := true, items := sep :: adjNode.items }
    -- all of the keys in `child` are less than the one to insert
    if cmp last.1 item.1 = .lt then
      some (store.countItem,
        { node with
          isDirty := true
          items := node.items.set low item
          children := node.children.set (low + 1) adjNode },
        .done true)
    else
      let child := { child with isDirty := true, items := child.items.dropLast }
      some (store,
        { node with
          isDirty := true
          items := node.items.set low last
          children := (node.children.set (low + 1) adjNode).set low child },
        .down low)

/-- The loop that moves records to the left until the new one has its place; the flag
is off when its key was met. -/
def slide (cmp : Key → Key → Ordering) (item : Item) : Bool → List Item → Bool × List Item
  | ret, [] => if ret then (true, [item]) else (false, [])
  | ret, next :: items =>
    let ret := ret && decide (cmp next.1 item.1 ≠ .eq)
    if ret && decide (cmp next.1 item.1 = .gt) then (true, item :: next :: items)
    else
      let (ret, items) := slide cmp item ret items
      (ret, next :: items)

/-- The first record of a full leaf moves up, the one above it to the left sibling. -/
def shiftLeft (cmp : Key → Key → Ordering) (store : Store) (node : BtreeNode) (low : Nat)
    (item : Item) (child adjNode : BtreeNode) : Option (Store × BtreeNode × Route) := do
  let first ← child.items.head?
  if cmp first.1 item.1 = .eq then some (store, node, .done false)
  else do
    let sep ← node.items[low - 1]?
    let adjNode := { adjNode with isDirty := true, items := adjNode.items ++ [sep] }
    -- all of the keys in `child` are greater than the one to insert
    if cmp first.1 item.1 = .gt then
      some (store.countItem,
        { node with
          isDirty := true
          items := node.items.set (low - 1) item
          children := node.children.set (low - 1) adjNode },
        .done true)
    else
      let (inserted, items) := slide cmp item true child.items.tail
      let child := { child with isDirty := true, items := items }
      some (if inserted then store.countItem else store,
        { node with
          isDirty := true
          items := node.items.set (low - 1) first
          children := (node.children.set (low - 1) adjNode).set low child },
        .done inserted)

def splitBoth (cmp : Key → Key → Ordering) (store : Store) (node : BtreeNode) (low : Nat)
    (item : Item) : Option (Store × BtreeNode × Route) := do
  let splitNum := if 0 < low then low - 1 else low
  let (store, node) ← split3Leaf store node splitNum
  let sep1 ← node.items[splitNum]?
  let sep2 ← node.items[splitNum + 1]?
  if cmp sep1.1 item.1 = .eq || cmp sep2.1 item.1 = .eq then some (store, node, .done false)
  else do
    let childNum :=
      if cmp sep1.1 item.1 = .gt then splitNum
      else if cmp sep2.1 item.1 = .gt then splitNum + 1
      else splitNum + 2
    let (store, node) ← loadChild store node childNum
    some (store, node, .down childNum)

def leftOrSplit (cmp : Key → Key → Ordering) (store : Store) (node : BtreeNode) (low : Nat)
    (item : Item) : Option (Store × BtreeNode × Route) :=
  if 0 < low then do
    let (store, node) ← loadChild store node (low - 1)
    let child ← node.children[low]?
    let adjNode ← node.children[low - 1]?
    if adjNode.objCount < store.sfh.maxKeys then shiftLeft cmp store node low item child adjNode
    else splitBoth cmp store node low item
  else splitBoth cmp store node low item

/-- Before an insertion goes down to a child, it is seen to that the child is not full. -/
def makeRoom (cmp : Key → Key → Ordering) (delaySplit : Bool) (store : Store)
    (node : BtreeNode) (low : Nat) (item : Item) : Option (Store × BtreeNode × Route) := do
  let child ← node.children[low]?
  if child.objCount < store.sfh.maxKeys then some (store, node, .down low)
  else if !child.isLeaf || !delaySplit then do
    let (store, node) ← split store node low
    let sep ← node.items[low]?
    if cmp item.1 sep.1 = .eq then some (store, node, .done false)
    else do
      let low := if cmp item.1 sep.1 = .gt then low + 1 else low
      let (store, node) ← loadChild store node low
      some (store, node, .down low)
  else if low < node.objCount then do
    let (store, node) ← loadChild store node (low + 1)
    let child ← node.children[low]?
    let adjNode ← node.children[low + 1]?
    if adjNode.objCount < store.sfh.maxKeys then shiftRight cmp store node low item child adjNode
    else leftOrSplit cmp store node low item
  else leftOrSplit cmp store node low item

/-- The loop of `insert` from a node on that is not full. -/
def insertInto (cmp : Key → Key → Ordering) (delaySplit : Bool) :
    Nat → Store → BtreeNode → Item → Option (Store × BtreeNode × Bool)
  | 0, _, _, _ => none
  | fuel + 1, store, node, item => do
    match ← spot cmp item.1 node.items with
    | .found _ => some (store, node, false)
    | .gap low =>
      if node.isLeaf then
        some (store.countItem,
          { node with
            isDirty := true
            items := node.items.take low ++ item :: node.items.drop low },
          true)
      else do
        let (store, node) ← loadChild store node low
        let (store, node, route) ← makeRoom cmp delaySplit store node low item
        match route with
        | .done inserted => some (store, node, inserted)
        | .down childNum => do
          let child ← node.children[childNum]?
          let (store, child, inserted) ← insertInto cmp delaySplit fuel store child item
          some (store, { node with children := node.children.set childNum child }, inserted)

/-- The tree grows by a new root over the old one, which is split. -/
def growRoot (store : Store) (root : BtreeNode) : Option (Store × BtreeNode) :=
  if root.objCount ≥ store.sfh.maxKeys then
    let (store, newRoot) := allocateNode store
    split store { newRoot with isLeaf := false, children := [{ root with childNo := 0 }] } 0
  else some (store, root)

end Libsax.Btree
