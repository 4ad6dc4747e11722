import Libsax.Lib.Ascending
import Libsax.Lib.Extents
import Libsax.Btree.Insert

/-! What a tree is between two calls: every node has as many children as it should, they
are numbered, and all leaves are equally deep. Nodes that are not in memory are looked
at as they are once they are loaded. -/
namespace Libsax.Btree

open Libsax.Lib
open Libsax.Db (Key Value)

/-- How a tree is looked at: every node as it is once it is loaded, and what is asked of
the nodes below the root beyond their shape. -/
structure View where
  maxKeys : Nat
  load : BtreeNode → BtreeNode
  good : BtreeNode → Prop

/-- What of a node is written to its page, with the flags. -/
structure SamePage (node other : BtreeNode) : Prop where
  isLeaf : other.isLeaf = node.isLeaf
  isLoaded : other.isLoaded = node.isLoaded
  isDirty : other.isDirty = node.isDirty
  fpos : other.fpos = node.fpos
  overflowAddress : other.overflowAddress = node.overflowAddress
  overflowPageCount : other.overflowPageCount = node.overflowPageCount
  items : other.items = node.items
  children : other.children.map BtreeNode.fpos = node.children.map BtreeNode.fpos

/-- The view shows what `read` would give, and nodes that are to be written are good. -/
structure View.Fits (view : View) (store : Store) : Prop where
  maxKeys : store.sfh.maxKeys = view.maxKeys
  loaded : ∀ node, node.isLoaded = true → view.load node = node
  read : ∀ node, node.isLoaded = false → (view.load node).isLoaded = true →
    node.read store.sfh store.file = some (view.load node, true)
  fpos : ∀ node, (view.load node).fpos = node.fpos
  childNo : ∀ node childNo,
    view.load { node with childNo := childNo } = { view.load node with childNo := childNo }
  dirty : ∀ node, node.isDirty = true → view.good node
  congr : ∀ {node other}, SamePage node other → view.good node → view.good other

theorem SamePage.renumber (node : BtreeNode) (childNo : Nat) :
    SamePage node { node with childNo := childNo } := ⟨rfl, rfl, rfl, rfl, rfl, rfl, rfl, rfl⟩

/-- A tree that is in memory as a whole. -/
def View.memory (maxKeys : Nat) : View := ⟨maxKeys, id, fun _ => True⟩

theorem View.memory_fits {maxKeys : Nat} {store : Store} (hmax : store.sfh.maxKeys = maxKeys) :
    (View.memory maxKeys).Fits store where
  maxKeys := hmax
  loaded _ _ := rfl
  read node hnot hloaded := by
    change node.isLoaded = true at hloaded
    rw [hnot] at hloaded
    cases hloaded
  fpos _ := rfl
  childNo _ _ := rfl
  dirty _ _ := trivial
  congr _ _ := trivial

/-- The records in the order of the tree. -/
def inorder (view : View) : Nat → BtreeNode → List Item
  | 0, node => (view.load node).items
  | height + 1, node =>
    weave ((view.load node).children.map (inorder view height)) (view.load node).items

theorem inorder_congr {view : View} {height : Nat} {node other : BtreeNode}
    (hitems : (view.load other).items = (view.load node).items)
    (hchildren : (view.load other).children = (view.load node).children) :
    inorder view height other = inorder view height node := by
  cases height with
  | zero => exact hitems
  | succ height => rw [inorder, inorder, hitems, hchildren]

/-- The page of a node and its overflow area, counted in pages. -/
def BtreeNode.own (node : BtreeNode) : List Extent :=
  (node.fpos, 1) ::
    if 0 ≤ node.overflowAddress then [(node.overflowAddress, node.overflowPageCount)] else []

def extents (view : View) : Nat → BtreeNode → List Extent
  | 0, node => (view.load node).own
  | height + 1, node =>
    (view.load node).own ++ (view.load node).children.flatMap (extents view height)

private theorem extents_congr {view : View} {height : Nat} {node other : BtreeNode}
    (hown : (view.load other).own = (view.load node).own)
    (hchildren : (view.load other).children = (view.load node).children) :
    extents view height other = extents view height node := by
  cases height with
  | zero => exact hown
  | succ height => rw [extents, extents, hown, hchildren]

def Numbered (first : Nat) (children : List BtreeNode) : Prop :=
  ∀ i child, children[i]? = some child → child.childNo = first + i

theorem numbered_nil (first : Nat) : Numbered first [] := fun _ _ hchild => nomatch hchild

@[simp] theorem numbered_cons {first : Nat} {child : BtreeNode} {children : List BtreeNode} :
    Numbered first (child :: children) ↔ child.childNo = first ∧ Numbered (first + 1) children := by
  constructor
  · intro hall
    refine ⟨hall 0 child rfl, fun i other hother => ?_⟩
    rw [hall (i + 1) other hother]
    omega
  · rintro ⟨hfirst, hrest⟩ i other hother
    cases i with
    | zero =>
      cases hother
      exact hfirst
    | succ i =>
      rw [hrest i other hother]
      omega

@[simp] theorem numbered_append {first : Nat} {left right : List BtreeNode} :
    Numbered first (left ++ right) ↔ Numbered first left ∧ Numbered (first + left.length) right := by
  induction left generalizing first with
  | nil => simp [numbered_nil]
  | cons child left ih =>
    rw [List.cons_append, numbered_cons, numbered_cons, ih, List.length_cons, and_assoc,
      Nat.add_assoc, Nat.add_comm 1]

theorem numbered_numbered (first : Nat) (children : List BtreeNode) :
    Numbered first (BtreeNode.numbered first children) := by
  intro i child hchild
  unfold BtreeNode.numbered at hchild
  rw [List.getElem?_mapIdx, Option.map_eq_some_iff] at hchild
  obtain ⟨other, -, rfl⟩ := hchild
  rfl

@[simp] theorem length_numbered (first : Nat) (children : List BtreeNode) :
    (BtreeNode.numbered first children).length = children.length := List.length_mapIdx

theorem map_numbered {α : Type} {first : Nat} {children : List BtreeNode} {f : BtreeNode → α}
    (hf : ∀ node childNo, f { node with childNo := childNo } = f node) :
    (BtreeNode.numbered first children).map f = children.map f := by
  unfold BtreeNode.numbered
  refine List.ext_getElem? fun i => ?_
  rw [List.getElem?_map, List.getElem?_mapIdx, List.getElem?_map, Option.map_map]
  exact congrArg (fun g => Option.map g children[i]?) (funext fun child => hf child _)

theorem mem_numbered {first : Nat} {children : List BtreeNode} {child : BtreeNode}
    (hchild : child ∈ BtreeNode.numbered first children) :
    ∃ other ∈ children, ∃ childNo, child = { other with childNo := childNo } := by
  obtain ⟨i, hi⟩ := List.getElem?_of_mem hchild
  unfold BtreeNode.numbered at hi
  rw [List.getElem?_mapIdx, Option.map_eq_some_iff] at hi
  obtain ⟨other, hother, rfl⟩ := hi
  exact ⟨other, List.mem_of_getElem? hother, _, rfl⟩

/-- An inner node in memory, with what holds of its children. -/
structure Branch (below : BtreeNode → Prop) (node : BtreeNode) : Prop where
  loaded : node.isLoaded = true
  inner : node.isLeaf = false
  fanout : node.children.length = node.objCount + 1
  numbered : Numbered 0 node.children
  below : ∀ child ∈ node.children, below child

structure Bottom (node : BtreeNode) : Prop where
  loaded : node.isLoaded = true
  leaf : node.isLeaf = true
  childless : node.children = []

/-- A tree of some height: at most `maxKeys` records in a node, at least `least` in
the topmost one and `maxKeys / 3 - 1` in the others. -/
def Shape (view : View) : Nat → Nat → BtreeNode → Prop
  | 0, least, node =>
    Bottom (view.load node) ∧ least ≤ (view.load node).objCount ∧
      (view.load node).objCount ≤ view.maxKeys
  | height + 1, least, node =>
    Branch (fun child => view.good (view.load child) ∧
        Shape view height (view.maxKeys / 3 - 1) child) (view.load node) ∧
      least ≤ (view.load node).objCount ∧ (view.load node).objCount ≤ view.maxKeys

def Under (view : View) (height : Nat) (child : BtreeNode) : Prop :=
  view.good (view.load child) ∧ Shape view height (view.maxKeys / 3 - 1) child

section Shape

variable {view : View} {store : Store} {height least : Nat} {node : BtreeNode}

theorem Shape.least_le (hshape : Shape view height least node) :
    least ≤ (view.load node).objCount := by
  cases height with
  | zero => exact hshape.2.1
  | succ height => exact hshape.2.1

theorem Shape.le (hshape : Shape view height least node) :
    (view.load node).objCount ≤ view.maxKeys := by
  cases height with
  | zero => exact hshape.2.2
  | succ height => exact hshape.2.2

theorem Shape.loaded (hshape : Shape view height least node) :
    (view.load node).isLoaded = true := by
  cases height with
  | zero => exact hshape.1.loaded
  | succ height => exact hshape.1.loaded

theorem Shape.congr (hshape : Shape view height least node) {other : BtreeNode}
    (hloaded : (view.load other).isLoaded = (view.load node).isLoaded)
    (hleaf : (view.load other).isLeaf = (view.load node).isLeaf)
    (hitems : (view.load other).items = (view.load node).items)
    (hchildren : (view.load other).children = (view.load node).children) :
    Shape view height least other := by
  have hcount : (view.load other).objCount = (view.load node).objCount :=
    congrArg List.length hitems
  cases height with
  | zero =>
    obtain ⟨hbottom, hleast, hle⟩ := hshape
    exact ⟨⟨hloaded.trans hbottom.loaded, hleaf.trans hbottom.leaf,
      hchildren.trans hbottom.childless⟩, by rwa [hcount], by rwa [hcount]⟩
  | succ height =>
    obtain ⟨hbranch, hleast, hle⟩ := hshape
    exact ⟨⟨hloaded.trans hbranch.loaded, hleaf.trans hbranch.inner,
      by rw [hchildren, hcount, hbranch.fanout], by rw [hchildren]; exact hbranch.numbered,
      by rw [hchildren]; exact hbranch.below⟩, by rwa [hcount], by rwa [hcount]⟩

theorem Shape.weaken (hshape : Shape view height least node) {less : Nat}
    (hless : less ≤ (view.load node).objCount) : Shape view height less node := by
  cases height with
  | zero => exact ⟨hshape.1, hless, hshape.2.2⟩
  | succ height => exact ⟨hshape.1, hless, hshape.2.2⟩

theorem Under.congr {child other : BtreeNode} (hsame : view.load child = view.load other)
    (hunder : Under view height other) : Under view height child :=
  ⟨by rw [hsame]; exact hunder.1,
    hunder.2.congr (by rw [hsame]) (by rw [hsame]) (by rw [hsame]) (by rw [hsame])⟩

variable (hfits : view.Fits store)
include hfits

theorem View.Fits.branch (hloaded : node.isLoaded = true)
    (hshape : Shape view (height + 1) least node) : Branch (Under view height) node := by
  rw [← hfits.loaded node hloaded]
  exact hshape.1

theorem View.Fits.bottom (hloaded : node.isLoaded = true) (hshape : Shape view 0 least node) :
    Bottom node := by
  rw [← hfits.loaded node hloaded]
  exact hshape.1

theorem View.Fits.inorder_renumber (childNo : Nat) :
    inorder view height { node with childNo := childNo } = inorder view height node :=
  inorder_congr (by rw [hfits.childNo]) (by rw [hfits.childNo])

theorem View.Fits.extents_renumber (childNo : Nat) :
    extents view height { node with childNo := childNo } = extents view height node :=
  extents_congr (by rw [hfits.childNo]; rfl) (by rw [hfits.childNo])

theorem View.Fits.shape_renumber (hshape : Shape view height least node) (childNo : Nat) :
    Shape view height least { node with childNo := childNo } :=
  hshape.congr (by rw [hfits.childNo]) (by rw [hfits.childNo]) (by rw [hfits.childNo])
    (by rw [hfits.childNo])

theorem View.Fits.under_renumber (hunder : Under view height node) (childNo : Nat) :
    Under view height { node with childNo := childNo } := by
  refine ⟨?_, hfits.shape_renumber hunder.2 childNo⟩
  rw [hfits.childNo]
  exact hfits.congr (SamePage.renumber _ _) hunder.1

theorem View.Fits.load_load (hshape : Shape view height least node) :
    view.load (view.load node) = view.load node := hfits.loaded _ hshape.loaded

theorem View.Fits.shape_load (hshape : Shape view height least node) :
    Shape view height least (view.load node) := by
  have hsame := hfits.load_load hshape
  exact hshape.congr (by rw [hsame]) (by rw [hsame]) (by rw [hsame]) (by rw [hsame])

theorem View.Fits.under_load (hunder : Under view height node) :
    Under view height (view.load node) := by
  refine ⟨?_, hfits.shape_load hunder.2⟩
  rw [hfits.load_load hunder.2]
  exact hunder.1

theorem View.Fits.inorder_load (hshape : Shape view height least node) :
    inorder view height (view.load node) = inorder view height node := by
  have hsame := hfits.load_load hshape
  exact inorder_congr (by rw [hsame]) (by rw [hsame])

theorem View.Fits.extents_load (hshape : Shape view height least node) :
    extents view height (view.load node) = extents view height node := by
  have hsame := hfits.load_load hshape
  exact extents_congr (by rw [hsame]) (by rw [hsame])

end Shape

end Libsax.Btree
