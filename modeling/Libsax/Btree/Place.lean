import Libsax.Btree.Insertion

/-! Places in a tree: a node with the nodes above it, as a pointer to a node and the `parent`
pointers from there give them. The records of the tree are those before a place, those of its
subtree and those behind it. -/
namespace Libsax.Btree

open Libsax.Lib
open Libsax.Db (Key Value)

/-- A node and the nodes above it, the nearest first. -/
structure Place where
  node : BtreeNode
  above : List BtreeNode

namespace Place

/-- `loadChild`. What is loaded is known to the places below the node. -/
def child (store : Store) (place : Place) (childNum : Nat) : Option (Store × Place) := do
  let (store, node) ← loadChild store place.node childNum
  some (store, ⟨← node.children[childNum]?, node :: place.above⟩)

/-- The loops that go down to a leaf, at each node to the child that `pick` chooses. -/
def descend (pick : BtreeNode → Nat) : Nat → Store → Place → Option (Store × Place)
  | 0, _, _ => none
  | fuel + 1, store, place =>
    if place.node.isLeaf then some (store, place)
    else do
      let (store, place) ← place.child store (pick place.node)
      descend pick fuel store place

end Place

def itemsBefore (view : View) : Nat → Nat → List BtreeNode → List Item
  | _, _, [] => []
  | height, childNo, parent :: above =>
    itemsBefore view (height + 1) parent.childNo above ++
      weave ((parent.children.take childNo).map (inorder view height)) (parent.items.take childNo)

def itemsAfter (view : View) : Nat → Nat → List BtreeNode → List Item
  | _, _, [] => []
  | height, childNo, parent :: above =>
    trail ((parent.children.drop (childNo + 1)).map (inorder view height))
        (parent.items.drop childNo) ++
      itemsAfter view (height + 1) parent.childNo above

/-- The nodes above a node of some height, number and records. -/
def Spine (view : View) : Nat → Nat → List Item → List BtreeNode → Prop
  | _, _, _, [] => True
  | height, childNo, below, parent :: above =>
    parent.isLoaded = true ∧ (∃ least, Shape view (height + 1) least parent) ∧
      (∃ child, parent.children[childNo]? = some child ∧ inorder view height child = below) ∧
        Spine view (height + 1) parent.childNo (inorder view (height + 1) parent) above

/-- A place in a tree, with all the records of the tree. -/
structure Stands (view : View) (height least : Nat) (items : List Item) (place : Place) :
    Prop where
  loaded : place.node.isLoaded = true
  shape : Shape view height least place.node
  spine : Spine view height place.node.childNo (inorder view height place.node) place.above
  items : itemsBefore view height place.node.childNo place.above ++ inorder view height place.node ++
    itemsAfter view height place.node.childNo place.above = items

variable {view : View} {store store' : Store} {place : Place} {node child : BtreeNode}
  {height least i : Nat} {left right above : List BtreeNode} {front back items : List Item}

theorem itemsBefore_window (hwindow : Window node i left [child] right front [] back) :
    itemsBefore view height i (node :: above) =
      itemsBefore view (height + 1) node.childNo above ++
        weave (left.map (inorder view height)) front := by
  have hitems : node.items = front ++ back := by rw [hwindow.items, List.append_nil]
  rw [itemsBefore, take_left (hwindow.children.trans (List.append_assoc _ _ _)) hwindow.left,
    take_left hitems hwindow.front]

theorem itemsAfter_window (hwindow : Window node i left [child] right front [] back) :
    itemsAfter view height i (node :: above) =
      trail (right.map (inorder view height)) back ++
        itemsAfter view (height + 1) node.childNo above := by
  have hitems : node.items = front ++ back := by rw [hwindow.items, List.append_nil]
  have hleft : (left ++ [child]).length = i + 1 := by
    rw [List.length_append, hwindow.left]
    rfl
  rw [itemsAfter, drop_left hwindow.children hleft, drop_left hitems hwindow.front]

theorem itemsAfter_loads {other : BtreeNode} (hloads : Loads view node other) :
    itemsAfter view height i (other :: above) = itemsAfter view height i (node :: above) := by
  rw [itemsAfter, itemsAfter, List.map_drop, List.map_drop, hloads.inorder_children, hloads.items,
    hloads.childNo]

theorem itemsBefore_loads {other : BtreeNode} (hloads : Loads view node other) :
    itemsBefore view height i (other :: above) = itemsBefore view height i (node :: above) := by
  rw [itemsBefore, itemsBefore, List.map_take, List.map_take, hloads.inorder_children,
    hloads.items, hloads.childNo]

theorem itemsAfter_two {next : BtreeNode} {sep : Item}
    (hwindow : Window node i left [child, next] right front [sep] back) :
    itemsAfter view height i (node :: above) =
      sep :: (inorder view height next ++ itemsAfter view height (i + 1) (node :: above)) := by
  rw [itemsAfter_window hwindow.first, itemsAfter_window hwindow.second, List.map_cons,
    trail_cons, weave_cons, List.cons_append, List.append_assoc]

theorem itemsAfter_end (hfanout : node.children.length = node.objCount + 1)
    (hend : i = node.objCount) :
    itemsAfter view height i (node :: above) = itemsAfter view (height + 1) node.childNo above := by
  have hchildren : node.children.drop (i + 1) = [] := List.drop_eq_nil_of_le (by omega)
  have hitems : node.items.drop i = [] := List.drop_eq_nil_of_le (Nat.le_of_eq hend.symm)
  rw [itemsAfter, hchildren, hitems, List.map_nil, trail_nil, List.nil_append]

private theorem itemsBefore_two {next : BtreeNode} {sep : Item}
    (hwindow : Window node i left [child, next] right front [sep] back) :
    itemsBefore view height (i + 1) (node :: above) =
      itemsBefore view height i (node :: above) ++ inorder view height child ++ [sep] := by
  have hlength : (left.map (inorder view height)).length = front.length := by
    rw [List.length_map, hwindow.left, hwindow.front]
  rw [itemsBefore_window hwindow.first, itemsBefore_window hwindow.second, List.map_append,
    List.map_singleton, weave_append hlength, weave_cons, trail_cons, weave_nil]
  simp only [List.append_assoc]

theorem stands_root (hloaded : node.isLoaded = true) (hshape : Shape view height least node) :
    Stands view height least (inorder view height node) ⟨node, []⟩ :=
  ⟨hloaded, hshape, trivial, List.append_nil _⟩

theorem Stands.loads (hfits : view.Fits store) {other : BtreeNode}
    (hplace : Stands view (height + 1) least items ⟨node, above⟩) (hloads : Loads view node other) :
    Stands view (height + 1) least items ⟨other, above⟩ := by
  obtain ⟨hloaded, hshape, hspine, hitems⟩ := hplace
  have hloaded' : other.isLoaded = true := hloads.isLoaded.trans hloaded
  have hload := hfits.loaded node hloaded
  have hload' := hfits.loaded other hloaded'
  have hsame : inorder view (height + 1) other = inorder view (height + 1) node := by
    rw [inorder, inorder, hload, hload', hloads.inorder_children, hloads.items]
  refine ⟨hloaded', ?_, ?_, ?_⟩
  · have hbranch := hloads.branch hfits Under.congr (hfits.branch hloaded hshape)
    obtain ⟨-, hleast, hle⟩ := hshape
    rw [hload] at hleast hle
    unfold Shape
    rw [hload', hloads.objCount]
    exact ⟨hbranch, hleast, hle⟩
  · rw [hloads.childNo, hsame]
    exact hspine
  · rw [hloads.childNo, hsame]
    exact hitems

theorem parent_stands (hfits : view.Fits store) {parent : BtreeNode}
    (hplace : Stands view height least items ⟨node, parent :: above⟩) :
    ∃ least', Stands view (height + 1) least' items ⟨parent, above⟩ ∧
      ∃ child left right front back,
        Window parent node.childNo left [child] right front [] back := by
  obtain ⟨-, -, ⟨hloaded, ⟨least', hshape⟩, ⟨child, hchild, hbelow⟩, hspine⟩, hitems⟩ := hplace
  have hbranch := hfits.branch hloaded hshape
  have hfanout := hbranch.fanout
  have hlt : node.childNo < parent.children.length :=
    (List.getElem?_eq_some_iff.mp hchild).1
  obtain ⟨left, other, right, front, back, hwindow⟩ :=
    hbranch.window_one (show node.childNo ≤ parent.objCount by omega)
  obtain rfl : other = child := Option.some.inj (hwindow.child_eq.symm.trans hchild)
  refine ⟨least', ⟨hloaded, hshape, hspine, ?_⟩, other, left, right, front, back, hwindow⟩
  have hweave := @Window.inorder _ _ _ _ _ _ _ _ view height hwindow (hfits.loaded parent hloaded)
  rw [List.map_singleton, weave_one] at hweave
  rw [← hitems, hweave, itemsBefore_window hwindow, itemsAfter_window hwindow, hbelow]
  simp only [List.append_assoc]

theorem Stands.loads_above (hfits : view.Fits store) {parent other : BtreeNode}
    (hplace : Stands view height least items ⟨node, parent :: above⟩)
    (hloads : Loads view parent other) : Stands view height least items ⟨node, other :: above⟩ := by
  obtain ⟨least', hparent, -⟩ := parent_stands hfits hplace
  have hother := hparent.loads hfits hloads
  obtain ⟨hloaded, hshape, ⟨-, -, ⟨child, hchild, hbelow⟩, -⟩, hitems⟩ := hplace
  refine ⟨hloaded, hshape, ⟨hother.loaded, ⟨least', hother.shape⟩, ?_, hother.spine⟩, ?_⟩
  · have hsame : other.children.map (inorder view height) =
        parent.children.map (inorder view height) := hloads.inorder_children
    have hmap := congrArg (fun children => children[node.childNo]?) hsame
    simp only [List.getElem?_map, hchild, Option.map_some] at hmap
    obtain ⟨child', hchild', hsame⟩ := Option.map_eq_some_iff.mp hmap
    exact ⟨child', hchild', hsame.trans hbelow⟩
  · rw [itemsBefore_loads hloads, itemsAfter_loads hloads]
    exact hitems

theorem child_stands (hfits : view.Fits store) (hplace : Stands view (height + 1) least items place)
    (hi : i ≤ place.node.objCount) : ∃ store' child node,
    place.child store i = some (store', ⟨child, node :: place.above⟩) ∧ store.Stays store' ∧
      Stands view height (view.maxKeys / 3 - 1) items ⟨child, node :: place.above⟩ ∧
      child.childNo = i ∧ Loads view place.node node ∧
      ∃ left right front back, Window node i left [child] right front [] back := by
  have hbranch := hfits.branch hplace.loaded hplace.shape
  obtain ⟨store', node, child, hcall, hstays, hloads, hbefore, hchild⟩ :=
    loadChild_loads hfits hbranch (fun child hunder => hunder.2.loaded) hi
  have hnode := hplace.loads hfits hloads
  have hbranch' := hfits.branch hnode.loaded hnode.shape
  obtain ⟨left, other, right, front, back, hwindow⟩ :=
    hbranch'.window_one (show i ≤ node.objCount by rw [hloads.objCount]; exact hi)
  obtain rfl : other = view.load child := Option.some.inj (hwindow.child_eq.symm.trans hchild)
  have hunder := hbranch.below child (List.mem_of_getElem? hbefore)
  have hload := hfits.loaded (view.load child) hunder.2.loaded
  have hnumber := (numbered_cons.mp (hwindow.numbered_mid hbranch')).1
  refine ⟨store', view.load child, node, ?_, hstays, ⟨hunder.2.loaded, hfits.shape_load hunder.2,
    ⟨hnode.loaded, ⟨least, hnode.shape⟩, ⟨view.load child, ?_, rfl⟩, hnode.spine⟩, ?_⟩, hnumber,
    hloads, left, right, front, back, hwindow⟩
  · unfold Place.child
    rw [hcall]
    simp only [Option.bind_eq_bind, Option.bind_some, hchild]
  · rw [hnumber]
    exact hchild
  · have hweave := @Window.inorder _ _ _ _ _ _ _ _ view height hwindow
      (hfits.loaded node hnode.loaded)
    rw [List.map_singleton, weave_one] at hweave
    have hitems := hnode.items
    rw [hweave] at hitems
    rw [hnumber, itemsBefore_window hwindow, itemsAfter_window hwindow, ← hitems]
    simp only [List.append_assoc]

theorem Stands.items_two (hfits : view.Fits store) {next : BtreeNode} {sep : Item}
    (hplace : Stands view (height + 1) least items place)
    (hwindow : Window place.node i left [child, next] right front [sep] back) :
    items = itemsBefore view height i (place.node :: place.above) ++ inorder view height child ++
      sep :: (inorder view height next ++ itemsAfter view height (i + 1) (place.node :: place.above)) := by
  have hweave := @Window.inorder _ _ _ _ _ _ _ _ view height hwindow
    (hfits.loaded place.node hplace.loaded)
  rw [← hplace.items, hweave, itemsBefore_window hwindow.first, itemsAfter_window hwindow.second]
  simp only [List.map_cons, List.map_nil, weave_two, List.append_assoc, List.cons_append]

theorem Stands.one_le_objCount (hmax : 6 ≤ view.maxKeys) (hfits : view.Fits store)
    (hplace : Stands view height (view.maxKeys / 3 - 1) items place) :
    1 ≤ place.node.objCount := by
  have hleast := hplace.shape.least_le
  rw [hfits.loaded _ hplace.loaded] at hleast
  exact Nat.le_trans (by omega) hleast

theorem Stands.from_eq {other : Place} {height' least' : Nat}
    (hplace : Stands view height least items place)
    (hother : Stands view height' least' items other)
    (hbefore : itemsBefore view height' other.node.childNo other.above =
      itemsBefore view height place.node.childNo place.above) :
    inorder view height' other.node ++ itemsAfter view height' other.node.childNo other.above =
      inorder view height place.node ++ itemsAfter view height place.node.childNo place.above := by
  have hall := hplace.items.trans hother.items.symm
  rw [List.append_assoc, List.append_assoc, hbefore] at hall
  exact (List.append_cancel_left hall).symm

theorem Stands.upTo_eq {other : Place} {height' least' : Nat}
    (hplace : Stands view height least items place)
    (hother : Stands view height' least' items other)
    (hafter : itemsAfter view height' other.node.childNo other.above =
      itemsAfter view height place.node.childNo place.above) :
    itemsBefore view height' other.node.childNo other.above ++ inorder view height' other.node =
      itemsBefore view height place.node.childNo place.above ++ inorder view height place.node := by
  have hall := hplace.items.trans hother.items.symm
  rw [hafter] at hall
  exact (List.append_cancel_right hall).symm

section Descend

variable (hmax : 6 ≤ view.maxKeys)
include hmax

theorem descend_first (hfits : view.Fits store) (hplace : Stands view height least items place)
    {fuel : Nat} (hfuel : height < fuel) : ∃ store' leaf least',
    place.descend (fun _ => 0) fuel store = some (store', leaf) ∧ store.Stays store' ∧
      Stands view 0 least' items leaf ∧
      itemsBefore view 0 leaf.node.childNo leaf.above =
        itemsBefore view height place.node.childNo place.above ∧
      leaf.above.length = height + place.above.length ∧
      ((height = 0 → 1 ≤ place.node.objCount) → 1 ≤ leaf.node.objCount) := by
  induction height generalizing fuel store place least with
  | zero =>
    obtain ⟨fuel, rfl⟩ := Nat.exists_eq_add_one.mpr hfuel
    rw [Place.descend, if_pos (hfits.bottom hplace.loaded hplace.shape).leaf]
    exact ⟨store, place, least, rfl, Store.Stays.refl store, hplace, rfl, (Nat.zero_add _).symm,
      fun hsome => hsome rfl⟩
  | succ height ih =>
    obtain ⟨fuel, rfl⟩ := Nat.exists_eq_add_one.mpr (Nat.zero_lt_of_lt hfuel)
    have hinner := (hfits.branch hplace.loaded hplace.shape).inner
    obtain ⟨store', child, node, hcall, hstays, hchild, hnumber, hloads, left, right, front, back,
      hwindow⟩ := child_stands hfits hplace (Nat.zero_le _)
    obtain ⟨store'', leaf, least', hdescend, hstays', hleaf, hbefore, hlevels, hsome⟩ :=
      ih (hfits.stays hstays) hchild (Nat.lt_of_succ_lt_succ hfuel)
    rw [Place.descend, if_neg (by rw [hinner]; exact Bool.false_ne_true), hcall]
    simp only [Option.bind_eq_bind, Option.bind_some]
    refine ⟨store'', leaf, least', hdescend, hstays.trans hstays', hleaf, ?_,
      by rw [hlevels, List.length_cons]; omega,
      fun _ => hsome fun _ => hchild.one_le_objCount hmax (hfits.stays hstays)⟩
    have hleft := List.eq_nil_of_length_eq_zero hwindow.left
    have hfront := List.eq_nil_of_length_eq_zero hwindow.front
    rw [hbefore, hnumber, itemsBefore_window hwindow, hleft, hfront, hloads.childNo, List.map_nil,
      weave_nil, List.append_nil]

theorem descend_last (hfits : view.Fits store) (hplace : Stands view height least items place)
    {fuel : Nat} (hfuel : height < fuel) : ∃ store' leaf least',
    place.descend BtreeNode.objCount fuel store = some (store', leaf) ∧ store.Stays store' ∧
      Stands view 0 least' items leaf ∧
      itemsAfter view 0 leaf.node.childNo leaf.above =
        itemsAfter view height place.node.childNo place.above ∧
      leaf.above.length = height + place.above.length ∧
      ((height = 0 → 1 ≤ place.node.objCount) → 1 ≤ leaf.node.objCount) := by
  induction height generalizing fuel store place least with
  | zero =>
    obtain ⟨fuel, rfl⟩ := Nat.exists_eq_add_one.mpr hfuel
    rw [Place.descend, if_pos (hfits.bottom hplace.loaded hplace.shape).leaf]
    exact ⟨store, place, least, rfl, Store.Stays.refl store, hplace, rfl, (Nat.zero_add _).symm,
      fun hsome => hsome rfl⟩
  | succ height ih =>
    obtain ⟨fuel, rfl⟩ := Nat.exists_eq_add_one.mpr (Nat.zero_lt_of_lt hfuel)
    have hinner := (hfits.branch hplace.loaded hplace.shape).inner
    obtain ⟨store', child, node, hcall, hstays, hchild, hnumber, hloads, left, right, front, back,
      hwindow⟩ := child_stands hfits hplace (le_refl place.node.objCount)
    obtain ⟨store'', leaf, least', hdescend, hstays', hleaf, hafter, hlevels, hsome⟩ :=
      ih (hfits.stays hstays) hchild (Nat.lt_of_succ_lt_succ hfuel)
    rw [Place.descend, if_neg (by rw [hinner]; exact Bool.false_ne_true), hcall]
    simp only [Option.bind_eq_bind, Option.bind_some]
    refine ⟨store'', leaf, least', hdescend, hstays.trans hstays', hleaf, ?_,
      by rw [hlevels, List.length_cons]; omega,
      fun _ => hsome fun _ => hchild.one_le_objCount hmax (hfits.stays hstays)⟩
    have hfanout := (hfits.branch hplace.loaded hplace.shape).fanout
    rw [hafter, hnumber, itemsAfter_end ?_ hloads.objCount.symm, hloads.childNo]
    rw [hloads.length_children, hfanout, hloads.objCount]

theorem down_first (hfits : view.Fits store) (hplace : Stands view (height + 1) least items place)
    (hi : i < place.node.objCount) {fuel : Nat} (hfuel : height < fuel) :
    ∃ sep store' inner store'' leaf least', place.node.items[i]? = some sep ∧
      place.child store (i + 1) = some (store', inner) ∧
      inner.descend (fun _ => 0) fuel store' = some (store'', leaf) ∧ store.Stays store'' ∧
      Stands view 0 least' items leaf ∧ 1 ≤ leaf.node.objCount ∧ leaf.above ≠ [] ∧
      leaf.above.length = height + 1 + place.above.length ∧
      itemsAfter view height i (place.node :: place.above) =
        sep :: (leaf.node.items ++ itemsAfter view 0 leaf.node.childNo leaf.above) := by
  obtain ⟨left, child, next, right, front, sep, back, hwindow⟩ :=
    (hfits.branch hplace.loaded hplace.shape).window_two hi
  obtain ⟨store', inner, node, hcall, hstays, hchild, hnumber, hloads, _, _, _, _, hwindow'⟩ :=
    child_stands hfits hplace (Nat.succ_le_of_lt hi)
  have hinner := hloads.inorder_child hwindow'.child_eq hwindow.next_eq height
  obtain ⟨store'', leaf, least', hdescend, hstays', hleaf, hbefore, hlevels, hsome⟩ :=
    descend_first hmax (hfits.stays hstays) hchild hfuel
  have hfrom := hchild.from_eq hleaf hbefore
  rw [(hfits.stays (hstays.trans hstays')).inorder_leaf hleaf.loaded, hinner, hnumber,
    itemsAfter_loads hloads] at hfrom
  rw [itemsAfter_two hwindow, ← hfrom]
  refine ⟨sep, store', _, store'', leaf, least', hwindow.sep_eq, hcall, hdescend,
    hstays.trans hstays', hleaf, hsome fun _ => hchild.one_le_objCount hmax (hfits.stays hstays), ?_,
    by rw [hlevels, List.length_cons]; omega, rfl⟩
  exact List.ne_nil_of_length_pos (by rw [hlevels, List.length_cons]; omega)

theorem down_last (hfits : view.Fits store) (hplace : Stands view (height + 1) least items place)
    {next : BtreeNode} {sep : Item}
    (hwindow : Window place.node i left [child, next] right front [sep] back) {fuel : Nat}
    (hfuel : height < fuel) :
    ∃ store' inner store'' leaf least', place.child store i = some (store', inner) ∧
      inner.descend BtreeNode.objCount fuel store' = some (store'', leaf) ∧ store.Stays store'' ∧
      Stands view 0 least' items leaf ∧ 1 ≤ leaf.node.objCount ∧
      leaf.above.length = height + 1 + place.above.length ∧
      itemsBefore view height i (place.node :: place.above) ++ inorder view height child =
        itemsBefore view 0 leaf.node.childNo leaf.above ++ leaf.node.items := by
  obtain ⟨store', inner, node, hcall, hstays, hchild, hnumber, hloads, _, _, _, _, hwindow'⟩ :=
    child_stands hfits hplace (Nat.le_of_lt hwindow.lt_objCount)
  have hinner := hloads.inorder_child hwindow'.child_eq hwindow.child_eq height
  obtain ⟨store'', leaf, least', hdescend, hstays', hleaf, hafter, hlevels, hsome⟩ :=
    descend_last hmax (hfits.stays hstays) hchild hfuel
  have hupTo := hchild.upTo_eq hleaf hafter
  rw [(hfits.stays (hstays.trans hstays')).inorder_leaf hleaf.loaded, hinner, hnumber,
    itemsBefore_loads hloads] at hupTo
  exact ⟨store', _, store'', leaf, least', hcall, hdescend, hstays.trans hstays', hleaf,
    hsome fun _ => hchild.one_le_objCount hmax (hfits.stays hstays),
    by rw [hlevels, List.length_cons]; omega, hupTo.symm⟩

end Descend

namespace Place

/-- The nearest node above that has a record behind the child come from, with its position. -/
def climbNext : Nat → List BtreeNode → Option (Place × Nat)
  | _, [] => none
  | childNo, parent :: above =>
    if childNo ≥ parent.objCount then climbNext parent.childNo above
    else some (⟨parent, above⟩, childNo)

/-- The nearest node above that has a record before the child come from, with the number of
the child. -/
def climbPrev : Nat → List BtreeNode → Option (Place × Nat)
  | _, [] => none
  | childNo, parent :: above =>
    if childNo = 0 then climbPrev parent.childNo above else some (⟨parent, above⟩, childNo)

end Place

theorem climbNext_stands (hfits : view.Fits store)
    (hplace : Stands view height least items ⟨node, above⟩) :
    (Place.climbNext node.childNo above = none ∧
      itemsAfter view height node.childNo above = []) ∨
    ∃ place i height' least' left child next right front sep back,
      Place.climbNext node.childNo above = some (place, i) ∧
      Stands view (height' + 1) least' items place ∧
      Window place.node i left [child, next] right front [sep] back ∧
      height' + 1 + place.above.length = height + above.length ∧
      itemsAfter view height node.childNo above = sep :: (inorder view height' next ++
        itemsAfter view height' (i + 1) (place.node :: place.above)) := by
  induction above generalizing height least node with
  | nil => exact Or.inl ⟨rfl, rfl⟩
  | cons parent above ih =>
    obtain ⟨least', hparent, child, left, right, front, back, hwindow⟩ :=
      parent_stands hfits hplace
    have hbranch := hfits.branch hparent.loaded hparent.shape
    have hcount := hwindow.objCount
    rw [Place.climbNext]
    split_ifs with hlast
    · rw [itemsAfter_end hbranch.fanout (show node.childNo = parent.objCount by omega)]
      rcases ih hparent with hnone | ⟨place, i, height', least', left, child, next, right, front,
        sep, back, hcall, hstands, hwindow, hlevels, hafter⟩
      · exact Or.inl hnone
      · exact Or.inr ⟨place, i, height', least', left, child, next, right, front, sep, back, hcall,
          hstands, hwindow, by rw [hlevels, List.length_cons]; omega, hafter⟩
    · obtain ⟨left, child, next, right, front, sep, back, hwindow⟩ :=
        hbranch.window_two (Nat.lt_of_not_le hlast)
      exact Or.inr ⟨⟨parent, above⟩, node.childNo, height, least', left, child, next, right, front,
        sep, back, rfl, hparent, hwindow, Nat.succ_add_eq_add_succ height above.length,
        itemsAfter_two hwindow⟩

theorem climbPrev_stands (hfits : view.Fits store)
    (hplace : Stands view height least items ⟨node, above⟩) :
    (Place.climbPrev node.childNo above = none ∧
      itemsBefore view height node.childNo above = []) ∨
    ∃ place i height' least' left child next right front sep back,
      Place.climbPrev node.childNo above = some (place, i + 1) ∧
      Stands view (height' + 1) least' items place ∧
      Window place.node i left [child, next] right front [sep] back ∧
      height' + 1 + place.above.length = height + above.length ∧
      itemsBefore view height node.childNo above =
        itemsBefore view height' i (place.node :: place.above) ++ inorder view height' child ++
          [sep] := by
  induction above generalizing height least node with
  | nil => exact Or.inl ⟨rfl, rfl⟩
  | cons parent above ih =>
    obtain ⟨least', hparent, child, left, right, front, back, hwindow⟩ :=
      parent_stands hfits hplace
    have hbranch := hfits.branch hparent.loaded hparent.shape
    have hcount := hwindow.objCount
    rw [Place.climbPrev]
    split_ifs with hfirst
    · have hleft := List.eq_nil_of_length_eq_zero (hwindow.left.trans hfirst)
      have hfront := List.eq_nil_of_length_eq_zero (hwindow.front.trans hfirst)
      rw [itemsBefore_window hwindow, hleft, hfront, List.map_nil, weave_nil, List.append_nil]
      rcases ih hparent with hnone | ⟨place, i, height', least', left, child, next, right, front,
        sep, back, hcall, hstands, hwindow, hlevels, hbefore⟩
      · exact Or.inl hnone
      · exact Or.inr ⟨place, i, height', least', left, child, next, right, front, sep, back, hcall,
          hstands, hwindow, by rw [hlevels, List.length_cons]; omega, hbefore⟩
    · obtain ⟨i, hi⟩ := Nat.exists_eq_add_one_of_ne_zero hfirst
      obtain ⟨left, child, next, right, front, sep, back, hwindow⟩ :=
        hbranch.window_two (show i < parent.objCount by omega)
      refine Or.inr ⟨⟨parent, above⟩, i, height, least', left, child, next, right, front, sep, back,
        by rw [hi], hparent, hwindow, Nat.succ_add_eq_add_succ height above.length, ?_⟩
      rw [hi]
      exact itemsBefore_two hwindow

end Libsax.Btree
