import Libsax.Btree.Delete

/-! Deletion from a tree in memory: what the steps on the way down make of a few neighbouring
children, and what is left of the records. -/
namespace Libsax.Btree

open Libsax.Lib
open Libsax.Db (Key Value)

structure View.InMemory (view : View) : Prop where
  load : ∀ node, view.load node = node
  good : ∀ node, view.good node

theorem View.memory_inMemory (maxKeys : Nat) : (View.memory maxKeys).InMemory :=
  ⟨fun _ => rfl, fun _ => trivial⟩

variable {cmp : Key → Key → Ordering} {view : View} {store store' : Store}
  {node node' child next other : BtreeNode} {height least i count : Nat}
  {left mid right newMid children : List BtreeNode} {front between back newBetween items : List Item}
  {sep item : Item} {key : Key}

def Offspring (view : View) : Nat → Nat → List BtreeNode → Prop
  | 0, _, children => children = []
  | height + 1, count, children =>
    children.length = count ∧ ∀ child ∈ children, Under view height child

namespace Offspring

theorem length_le (hall : Offspring view height count children) : children.length ≤ count := by
  cases height with
  | zero =>
    obtain rfl : children = [] := hall
    exact Nat.zero_le _
  | succ height => exact Nat.le_of_eq hall.1

theorem append {more : Nat} (hleft : Offspring view height count left)
    (hright : Offspring view height more right) :
    Offspring view height (count + more) (left ++ right) := by
  cases height with
  | zero =>
    obtain rfl : left = [] := hleft
    exact hright
  | succ height =>
    refine ⟨by rw [List.length_append, hleft.1, hright.1], fun child hchild => ?_⟩
    exact (List.mem_append.mp hchild).elim (hleft.2 child) (hright.2 child)

theorem split {more : Nat} (hall : Offspring view height (count + more) children) :
    Offspring view height count (children.take count) ∧
      Offspring view height more (children.drop count) := by
  cases height with
  | zero =>
    obtain rfl : children = [] := hall
    exact ⟨List.take_nil, List.drop_nil⟩
  | succ height =>
    obtain ⟨hlength, hunder⟩ := hall
    refine ⟨⟨?_, fun child hchild => hunder child (List.mem_of_mem_take hchild)⟩,
      ⟨?_, fun child hchild => hunder child (List.mem_of_mem_drop hchild)⟩⟩
    · rw [List.length_take, hlength, Nat.min_eq_left (Nat.le_add_right count more)]
    · rw [List.length_drop, hlength, Nat.add_sub_cancel_left]

theorem numbered_append {more : Nat} (hleft : Offspring view height count left)
    (hright : Offspring view height more right) (hnumbered : Numbered 0 left) :
    Numbered 0 (left ++ BtreeNode.numbered count right) := by
  cases height with
  | zero =>
    obtain rfl : left = [] := hleft
    obtain rfl : right = [] := hright
    exact hnumbered
  | succ height =>
    rw [numbered_append, Nat.zero_add, hleft.1]
    exact ⟨hnumbered, numbered_numbered _ _⟩

theorem weave {more : Nat} (hleft : Offspring view height (front.length + 1) left)
    (hright : Offspring view height more right) (f : BtreeNode → List Item) :
    Lib.weave ((left ++ right).map f) (front ++ item :: back) =
      Lib.weave (left.map f) front ++ item :: Lib.weave (right.map f) back := by
  rw [List.map_append]
  refine weave_join ?_
  cases height with
  | zero =>
    obtain rfl : left = [] := hleft
    obtain rfl : right = [] := hright
    exact .inr ⟨rfl, rfl⟩
  | succ height => exact .inl (by rw [List.length_map, hleft.1])

theorem shift {next : Item} (hleft : Offspring view height (front.length + 1) left)
    (hmid : Offspring view height 1 mid) (hright : Offspring view height count right)
    (f : BtreeNode → List Item) :
    Lib.weave ((left ++ mid).map f) (front ++ [item]) ++ next :: Lib.weave (right.map f) back =
      Lib.weave (left.map f) front ++ item :: Lib.weave ((mid ++ right).map f) (next :: back) := by
  have hfirst := @weave _ _ _ _ front [] item _ hleft hmid f
  have hlast := @weave _ _ _ _ [] back next _ hmid hright f
  rw [List.nil_append] at hlast
  rw [hfirst, hlast, List.append_assoc, List.cons_append]

private theorem moved_eq {α : Type} (hmoved : Offspring view height 1 children)
    (hleaf : node.isLeaf = decide (height = 0)) {found : Option BtreeNode}
    (hfound : height ≠ 0 → found = children[0]?) (childNo : Nat) (rest : List BtreeNode → Option α) :
    (if node.isLeaf = true then rest [] else found.bind fun child =>
      rest [{ child with childNo := childNo }]) = rest (BtreeNode.numbered childNo children) := by
  cases height with
  | zero =>
    obtain rfl : children = [] := hmoved
    rw [hleaf]
    rfl
  | succ height =>
    obtain ⟨child, rfl⟩ := List.length_eq_one_iff.mp hmoved.1
    rw [hleaf, hfound (Nat.succ_ne_zero height)]
    rfl

end Offspring

section InMemory

variable (hmem : view.InMemory)
include hmem

theorem View.InMemory.fits (hmax : store.sfh.maxKeys = view.maxKeys) : view.Fits store where
  maxKeys := hmax
  loaded node _ := hmem.load node
  read node hnot hloaded := by
    rw [hmem.load, hnot] at hloaded
    cases hloaded
  fpos node := by rw [hmem.load]
  childNo node childNo := by rw [hmem.load, hmem.load]
  dirty node _ := hmem.good node
  congr _ _ := hmem.good _

theorem View.InMemory.under_iff :
    Under view height child ↔ Shape view height (view.maxKeys / 3 - 1) child :=
  ⟨And.right, fun hshape => ⟨hmem.good _, hshape⟩⟩

theorem View.InMemory.shape_iff : Shape view height least node ↔
    node.isLoaded = true ∧ node.isLeaf = decide (height = 0) ∧
      Offspring view height (node.objCount + 1) node.children ∧ Numbered 0 node.children ∧
        least ≤ node.objCount ∧ node.objCount ≤ view.maxKeys := by
  cases height with
  | zero =>
    unfold Shape
    rw [hmem.load]
    constructor
    · rintro ⟨⟨hloaded, hleaf, hchildless⟩, hcount⟩
      exact ⟨hloaded, hleaf, hchildless, by rw [hchildless]; exact numbered_nil 0, hcount⟩
    · rintro ⟨hloaded, hleaf, hchildless, -, hcount⟩
      exact ⟨⟨hloaded, hleaf, hchildless⟩, hcount⟩
  | succ height =>
    unfold Shape
    rw [hmem.load]
    constructor
    · rintro ⟨⟨hloaded, hinner, hfanout, hnumbered, hbelow⟩, hcount⟩
      exact ⟨hloaded, hinner, ⟨hfanout, hbelow⟩, hnumbered, hcount⟩
    · rintro ⟨hloaded, hinner, ⟨hfanout, hbelow⟩, hnumbered, hcount⟩
      exact ⟨⟨hloaded, hinner, hfanout, hnumbered, hbelow⟩, hcount⟩

theorem View.InMemory.branch (hshape : Shape view (height + 1) least node) :
    Branch (Under view height) node := by
  have hbranch := hshape.1
  rwa [hmem.load] at hbranch

theorem View.InMemory.loaded (hshape : Shape view height least node) : node.isLoaded = true :=
  (hmem.shape_iff.mp hshape).1

theorem View.InMemory.offspring (hshape : Shape view height least node) :
    Offspring view height (node.objCount + 1) node.children := (hmem.shape_iff.mp hshape).2.2.1

theorem View.InMemory.inorder_eq (hall : Offspring view height count node.children) :
    inorder view height node =
      weave (node.children.map (inorder view (height - 1))) node.items := by
  cases height with
  | zero =>
    have hnone : node.children = [] := hall
    rw [inorder, hmem.load, hnone, List.map_nil, weave_nil]
  | succ height =>
    rw [inorder, hmem.load]
    rfl

theorem View.InMemory.loadChild (store : Store) (hshape : Shape view (height + 1) least node)
    (hi : i ≤ node.objCount) : loadChild store node i = some (store, node) := by
  have hbranch := hmem.branch hshape
  obtain ⟨left, child, right, front, back, hwindow⟩ := hbranch.window_one hi
  exact loadChild_same hbranch hwindow.child_eq
    (hmem.loaded (hbranch.below child (hwindow.mem List.mem_cons_self)).2) store

theorem View.InMemory.loadFrom (store : Store) (hshape : Shape view (height + 1) least node)
    (hi : i + count ≤ node.objCount + 1) : loadFrom count i store node = some (store, node) := by
  induction count generalizing i with
  | zero => rfl
  | succ count ih =>
    rw [Btree.loadFrom, hmem.loadChild store hshape (by omega)]
    exact ih (by omega)

theorem View.InMemory.under_renumber (hunder : Under view height node) (childNo : Nat) :
    Under view height { node with childNo := childNo } :=
  (hmem.fits rfl : view.Fits ⟨⟨0, view.maxKeys, 0, 0, 0, 0, 0, 0⟩, fun _ => 0, 0⟩).under_renumber
    hunder childNo

theorem View.InMemory.offspring_numbered (hall : Offspring view height count children)
    (first : Nat) : Offspring view height count (BtreeNode.numbered first children) := by
  cases height with
  | zero =>
    obtain rfl : children = [] := hall
    exact rfl
  | succ height =>
    refine ⟨(length_numbered _ _).trans hall.1, fun child hchild => ?_⟩
    obtain ⟨other, hother, childNo, rfl⟩ := mem_numbered hchild
    exact hmem.under_renumber (hall.2 other hother) childNo

theorem View.InMemory.map_inorder_numbered (first : Nat) (children : List BtreeNode) :
    (BtreeNode.numbered first children).map (inorder view height) =
      children.map (inorder view height) :=
  map_numbered fun _ _ => inorder_congr (by rw [hmem.load, hmem.load]) (by rw [hmem.load, hmem.load])

end InMemory

/-- A node after a step on the way down: a tree still, with the records it had. -/
structure Rearranged (view : View) (height least : Nat) (node node' : BtreeNode) : Prop where
  childNo : node'.childNo = node.childNo
  shape : Shape view height least node'
  same : inorder view height node' = inorder view height node

section Exchange

variable (hmem : view.InMemory) (hshape : Shape view (height + 1) least node)
include hmem hshape

theorem View.InMemory.rearrange {less : Nat}
    (hold : Window node i left mid right front between back)
    (hnew : Window node' i left newMid (BtreeNode.numbered (i + newMid.length) right) front
      newBetween back)
    (hsame : { node' with items := [], children := [] } =
      { node with isDirty := node'.isDirty, items := [], children := [] })
    (hunder : ∀ child ∈ newMid, Shape view height (view.maxKeys / 3 - 1) child)
    (hnumbered : Numbered i newMid) (hfewer : newBetween.length ≤ between.length)
    (hless : less + between.length ≤ least + newBetween.length)
    (hweave : weave (newMid.map (inorder view height)) newBetween =
      weave (mid.map (inorder view height)) between) :
    Rearranged view (height + 1) less node node' := by
  have hbranch := hmem.branch hshape
  have hbranch' : Branch (Under view height) node' := by
    refine hold.branch hbranch hnew ((congrArg BtreeNode.isLoaded hsame).trans hbranch.loaded)
      ((congrArg BtreeNode.isLeaf hsame).trans hbranch.inner)
      (fun child hchild => hmem.under_iff.mpr (hunder child hchild)) hnumbered ?_
      (numbered_numbered _ _)
    intro child hchild
    obtain ⟨other, hother, childNo, rfl⟩ := mem_numbered hchild
    exact hmem.under_renumber (hold.below_right hbranch other hother) childNo
  have hcount := hold.objCount
  have hcount' := hnew.objCount
  obtain ⟨-, hleast, hle⟩ := hshape
  rw [hmem.load] at hleast hle
  refine ⟨(congrArg BtreeNode.childNo hsame :), ?_,
    hold.same hnew (hmem.load node) (hmem.load node') (hmem.map_inorder_numbered _ _) hweave⟩
  unfold Shape
  rw [hmem.load]
  exact ⟨hbranch', by omega, by omega⟩

theorem View.InMemory.change_child {child' : BtreeNode}
    (hwindow : Window node i left [child] right front [] back)
    (hchild : Shape view height (view.maxKeys / 3 - 1) child')
    (hchildNo : child'.childNo = child.childNo) :
    Shape view (height + 1) least { node with children := left ++ [child'] ++ right } ∧
      Window { node with children := left ++ [child'] ++ right } i left [child'] right front []
        back := by
  have hbranch := hmem.branch hshape
  have hnew : Window { node with children := left ++ [child'] ++ right } i left [child'] right front
      [] back := hwindow.replace rfl hwindow.items rfl rfl
  have hnumber := (numbered_cons.mp (hwindow.numbered_mid hbranch)).1
  obtain ⟨-, hcount⟩ := hshape
  rw [hmem.load] at hcount
  unfold Shape
  rw [hmem.load]
  refine ⟨⟨hwindow.branch_same hbranch hnew hbranch.loaded hbranch.inner (fun other hother => ?_)
    (numbered_cons.mpr ⟨hchildNo.trans hnumber, numbered_nil _⟩) rfl, hcount⟩, hnew⟩
  rw [List.mem_singleton.mp hother]
  exact hmem.under_iff.mpr hchild

theorem View.InMemory.rotate {first second : BtreeNode} {middle : Item}
    (hwindow : Window node i left [child, next] right front [sep] back)
    (hfirst : Shape view height (view.maxKeys / 3 - 1) first)
    (hsecond : Shape view height (view.maxKeys / 3 - 1) second)
    (hnumberFirst : first.childNo = child.childNo) (hnumberSecond : second.childNo = next.childNo)
    (hweave : inorder view height first ++ middle :: inorder view height second =
      inorder view height child ++ sep :: inorder view height next)
    (hnew : node' = { node with
      isDirty := true
      items := front ++ [middle] ++ back
      children := left ++ [first, second] ++ right }) :
    Rearranged view (height + 1) least node node' ∧
      Window node' i left [first, second] right front [middle] back := by
  have hbranch := hmem.branch hshape
  have hnumbered := hwindow.numbered_mid hbranch
  rw [numbered_cons, numbered_cons] at hnumbered
  have hright : BtreeNode.numbered (i + [first, second].length) right = right :=
    numbered_eq (hwindow.numbered_right hbranch)
  have hwindow' : Window node' i left [first, second] right front [middle] back := by
    subst hnew
    exact hwindow.replace rfl rfl rfl rfl
  have hnumberedRight := hwindow'
  rw [← hright] at hnumberedRight
  refine ⟨hmem.rearrange hshape hwindow hnumberedRight ?_ ?_ ?_ (Nat.le_refl _) (Nat.le_refl _) ?_,
    hwindow'⟩
  · subst hnew
    rfl
  · rintro other (_ | ⟨_, _ | ⟨_, hnone⟩⟩)
    · exact hfirst
    · exact hsecond
    · cases hnone
  · rw [numbered_cons, numbered_cons]
    exact ⟨hnumberFirst.trans hnumbered.1, hnumberSecond.trans hnumbered.2.1, numbered_nil _⟩
  · simpa only [List.map_cons, List.map_nil, weave_two] using hweave

end Exchange

def BtreeNode.rebuild (node : BtreeNode) (items : List Item) (children : List BtreeNode) :
    BtreeNode := { node with isDirty := true, items := items, children := children }

theorem View.InMemory.shape_rebuild (hmem : view.InMemory) {items : List Item}
    (hshape : Shape view height least node) (hall : Offspring view height (items.length + 1) children)
    (hnumbered : Numbered 0 children) {less : Nat} (hless : less ≤ items.length)
    (hle : items.length ≤ view.maxKeys) : Shape view height less (node.rebuild items children) := by
  obtain ⟨hloaded, hleaf, -⟩ := hmem.shape_iff.mp hshape
  exact hmem.shape_iff.mpr ⟨hloaded, hleaf, hall, hnumbered, hless, hle⟩

theorem Window.set_two {first second : BtreeNode}
    (hwindow : Window node i left [child, next] right front [sep] back) :
    (node.children.set i first).set (i + 1) second = left ++ [first, second] ++ right := by
  have hset : node.children.set i first = left ++ [first] ++ next :: right := by
    rw [hwindow.set_child, List.append_assoc, List.append_assoc]
    rfl
  rw [hset, List.append_assoc, List.set_append_right _ _ (by rw [hwindow.left]; omega),
    hwindow.left, Nat.add_sub_cancel_left, List.append_assoc]
  rfl

section Move

variable (hmem : view.InMemory) (hmax : store.sfh.maxKeys = view.maxKeys) (hsix : 6 ≤ view.maxKeys)
  (hshape : Shape view (height + 1) least node)
  (hwindow : Window node i left [child, next] right front [sep] back)
include hmem hmax hsix hshape hwindow

theorem takeLeft_rearranged (hmany : view.maxKeys / 3 ≤ child.objCount)
    (hfew : next.objCount = view.maxKeys / 3 - 1) :
    ∃ node' first middle second, takeLeft store node (i + 1) = some node' ∧
      Rearranged view (height + 1) least node node' ∧
      Window node' i left [first, second] right front [middle] back ∧
      sep ∈ second.items ∧ view.maxKeys / 3 ≤ second.objCount := by
  have hbranch := hmem.branch hshape
  have hchild := (hbranch.below child (hwindow.mem List.mem_cons_self)).2
  have hnext := (hbranch.below next (hwindow.mem (List.mem_cons_of_mem _ List.mem_cons_self))).2
  obtain ⟨-, hleaf, hall, hnumbered, -, hle⟩ := hmem.shape_iff.mp hchild
  have hallNext := hmem.offspring hnext
  obtain ⟨own, last, hown⟩ := (List.eq_nil_or_concat child.items).resolve_left
    (List.ne_nil_of_length_pos (show 0 < child.objCount by omega))
  rw [List.concat_eq_append] at hown
  have hcount : child.objCount = own.length + 1 := by
    unfold BtreeNode.objCount
    rw [hown, List.length_append, List.length_singleton]
  have hfewer : next.items.length = view.maxKeys / 3 - 1 := hfew
  have htake : next.items.take (store.sfh.maxKeys / 3 - 1) = next.items := by
    rw [hmax, ← hfewer, List.take_length]
  obtain ⟨hkept, hmoved⟩ := hall.split
  have hkeptOwn : Offspring view height (own.length + 1)
      (child.children.take child.objCount) := by rwa [← hcount]
  have hparts := List.take_append_drop child.objCount child.children
  have hmovedNew := hmem.offspring_numbered hmoved 0
  obtain ⟨first, hfirst⟩ : ∃ first, child.rebuild own (child.children.take child.objCount) = first :=
    ⟨_, rfl⟩
  obtain ⟨second, hsecond⟩ : ∃ second, next.rebuild (sep :: next.items)
      (BtreeNode.numbered 0 (child.children.drop child.objCount) ++
        BtreeNode.numbered 1 next.children) = second := ⟨_, rfl⟩
  have hshapeFirst : Shape view height (view.maxKeys / 3 - 1) first := by
    rw [← hfirst]
    rw [← hparts, numbered_append] at hnumbered
    exact hmem.shape_rebuild hchild hkeptOwn hnumbered.1 (by omega) (by omega)
  have hshapeSecond : Shape view height (view.maxKeys / 3 - 1) second := by
    have hallNew := hmovedNew.append (hmem.offspring_numbered hallNext 1)
    rw [Nat.add_comm] at hallNew
    rw [← hsecond]
    exact hmem.shape_rebuild hnext
      (show Offspring view height ((sep :: next.items).length + 1) _ from hallNew)
      (hmovedNew.numbered_append hallNext (numbered_numbered 0 _))
      (by rw [List.length_cons]; omega) (by rw [List.length_cons]; omega)
  have hweave : inorder view height first ++ last :: inorder view height second =
      inorder view height child ++ sep :: inorder view height next := by
    have hshift := @Offspring.shift _ _ _ _ _ _ own next.items last sep hkeptOwn hmoved
      hallNext (inorder view (height - 1))
    rw [hmem.inorder_eq (hmem.offspring hshapeFirst), hmem.inorder_eq (hmem.offspring hshapeSecond),
      hmem.inorder_eq hall, hmem.inorder_eq hallNext, ← hfirst, ← hsecond]
    simp only [BtreeNode.rebuild, List.map_append, hmem.map_inorder_numbered]
    rw [← List.map_append, ← hshift, hparts, hown]
  obtain ⟨hrearranged, hwindow'⟩ := hmem.rotate hshape hwindow hshapeFirst hshapeSecond
    (by rw [← hfirst]; rfl) (by rw [← hsecond]; rfl) hweave rfl
  refine ⟨_, first, last, second, ?_, hrearranged, hwindow', ?_, ?_⟩
  · unfold takeLeft
    simp only [Nat.add_sub_cancel, hwindow.child_eq, hwindow.next_eq, hwindow.sep_eq, hown,
      List.getLast?_concat, Option.bind_eq_bind, Option.bind_some, List.dropLast_concat, htake]
    refine (hmoved.moved_eq hleaf (fun _ => by rw [List.getElem?_drop, Nat.add_zero]) 0 fun moved =>
      some { node with
        isDirty := true
        items := node.items.set i last
        children := (node.children.set i (child.rebuild own
          (child.children.take child.objCount))).set (i + 1)
            (next.rebuild (sep :: next.items) (moved ++ BtreeNode.numbered 1 next.children)) }).trans ?_
    rw [hfirst, hsecond, hwindow.set_two, hwindow.set_item]
  · rw [← hsecond]
    exact List.mem_cons_self
  · rw [← hsecond]
    show _ ≤ next.items.length + 1
    omega

theorem takeRight_rearranged (hfew : child.objCount = view.maxKeys / 3 - 1)
    (hmany : view.maxKeys / 3 ≤ next.objCount) :
    ∃ node' first middle second, takeRight store node i = some node' ∧
      Rearranged view (height + 1) least node node' ∧
      Window node' i left [first, second] right front [middle] back ∧
      sep ∈ first.items ∧ view.maxKeys / 3 ≤ first.objCount := by
  have hbranch := hmem.branch hshape
  have hchild := (hbranch.below child (hwindow.mem List.mem_cons_self)).2
  have hnext := (hbranch.below next (hwindow.mem (List.mem_cons_of_mem _ List.mem_cons_self))).2
  obtain ⟨-, -, hall, hnumbered, -, -⟩ := hmem.shape_iff.mp hchild
  obtain ⟨-, hleaf, hallNext, -, -, hle⟩ := hmem.shape_iff.mp hnext
  obtain ⟨head, own, hown⟩ := List.exists_cons_of_length_pos (show 0 < next.items.length by
    unfold BtreeNode.objCount at hmany
    omega)
  have hcount : next.objCount = own.length + 1 := congrArg List.length hown
  have hfewer : child.items.length = view.maxKeys / 3 - 1 := hfew
  have hsize : child.objCount + 1 = store.sfh.maxKeys / 3 := by omega
  have htake : child.items.take (store.sfh.maxKeys / 3 - 1) = child.items := by
    rw [hmax, ← hfewer, List.take_length]
  rw [Nat.add_comm] at hallNext
  obtain ⟨hmoved, hkept⟩ := hallNext.split
  have hkeptOwn : Offspring view height (own.length + 1) (next.children.drop 1) := by rwa [← hcount]
  have hparts := List.take_append_drop 1 next.children
  obtain ⟨first, hfirst⟩ : ∃ first, child.rebuild (child.items ++ [sep])
      (child.children ++ BtreeNode.numbered (store.sfh.maxKeys / 3) (next.children.take 1)) =
        first := ⟨_, rfl⟩
  obtain ⟨second, hsecond⟩ : ∃ second, next.rebuild own
      (BtreeNode.numbered 0 (next.children.drop 1)) = second := ⟨_, rfl⟩
  have hshapeFirst : Shape view height (view.maxKeys / 3 - 1) first := by
    have hallNew := hall.append (hmem.offspring_numbered hmoved (store.sfh.maxKeys / 3))
    have hnumberedNew := hall.numbered_append hmoved hnumbered
    rw [hsize] at hnumberedNew
    rw [← hfirst]
    refine hmem.shape_rebuild hchild ?_ hnumberedNew ?_ ?_
    · rwa [List.length_append, List.length_singleton]
    all_goals
      rw [List.length_append, List.length_singleton]
      omega
  have hshapeSecond : Shape view height (view.maxKeys / 3 - 1) second := by
    rw [← hsecond]
    exact hmem.shape_rebuild hnext (hmem.offspring_numbered hkeptOwn 0) (numbered_numbered 0 _)
      (by omega) (by omega)
  have hweave : inorder view height first ++ head :: inorder view height second =
      inorder view height child ++ sep :: inorder view height next := by
    have hshift := @Offspring.shift _ _ _ _ _ _ child.items own sep head hall hmoved hkeptOwn
      (inorder view (height - 1))
    rw [hmem.inorder_eq (hmem.offspring hshapeFirst), hmem.inorder_eq (hmem.offspring hshapeSecond),
      hmem.inorder_eq hall, hmem.inorder_eq hallNext, ← hfirst, ← hsecond]
    simp only [BtreeNode.rebuild, List.map_append, hmem.map_inorder_numbered]
    rw [← List.map_append, hshift, hparts, hown]
  obtain ⟨hrearranged, hwindow'⟩ := hmem.rotate hshape hwindow hshapeFirst hshapeSecond
    (by rw [← hfirst]; rfl) (by rw [← hsecond]; rfl) hweave rfl
  refine ⟨_, first, head, second, ?_, hrearranged, hwindow', ?_, ?_⟩
  · unfold takeRight
    simp only [hwindow.child_eq, hwindow.next_eq, hwindow.sep_eq, hown, List.head?_cons,
      Option.bind_eq_bind, Option.bind_some, List.tail_cons, htake]
    have hhead : next.children.head? = (next.children.take 1)[0]? := by
      rw [List.getElem?_take_of_lt Nat.zero_lt_one, List.head?_eq_getElem?]
    refine (hmoved.moved_eq hleaf (fun _ => hhead) (store.sfh.maxKeys / 3) fun moved =>
      some { node with
        isDirty := true
        items := node.items.set i head
        children := (node.children.set (i + 1) (next.rebuild own
          (BtreeNode.numbered 0 next.children.tail))).set i
            (child.rebuild (child.items ++ [sep]) (child.children ++ moved)) }).trans ?_
    rw [hfirst, ← List.drop_one, hsecond, List.set_comm _ _ (Nat.succ_ne_self i), hwindow.set_two,
      hwindow.set_item]
  · rw [← hfirst]
    exact List.mem_append_right _ List.mem_cons_self
  · rw [← hfirst]
    show _ ≤ (child.items ++ [sep]).length
    rw [List.length_append, List.length_singleton]
    omega

theorem mergeAt_rearranged (hchildFew : child.objCount = view.maxKeys / 3 - 1)
    (hnextFew : next.objCount = view.maxKeys / 3 - 1) {less : Nat} (hless : less + 1 ≤ least) :
    ∃ store' node' merged, mergeAt store node i = some (store', node', i) ∧ store.Stays store' ∧
      Rearranged view (height + 1) less node node' ∧
      Window node' i left [merged] (BtreeNode.numbered (i + 1) right) front [] back ∧
      view.maxKeys / 3 ≤ merged.objCount := by
  have hbranch := hmem.branch hshape
  have hchild := (hbranch.below child (hwindow.mem List.mem_cons_self)).2
  have hnext := (hbranch.below next (hwindow.mem (List.mem_cons_of_mem _ List.mem_cons_self))).2
  obtain ⟨-, -, hall, hnumbered, -, -⟩ := hmem.shape_iff.mp hchild
  obtain ⟨-, hleaf, hallNext, -, -, -⟩ := hmem.shape_iff.mp hnext
  have hsize : child.objCount + 1 = store.sfh.maxKeys / 3 := by omega
  have hsizeNext : next.objCount + 1 = store.sfh.maxKeys / 3 := by omega
  have hitems : child.items.take (store.sfh.maxKeys / 3 - 1) = child.items :=
    List.take_of_length_le (show child.objCount ≤ _ by omega)
  have hitemsNext : next.items.take (store.sfh.maxKeys / 3 - 1) = next.items :=
    List.take_of_length_le (show next.objCount ≤ _ by omega)
  have hchildren : next.children.take (store.sfh.maxKeys / 3) = next.children :=
    List.take_of_length_le (hallNext.length_le.trans (Nat.le_of_eq hsizeNext))
  have hload : next.isLeaf = true ∨ next.isLeaf = false ∧
      loadFrom (store.sfh.maxKeys / 3) 0 store next = some (store, next) := by
    cases height with
    | zero => exact .inl hleaf
    | succ height => exact .inr ⟨hleaf, hmem.loadFrom store hnext (by omega)⟩
  have hlater := hmem.loadFrom store hshape
    (show i + 2 + (node.objCount - (i + 1)) ≤ node.objCount + 1 by
      have hlt := hwindow.lt_objCount
      omega)
  obtain ⟨merged, hmerged⟩ : ∃ merged, child.rebuild (child.items ++ sep :: next.items)
      (child.children ++ BtreeNode.numbered (store.sfh.maxKeys / 3) next.children) = merged :=
    ⟨_, rfl⟩
  have hcount : (child.items ++ sep :: next.items).length = 2 * (store.sfh.maxKeys / 3) - 1 := by
    have hfewer : child.items.length = view.maxKeys / 3 - 1 := hchildFew
    have hfewerNext : next.items.length = view.maxKeys / 3 - 1 := hnextFew
    rw [List.length_append, List.length_cons]
    omega
  have hshapeMerged : Shape view height (view.maxKeys / 3 - 1) merged := by
    have hallNew := hall.append (hmem.offspring_numbered hallNext (store.sfh.maxKeys / 3))
    have hnumberedNew := hall.numbered_append hallNext hnumbered
    rw [hsize] at hnumberedNew
    rw [← hmerged]
    refine hmem.shape_rebuild hchild ?_ hnumberedNew (by omega) (by omega)
    rwa [show child.objCount + 1 + (next.objCount + 1) =
      (child.items ++ sep :: next.items).length + 1 by omega] at hallNew
  have hweave : inorder view height merged =
      inorder view height child ++ sep :: inorder view height next := by
    rw [hmem.inorder_eq (hmem.offspring hshapeMerged), hmem.inorder_eq hall,
      hmem.inorder_eq hallNext, ← hmerged]
    simp only [BtreeNode.rebuild, List.map_append, hmem.map_inorder_numbered]
    rw [← List.map_append, hall.weave hallNext]
  have hshort : node.children = left ++ ([child, next] ++ right) := by
    rw [hwindow.children, List.append_assoc]
  have hitemsNode : node.items.eraseIdx i = front ++ [] ++ back := by
    rw [hwindow.items, List.append_nil, List.append_assoc,
      List.eraseIdx_append_of_length_le (Nat.le_of_eq hwindow.front), hwindow.front, Nat.sub_self]
    rfl
  have hchildrenNode : node.children.take i ++ merged ::
      BtreeNode.numbered (i + 1) (node.children.drop (i + 2)) =
        left ++ [merged] ++ BtreeNode.numbered (i + 1) right := by
    rw [hshort, List.take_left' hwindow.left, ← List.drop_drop, List.drop_left' hwindow.left,
      List.append_assoc]
    rfl
  obtain ⟨node', hnode'⟩ : ∃ node' : BtreeNode, { node with
      isDirty := node.isDirty || decide (1 < node.objCount)
      items := node.items.eraseIdx i
      children := node.children.take i ++ merged ::
        BtreeNode.numbered (i + 1) (node.children.drop (i + 2)) } = node' := ⟨_, rfl⟩
  have hwindow' : Window node' i left [merged] (BtreeNode.numbered (i + 1) right) front [] back := by
    rw [← hnode']
    exact hwindow.replace hchildrenNode hitemsNode rfl (length_numbered _ _)
  refine ⟨store.release, node', merged, ?_, ⟨rfl, rfl⟩, ?_, hwindow', ?_⟩
  · have hmerge : merge store node i = some (store.release, node') := by
      unfold merge
      simp only [hwindow.child_eq, hwindow.next_eq, hwindow.sep_eq, Option.bind_eq_bind,
        Option.bind_some, hmem.loadChild store hshape (Nat.le_of_lt hwindow.lt_objCount),
        hmem.loadChild store hshape hwindow.lt_objCount, hlater, hitems, hitemsNext, hchildren]
      unfold BtreeNode.rebuild at hmerged
      rcases hload with hload | ⟨hload, hall⟩
      · rw [if_pos hload, hmerged, hnode']
      · rw [if_neg (by rw [hload]; exact Bool.false_ne_true)]
        simp only [hall, hlater, hitemsNext, hchildren, Option.bind_some, hmerged, hnode']
    unfold mergeAt
    simp only [hwindow.child_eq, hwindow.next_eq, Option.bind_eq_bind, Option.bind_some, hmax,
      hchildFew, hnextFew, decide_true, Bool.and_self, if_true, hmerge]
  · refine hmem.rearrange hshape hwindow hwindow' ?_ ?_ ?_ (Nat.zero_le _) hless ?_
    · rw [← hnode']
    · rintro other (_ | ⟨_, hnone⟩)
      · exact hshapeMerged
      · cases hnone
    · have hnumberedMid := hwindow.numbered_mid hbranch
      rw [numbered_cons] at hnumberedMid ⊢
      exact ⟨by rw [← hmerged]; exact hnumberedMid.1, numbered_nil _⟩
    · simpa only [List.map_cons, List.map_nil, weave_one, weave_two] using hweave
  · rw [← hmerged]
    show _ ≤ (child.items ++ sep :: next.items).length
    omega

end Move

end Libsax.Btree
