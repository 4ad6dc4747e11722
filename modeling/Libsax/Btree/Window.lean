import Libsax.Btree.Shape

/-! A few children of a node with the records between them, and what becomes of the node
when these few are replaced. -/
namespace Libsax.Btree

open Libsax.Lib
open Libsax.Db (Key Value)

/-- Some children and the records between them, with those on both sides. -/
structure Window (node : BtreeNode) (i : Nat) (left mid right : List BtreeNode)
    (front between back : List Item) : Prop where
  children : node.children = left ++ mid ++ right
  items : node.items = front ++ between ++ back
  left : left.length = i
  front : front.length = i
  mid : mid.length = between.length + 1
  right : right.length = back.length

variable {below : BtreeNode → Prop} {node other : BtreeNode} {i : Nat}
  {left mid right newMid newRight : List BtreeNode} {front between back newBetween : List Item}
  {child next : BtreeNode} {sep : Item}

theorem split_list {α : Type} {list : List α} {i : Nat} (hi : i < list.length) :
    ∃ left x right, list = left ++ x :: right ∧ left.length = i := by
  refine ⟨list.take i, list[i], list.drop (i + 1), ?_, List.length_take_of_le (Nat.le_of_lt hi)⟩
  rw [List.getElem_cons_drop, List.take_append_drop]

theorem Branch.window_one (hbranch : Branch below node) (hi : i ≤ node.objCount) :
    ∃ left child right front back, Window node i left [child] right front [] back := by
  have hfanout := hbranch.fanout
  obtain ⟨left, child, right, hchildren, hleft⟩ :=
    split_list (show i < node.children.length by omega)
  have hitems : node.items = node.items.take i ++ node.items.drop i :=
    (List.take_append_drop i node.items).symm
  have hfront : (node.items.take i).length = i := List.length_take_of_le hi
  refine ⟨left, child, right, node.items.take i, node.items.drop i, ?_, ?_, hleft, hfront, rfl, ?_⟩
  · rw [hchildren, List.append_assoc, List.singleton_append]
  · rw [List.append_nil, ← hitems]
  · rw [hchildren, List.length_append, List.length_cons] at hfanout
    rw [List.length_drop]
    unfold BtreeNode.objCount at hfanout
    omega

theorem Branch.window_two (hbranch : Branch below node) (hi : i < node.objCount) :
    ∃ left child next right front sep back,
      Window node i left [child, next] right front [sep] back := by
  obtain ⟨left, child, right, front, back, hwindow⟩ := hbranch.window_one (Nat.le_of_lt hi)
  have hlength := congrArg List.length hwindow.items
  rw [List.append_nil, List.length_append, hwindow.front] at hlength
  have hcount : i < node.items.length := hi
  obtain ⟨sep, back, rfl⟩ := List.exists_cons_of_length_pos (show 0 < back.length by omega)
  obtain ⟨next, right, rfl⟩ := List.exists_cons_of_length_eq_add_one hwindow.right
  refine ⟨left, child, next, right, front, sep, back, ?_, ?_, hwindow.left, hwindow.front, rfl,
    Nat.succ.inj hwindow.right⟩
  · rw [hwindow.children, List.append_assoc, List.append_assoc]
    rfl
  · rw [hwindow.items, List.append_assoc, List.append_assoc]
    rfl

namespace Window

theorem child_eq (hwindow : Window node i left (child :: mid) right front between back) :
    node.children[i]? = some child := by
  rw [hwindow.children, List.append_assoc, List.getElem?_append_right (Nat.le_of_eq hwindow.left),
    hwindow.left, Nat.sub_self]
  rfl

theorem next_eq (hwindow : Window node i left (child :: next :: mid) right front between back) :
    node.children[i + 1]? = some next := by
  rw [hwindow.children, List.append_assoc,
    List.getElem?_append_right (by rw [hwindow.left]; omega), hwindow.left,
    Nat.add_sub_cancel_left]
  rfl

theorem sep_eq (hwindow : Window node i left mid right front (sep :: between) back) :
    node.items[i]? = some sep := by
  rw [hwindow.items, List.append_assoc, List.getElem?_append_right (Nat.le_of_eq hwindow.front),
    hwindow.front, Nat.sub_self]
  rfl

theorem mem (hwindow : Window node i left mid right front between back) (hchild : child ∈ mid) :
    child ∈ node.children := by
  rw [hwindow.children]
  exact List.mem_append_left _ (List.mem_append_right _ hchild)

theorem objCount (hwindow : Window node i left mid right front between back) :
    node.objCount = i + between.length + back.length := by
  unfold BtreeNode.objCount
  rw [hwindow.items, List.length_append, List.length_append, hwindow.front]

theorem lt_objCount (hwindow : Window node i left mid right front (sep :: between) back) :
    i < node.objCount := by
  rw [hwindow.objCount, List.length_cons]
  omega

theorem replace (hwindow : Window node i left mid right front between back)
    (hchildren : other.children = left ++ newMid ++ newRight)
    (hitems : other.items = front ++ newBetween ++ back)
    (hmid : newMid.length = newBetween.length + 1) (hright : newRight.length = right.length) :
    Window other i left newMid newRight front newBetween back :=
  ⟨hchildren, hitems, hwindow.left, hwindow.front, hmid, hright.trans hwindow.right⟩

theorem branch (hold : Window node i left mid right front between back)
    (hbranch : Branch below node)
    (hnew : Window other i left newMid newRight front newBetween back)
    (hloaded : other.isLoaded = true) (hinner : other.isLeaf = false)
    (hbelow : ∀ child ∈ newMid, below child) (hnumbered : Numbered i newMid)
    (hbelowRight : ∀ child ∈ newRight, below child)
    (hnumberedRight : Numbered (i + newMid.length) newRight) : Branch below other where
  loaded := hloaded
  inner := hinner
  fanout := by
    rw [hnew.objCount, hnew.children, List.length_append, List.length_append, hnew.left, hnew.mid,
      hnew.right]
    omega
  numbered := by
    have hall := hbranch.numbered
    rw [hold.children, List.append_assoc, numbered_append] at hall
    rw [hnew.children, numbered_append, numbered_append, Nat.zero_add, Nat.zero_add,
      List.length_append, hnew.left]
    exact ⟨⟨hall.1, hnumbered⟩, hnumberedRight⟩
  below := by
    have hall := hbranch.below
    rw [hold.children] at hall
    rw [hnew.children]
    intro child hchild
    rcases List.mem_append.mp hchild with hfirst | hlast
    · rcases List.mem_append.mp hfirst with hin | hin
      · exact hall child (List.mem_append_left _ (List.mem_append_left _ hin))
      · exact hbelow child hin
    · exact hbelowRight child hlast

theorem numbered_mid (hwindow : Window node i left mid right front between back)
    (hbranch : Branch below node) : Numbered i mid := by
  have hall := hbranch.numbered
  rw [hwindow.children, numbered_append, numbered_append, Nat.zero_add, hwindow.left] at hall
  exact hall.1.2

theorem numbered_right (hwindow : Window node i left mid right front between back)
    (hbranch : Branch below node) : Numbered (i + mid.length) right := by
  have hall := hbranch.numbered
  rw [hwindow.children, numbered_append, Nat.zero_add, List.length_append, hwindow.left] at hall
  exact hall.2

theorem below_right (hwindow : Window node i left mid right front between back)
    (hbranch : Branch below node) : ∀ child ∈ right, below child := by
  have hall := hbranch.below
  rw [hwindow.children] at hall
  exact fun child hchild => hall child (List.mem_append_right _ hchild)

theorem branch_same (hold : Window node i left mid right front between back)
    (hbranch : Branch below node)
    (hnew : Window other i left newMid right front newBetween back)
    (hloaded : other.isLoaded = true) (hinner : other.isLeaf = false)
    (hbelow : ∀ child ∈ newMid, below child) (hnumbered : Numbered i newMid)
    (hcount : newMid.length = mid.length) : Branch below other :=
  hold.branch hbranch hnew hloaded hinner hbelow hnumbered (hold.below_right hbranch)
    (by rw [hcount]; exact hold.numbered_right hbranch)

theorem second (hwindow : Window node i left [child, next] right front [sep] back) :
    Window node (i + 1) (left ++ [child]) [next] right (front ++ [sep]) [] back := by
  refine ⟨?_, ?_, ?_, ?_, rfl, hwindow.right⟩
  · rw [hwindow.children]
    simp only [List.append_assoc, List.cons_append, List.nil_append]
  · rw [hwindow.items, List.append_nil]
  · rw [List.length_append, hwindow.left]
    rfl
  · rw [List.length_append, hwindow.front]
    rfl

theorem first (hwindow : Window node i left [child, next] right front [sep] back) :
    Window node i left [child] (next :: right) front [] (sep :: back) := by
  refine ⟨?_, ?_, hwindow.left, hwindow.front, rfl, congrArg Nat.succ hwindow.right⟩
  · rw [hwindow.children]
    simp only [List.append_assoc, List.cons_append, List.nil_append]
  · rw [hwindow.items]
    simp only [List.append_assoc, List.cons_append, List.nil_append, List.append_nil]

theorem of_second (hleft : left.length = i) (hfront : front.length = i)
    (hwindow : Window node (i + 1) (left ++ [child]) [next] right (front ++ [sep]) [] back) :
    Window node i left [child, next] right front [sep] back := by
  refine ⟨?_, ?_, hleft, hfront, rfl, hwindow.right⟩
  · rw [hwindow.children]
    simp only [List.append_assoc, List.cons_append, List.nil_append]
  · rw [hwindow.items, List.append_nil]

theorem of_first (hwindow : Window node i left [child] (next :: right) front [] (sep :: back)) :
    Window node i left [child, next] right front [sep] back := by
  refine ⟨?_, ?_, hwindow.left, hwindow.front, rfl, Nat.succ.inj hwindow.right⟩
  · rw [hwindow.children]
    simp only [List.append_assoc, List.cons_append, List.nil_append]
  · rw [hwindow.items]
    simp only [List.append_assoc, List.cons_append, List.nil_append, List.append_nil]

theorem set_item (hwindow : Window node i left mid right front [sep] back) (item : Item) :
    node.items.set i item = front ++ [item] ++ back := by
  rw [hwindow.items, List.append_assoc, List.set_append_right _ _ (Nat.le_of_eq hwindow.front),
    hwindow.front, Nat.sub_self, List.append_assoc]
  rfl

theorem set_child (hwindow : Window node i left (child :: mid) right front between back)
    (other : BtreeNode) : node.children.set i other = left ++ (other :: mid) ++ right := by
  rw [hwindow.children, List.append_assoc, List.set_append_right _ _ (Nat.le_of_eq hwindow.left),
    hwindow.left, Nat.sub_self, List.append_assoc]
  rfl

theorem set_next (hwindow : Window node i left (child :: next :: mid) right front between back)
    (other : BtreeNode) :
    node.children.set (i + 1) other = left ++ (child :: other :: mid) ++ right := by
  rw [hwindow.children, List.append_assoc,
    List.set_append_right _ _ (by rw [hwindow.left]; exact Nat.le_succ i), hwindow.left,
    Nat.add_sub_cancel_left, List.append_assoc]
  rfl

variable {view : View} {height : Nat}

theorem inorder (hwindow : Window node i left mid right front between back)
    (hload : view.load node = node) :
    inorder view (height + 1) node =
      weave (left.map (Btree.inorder view height)) front ++
        weave (mid.map (Btree.inorder view height)) between ++
          trail (right.map (Btree.inorder view height)) back := by
  rw [Btree.inorder, hload, hwindow.children, hwindow.items, List.map_append, List.map_append]
  refine weave_window ?_ ?_
  · rw [List.length_map, hwindow.left, hwindow.front]
  · rw [List.length_map, hwindow.mid]

theorem extents (hwindow : Window node i left mid right front between back)
    (hload : view.load node = node) :
    extents view (height + 1) node = node.own ++ (left.flatMap (Btree.extents view height) ++
      mid.flatMap (Btree.extents view height) ++ right.flatMap (Btree.extents view height)) := by
  rw [Btree.extents, hload, hwindow.children, List.flatMap_append, List.flatMap_append]

end Window

end Libsax.Btree
