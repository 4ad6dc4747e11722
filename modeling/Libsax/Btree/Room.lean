import Libsax.Btree.Exchange

/-! The four ways to make room for a record. -/
namespace Libsax.Btree

open Libsax.Lib
open Libsax.Db (Key Value)

variable {view : View} {store store' : Store} {node node' child next parent : BtreeNode}
  {height least i : Nat} {left mid right newMid newRight : List BtreeNode}
  {front between back newBetween : List Item} {sep saved : Item}

def lowerHalf (child : BtreeNode) : BtreeNode :=
  { child with
    isDirty := true
    items := child.items.take (child.objCount / 2)
    children := child.children.take (child.objCount / 2 + 1) }

def upperHalf (store : Store) (childNum : Nat) (child : BtreeNode) : BtreeNode :=
  { (allocateNode store).2 with
    childNo := childNum + 1
    isLeaf := child.isLeaf
    items := child.items.drop (child.objCount / 2 + 1)
    children := BtreeNode.numbered 0 (child.children.drop (child.objCount / 2 + 1)) }

theorem take_left {α : Type} {list left right : List α} (hlist : list = left ++ right)
    {i : Nat} (hleft : left.length = i) : list.take i = left := by
  rw [hlist, List.take_left' hleft]

theorem drop_left {α : Type} {list left right : List α} (hlist : list = left ++ right)
    {i : Nat} (hleft : left.length = i) : list.drop i = right := by
  rw [hlist, List.drop_left' hleft]

theorem split_eq (store : Store) (hwindow : Window parent i left [child] right front [] back)
    (hsaved : child.items[child.objCount / 2]? = some saved) :
    split store parent i = some ((allocateNode store).1,
      { parent with
        isDirty := true
        items := front ++ [saved] ++ back
        children := left ++ [lowerHalf child, upperHalf store i child] ++
          BtreeNode.numbered (i + 2) right }) := by
  have hchildren := hwindow.children
  have hitems := hwindow.items
  rw [List.append_nil] at hitems
  unfold split
  rw [hwindow.child_eq]
  simp only [Option.bind_eq_bind, Option.bind_some, hsaved]
  rw [take_left hitems hwindow.front, drop_left hitems hwindow.front,
    take_left (hchildren.trans (List.append_assoc _ _ _)) hwindow.left,
    drop_left hchildren (by rw [List.length_append, hwindow.left]; rfl), List.append_assoc,
    List.append_assoc left]
  rfl

@[simp] theorem lowerHalf_objCount (child : BtreeNode) :
    (lowerHalf child).objCount = child.objCount / 2 :=
  List.length_take_of_le (Nat.div_le_self _ _)

@[simp] theorem upperHalf_objCount (store : Store) (i : Nat) (child : BtreeNode) :
    (upperHalf store i child).objCount = child.objCount - (child.objCount / 2 + 1) :=
  List.length_drop

@[simp] private theorem upperHalf_own (store : Store) (i : Nat) (child : BtreeNode) :
    (upperHalf store i child).own = [(toLong store.sfh.fileEnd, 1)] := rfl

section Split

variable (hfits : view.Fits store) (hloaded : child.isLoaded = true)
  (hshape : Shape view height least child)
include hfits hloaded hshape

private theorem lowerHalf_under (hmax : 6 ≤ view.maxKeys) (hfull : child.objCount = view.maxKeys) :
    Under view height (lowerHalf child) := by
  have hload : view.load (lowerHalf child) = lowerHalf child := hfits.loaded _ hloaded
  have hcount := lowerHalf_objCount child
  refine ⟨by rw [hload]; exact hfits.dirty _ rfl, ?_⟩
  unfold Shape
  cases height with
  | zero =>
    have hbottom := hfits.bottom hloaded hshape
    simp only [hload, hcount]
    refine ⟨⟨hloaded, hbottom.leaf, ?_⟩, by omega, by omega⟩
    show child.children.take _ = []
    rw [hbottom.childless, List.take_nil]
  | succ height =>
    have hbranch := hfits.branch hloaded hshape
    have hfanout := hbranch.fanout
    simp only [hload]
    refine ⟨⟨hloaded, hbranch.inner, ?_, ?_, ?_⟩, by omega, by omega⟩
    · rw [hcount]
      exact List.length_take_of_le (by omega)
    · have hall := hbranch.numbered
      rw [← List.take_append_drop (child.objCount / 2 + 1) child.children, numbered_append] at hall
      exact hall.1
    · exact fun other hother => hbranch.below other (List.mem_of_mem_take hother)

private theorem upperHalf_under (hmax : 6 ≤ view.maxKeys) (hfull : child.objCount = view.maxKeys) :
    Under view height (upperHalf store i child) := by
  have hload : view.load (upperHalf store i child) = upperHalf store i child :=
    hfits.loaded _ rfl
  have hcount := upperHalf_objCount store i child
  refine ⟨by rw [hload]; exact hfits.dirty _ rfl, ?_⟩
  unfold Shape
  cases height with
  | zero =>
    have hbottom := hfits.bottom hloaded hshape
    simp only [hload, hcount]
    refine ⟨⟨rfl, hbottom.leaf, ?_⟩, by omega, by omega⟩
    show BtreeNode.numbered 0 (child.children.drop _) = []
    rw [hbottom.childless, List.drop_nil]
    rfl
  | succ height =>
    have hbranch := hfits.branch hloaded hshape
    have hfanout := hbranch.fanout
    simp only [hload]
    refine ⟨⟨rfl, hbranch.inner, ?_, numbered_numbered _ _, ?_⟩, by omega, by omega⟩
    · rw [hcount]
      show (BtreeNode.numbered 0 (child.children.drop _)).length = _
      rw [length_numbered, List.length_drop]
      omega
    · intro other hother
      obtain ⟨before, hbefore, childNo, rfl⟩ := mem_numbered hother
      exact hfits.under_renumber (hbranch.below before (List.mem_of_mem_drop hbefore)) childNo

theorem split_inorder (hsaved : child.items[child.objCount / 2]? = some saved) :
    inorder view height (lowerHalf child) ++ saved :: inorder view height (upperHalf store i child) =
      inorder view height child := by
  have hlower : view.load (lowerHalf child) = lowerHalf child := hfits.loaded _ hloaded
  have hupper : view.load (upperHalf store i child) = upperHalf store i child := hfits.loaded _ rfl
  obtain ⟨hlt, hget⟩ := List.getElem?_eq_some_iff.mp hsaved
  have hitems : child.items = child.items.take (child.objCount / 2) ++
      saved :: child.items.drop (child.objCount / 2 + 1) := by
    rw [← hget, List.getElem_cons_drop, List.take_append_drop]
  cases height with
  | zero =>
    rw [inorder, inorder, inorder, hlower, hupper, hfits.loaded child hloaded]
    exact hitems.symm
  | succ height =>
    have hfanout := (hfits.branch hloaded hshape).fanout
    rw [inorder, inorder, inorder, hlower, hupper, hfits.loaded child hloaded, hitems]
    rw [← List.take_append_drop (child.objCount / 2 + 1) child.children, List.map_append,
      weave_middle]
    · show weave ((child.children.take _).map _) (child.items.take _) ++ saved ::
        weave ((BtreeNode.numbered 0 (child.children.drop _)).map _) (child.items.drop _) = _
      rw [map_inorder_numbered hfits]
    · rw [List.length_map, List.length_take_of_le (by omega),
        List.length_take_of_le (Nat.le_of_lt hlt)]

private theorem split_extents :
    (extents view height (lowerHalf child) ++ extents view height (upperHalf store i child)).Perm
      ((toLong store.sfh.fileEnd, 1) :: extents view height child) := by
  have hlower : view.load (lowerHalf child) = lowerHalf child := hfits.loaded _ hloaded
  have hupper : view.load (upperHalf store i child) = upperHalf store i child := hfits.loaded _ rfl
  cases height with
  | zero =>
    rw [extents, extents, extents, hlower, hupper, hfits.loaded child hloaded, upperHalf_own]
    exact List.perm_append_comm
  | succ height =>
    rw [extents, extents, extents, hlower, hupper, hfits.loaded child hloaded, upperHalf_own]
    have hnumbered := @flatMap_extents_numbered _ _ height hfits 0
      (child.children.drop (child.objCount / 2 + 1))
    have hsplit : child.children.flatMap (extents view height) =
        (child.children.take (child.objCount / 2 + 1)).flatMap (extents view height) ++
          (child.children.drop (child.objCount / 2 + 1)).flatMap (extents view height) := by
      rw [← List.flatMap_append, List.take_append_drop]
    show ((child.own ++ (child.children.take _).flatMap _) ++
      ([_] ++ (BtreeNode.numbered 0 (child.children.drop _)).flatMap _)).Perm _
    rw [hnumbered, hsplit]
    refine List.perm_iff_count.mpr fun place => ?_
    simp only [List.count_append, List.count_cons, List.count_nil]
    omega

theorem split_exchange (hmax : 6 ≤ view.maxKeys) (hfull : child.objCount = view.maxKeys)
    (hnumber : child.childNo = i) (saved : Item) :
    Exchange view height i store [child] (allocateNode store).1
      [lowerHalf child, upperHalf store i child] [saved] where
  leads := Store.Leads.allocate store
  count := rfl
  under := by
    intro other hother
    rcases List.mem_pair.mp hother with rfl | rfl
    · exact lowerHalf_under hfits hloaded hshape hmax hfull
    · exact upperHalf_under hfits hloaded hshape hmax hfull
  numbered := numbered_cons.mpr ⟨hnumber, numbered_cons.mpr ⟨rfl, numbered_nil _⟩⟩
  settled := by
    intro hend others hsettled
    simp only [List.flatMap_cons, List.flatMap_nil, List.append_nil] at hsettled ⊢
    have hfresh := hsettled.allocate hend
    exact hfresh.perm ((split_extents hfits hloaded hshape).symm.append_right others)

end Split

def BtreeNode.refill (node : BtreeNode) (items : List Item) : BtreeNode :=
  { node with isDirty := true, items := items }

theorem Bottom.refill (hbottom : Bottom node) (items : List Item) : Bottom (node.refill items) :=
  ⟨hbottom.loaded, hbottom.leaf, hbottom.childless⟩

theorem View.Fits.under_refill (hfits : view.Fits store) (hbottom : Bottom node)
    {items : List Item} (hleast : view.maxKeys / 3 - 1 ≤ items.length)
    (hle : items.length ≤ view.maxKeys) : Under view 0 (node.refill items) :=
  hfits.under_leaf (hbottom.refill items) rfl hleast hle

theorem leaves_exchange (hfits : view.Fits store) {first second : BtreeNode}
    (hchild : child.isLoaded = true) (hnext : next.isLoaded = true)
    (hfirst : Under view 0 first) (hsecond : Under view 0 second)
    (hfirstLoaded : first.isLoaded = true) (hsecondLoaded : second.isLoaded = true)
    (hownFirst : first.own = child.own) (hownSecond : second.own = next.own)
    (hnumbered : Numbered i [first, second]) (item : Item) :
    Exchange view 0 i store [child, next] store [first, second] [item] where
  leads := Store.Leads.refl store
  count := rfl
  under := by
    intro other hother
    rcases List.mem_pair.mp hother with rfl | rfl
    · exact hfirst
    · exact hsecond
  numbered := hnumbered
  settled := by
    intro _ others hsettled
    simp only [List.flatMap_cons, List.flatMap_nil, hfits.extents_leaf hfirstLoaded,
      hfits.extents_leaf hsecondLoaded, hownFirst, hownSecond]
    simpa only [List.flatMap_cons, List.flatMap_nil, hfits.extents_leaf hchild,
      hfits.extents_leaf hnext] using hsettled

theorem shiftRight_eq (cmp : Key → Key → Ordering) (store : Store)
    (hwindow : Window node i left [child, next] right front [sep] back) {init : List Item}
    {last : Item} (hitems : child.items = init ++ [last]) (item : Item) :
    shiftRight cmp store node i item child next =
      match cmp last.1 item.1 with
      | .eq => some (store, node, .done false)
      | .lt => some (store.countItem,
          { node with
            isDirty := true
            items := front ++ [item] ++ back
            children := left ++ [child, next.refill (sep :: next.items)] ++ right },
          .done true)
      | .gt => some (store,
          { node with
            isDirty := true
            items := front ++ [last] ++ back
            children := left ++ [child.refill init, next.refill (sep :: next.items)] ++ right },
          .down i) := by
  have hlast : child.items.getLast? = some last := by rw [hitems, List.getLast?_concat]
  have hinit : child.items.dropLast = init := by rw [hitems, List.dropLast_concat]
  have hset := hwindow.set_next (next.refill (sep :: next.items))
  unfold shiftRight
  rw [hlast, hinit, hwindow.sep_eq]
  simp only [Option.bind_eq_bind, Option.bind_some, hwindow.set_item]
  cases hcmp : cmp last.1 item.1 with
  | eq => rfl
  | lt =>
    rw [← hset]
    rfl
  | gt =>
    have hboth : (node.children.set (i + 1) (next.refill (sep :: next.items))).set i
        (child.refill init) =
          left ++ [child.refill init, next.refill (sep :: next.items)] ++ right := by
      rw [hset, List.append_assoc, List.set_append_right _ _ (Nat.le_of_eq hwindow.left),
        hwindow.left, Nat.sub_self, List.append_assoc]
      rfl
    rw [← hboth]
    rfl

private theorem slide_false (cmp : Key → Key → Ordering) (item : Item) (items : List Item) :
    slide cmp item false items = (false, items) := by
  induction items with
  | nil => rfl
  | cons next items ih =>
    unfold slide
    simp only [Bool.false_and, ih]
    rfl

theorem slide_cases {cmp : Key → Key → Ordering} [Std.TransCmp cmp] [Std.LawfulEqCmp cmp]
    {item : Item} {items : List Item} (hitems : Ascending cmp items) :
    (∃ new, slide cmp item true items = (true, new) ∧ Inserted cmp item items new) ∨
      slide cmp item true items = (false, items) ∧ ∃ other ∈ items, other.1 = item.1 := by
  induction items with
  | nil => exact Or.inl ⟨[item], rfl, inserted_between below_nil above_nil⟩
  | cons next items ih =>
    obtain ⟨-, -, habove, hrest, -⟩ :=
      (@Ascending.middle_iff _ _ _ [] items next).mp hitems
    unfold slide
    cases hcmp : cmp next.1 item.1 with
    | eq =>
      refine Or.inr ⟨?_, next, List.mem_cons_self, Std.LawfulEqCmp.eq_of_compare hcmp⟩
      simp [slide_false]
    | gt =>
      have hless : cmp item.1 next.1 = .lt := Std.OrientedCmp.lt_of_gt hcmp
      refine Or.inl ⟨item :: next :: items, by simp, ?_⟩
      exact @inserted_between _ _ _ item [] (next :: items) below_nil
        (Above.cons_iff.mpr ⟨hless, habove.trans hless⟩)
    | lt =>
      rcases ih hrest with ⟨new, hnew, hinserted⟩ | ⟨hnew, other, hother, hkey⟩
      · refine Or.inl ⟨next :: new, by simp [hnew], ?_⟩
        have hwithin := @Inserted.within _ _ _ _ _ _ [next] [] hinserted
          (Below.cons_iff.mpr ⟨hcmp, below_nil⟩) above_nil
        rwa [List.append_nil, List.append_nil] at hwithin
      · exact Or.inr ⟨by simp [hnew], other, List.mem_cons_of_mem _ hother, hkey⟩

theorem shiftLeft_eq (cmp : Key → Key → Ordering) (store : Store)
    (hwindow : Window node i left [next, child] right front [sep] back) {first : Item}
    {tail : List Item} (hitems : child.items = first :: tail) (item : Item) :
    shiftLeft cmp store node (i + 1) item child next =
      match cmp first.1 item.1 with
      | .eq => some (store, node, .done false)
      | .gt => some (store.countItem,
          { node with
            isDirty := true
            items := front ++ [item] ++ back
            children := left ++ [next.refill (next.items ++ [sep]), child] ++ right },
          .done true)
      | .lt => some (if (slide cmp item true tail).1 then store.countItem else store,
          { node with
            isDirty := true
            items := front ++ [first] ++ back
            children := left ++ [next.refill (next.items ++ [sep]),
              child.refill (slide cmp item true tail).2] ++ right },
          .done (slide cmp item true tail).1) := by
  have hhead : child.items.head? = some first := by
    rw [hitems]
    rfl
  have hset := hwindow.set_child (next.refill (next.items ++ [sep]))
  unfold shiftLeft
  rw [hhead, Nat.add_sub_cancel, hwindow.sep_eq]
  simp only [Option.bind_eq_bind, Option.bind_some, hwindow.set_item, hitems, List.tail_cons]
  cases hcmp : cmp first.1 item.1 with
  | eq => rfl
  | gt =>
    rw [← hset]
    rfl
  | lt =>
    have hboth : (node.children.set i (next.refill (next.items ++ [sep]))).set (i + 1)
        (child.refill (slide cmp item true tail).2) =
          left ++ [next.refill (next.items ++ [sep]),
            child.refill (slide cmp item true tail).2] ++ right := by
      rw [hset, List.append_assoc,
        List.set_append_right _ _ (by rw [hwindow.left]; exact Nat.le_succ i), hwindow.left,
        Nat.add_sub_cancel_left, List.append_assoc]
      rfl
    rw [← hboth]
    rfl

def middleThird (store : Store) (i : Nat) (child2 : BtreeNode) (items : List Item) : BtreeNode :=
  { (allocateNode store).2 with
    fpos := child2.fpos
    isLeaf := true
    childNo := i + 1
    items := items }

def lastThird (store : Store) (i : Nat) (child2 : BtreeNode) (items : List Item) : BtreeNode :=
  { child2 with
    isDirty := true
    fpos := (allocateNode store).2.fpos
    childNo := i + 2
    items := items }

section Thirds

variable {below : BtreeNode → Prop} {item1 item2 : Item} {low1 high1 low2 high2 : List Item}

theorem split3Leaf_eq (hbranch : Branch below node)
    (hwindow : Window node i left [child, next] right front [sep] back)
    (hchild : child.isLoaded = true) (hnext : next.isLoaded = true)
    (hitems1 : child.items = low1 ++ item1 :: high1) (hitems2 : next.items = low2 ++ item2 :: high2)
    (hlow1 : low1.length = 2 * store.sfh.maxKeys / 3) (hlow2 : low2.length = store.sfh.maxKeys / 3)
    (hcount1 : child.objCount = store.sfh.maxKeys) (hcount2 : next.objCount = store.sfh.maxKeys) :
    split3Leaf store node i = some ((allocateNode store).1,
      { node with
        isDirty := true
        items := front ++ [item1, item2] ++ back
        children := left ++ [child.refill low1, middleThird store i next (high1 ++ sep :: low2),
          lastThird store i next high2] ++ BtreeNode.numbered (i + 3) right }) := by
  have hlength1 := congrArg List.length hitems1
  have hlength2 := congrArg List.length hitems2
  unfold BtreeNode.objCount at hcount1 hcount2
  rw [List.length_append, List.length_cons] at hlength1 hlength2
  have hget1 : child.items[2 * store.sfh.maxKeys / 3]? = some item1 := by
    rw [hitems1, List.getElem?_append_right (Nat.le_of_eq hlow1), hlow1, Nat.sub_self]
    rfl
  have hget2 : next.items[store.sfh.maxKeys / 3]? = some item2 := by
    rw [hitems2, List.getElem?_append_right (Nat.le_of_eq hlow2), hlow2, Nat.sub_self]
    rfl
  have hfirst : child.items = (low1 ++ [item1]) ++ high1 := by
    rw [hitems1, List.append_assoc, List.singleton_append]
  have hsecond : next.items = (low2 ++ [item2]) ++ high2 := by
    rw [hitems2, List.append_assoc, List.singleton_append]
  have hdrop1 : (child.items.drop (2 * store.sfh.maxKeys / 3 + 1)).take
      (store.sfh.maxKeys - 2 * store.sfh.maxKeys / 3 - 1) = high1 := by
    rw [drop_left hfirst (by rw [List.length_append, hlow1]; rfl)]
    exact List.take_of_length_le (by omega)
  have hdrop2 : (next.items.drop (store.sfh.maxKeys / 3 + 1)).take
      (store.sfh.maxKeys - store.sfh.maxKeys / 3 - 1) = high2 := by
    rw [drop_left hsecond (by rw [List.length_append, hlow2]; rfl)]
    exact List.take_of_length_le (by omega)
  have htake2 : next.items.take (2 * store.sfh.maxKeys - 1 - 2 * store.sfh.maxKeys / 3 -
      (store.sfh.maxKeys - store.sfh.maxKeys / 3 - 1) -
        (store.sfh.maxKeys - 2 * store.sfh.maxKeys / 3)) = low2 := by
    refine take_left hitems2 ?_
    omega
  have hitems := hwindow.items
  have hfront : node.items.take i = front :=
    take_left (hitems.trans (List.append_assoc _ _ _)) hwindow.front
  have hback : node.items.drop (i + 1) = back :=
    drop_left hitems (by rw [List.length_append, hwindow.front]; rfl)
  have hleft : node.children.take i = left :=
    take_left (hwindow.children.trans (List.append_assoc _ _ _)) hwindow.left
  have hright : node.children.drop (i + 2) = right :=
    drop_left hwindow.children (by rw [List.length_append, hwindow.left]; rfl)
  unfold split3Leaf
  simp only [Option.bind_eq_bind, loadChild_same hbranch hwindow.child_eq hchild,
    loadChild_same hbranch hwindow.next_eq hnext, Option.bind_some, hwindow.child_eq,
    hwindow.next_eq, hwindow.sep_eq, hget1, hget2, hdrop1, hdrop2, htake2, hfront, hback, hleft,
    hright, take_left hitems1 hlow1]
  simp only [List.append_assoc]
  rfl

theorem split3_exchange (hfits : view.Fits store) (hmax : 6 ≤ view.maxKeys)
    (hchild : Bottom child) (hnext : Bottom next)
    (hitems1 : child.items = low1 ++ item1 :: high1) (hitems2 : next.items = low2 ++ item2 :: high2)
    (hlow1 : low1.length = 2 * view.maxKeys / 3) (hlow2 : low2.length = view.maxKeys / 3)
    (hcount1 : child.objCount = view.maxKeys) (hcount2 : next.objCount = view.maxKeys)
    (hnumber : child.childNo = i) :
    Exchange view 0 i store [child, next] (allocateNode store).1
      [child.refill low1, middleThird store i next (high1 ++ sep :: low2),
        lastThird store i next high2] [item1, item2] := by
  have hlength1 := congrArg List.length hitems1
  have hlength2 := congrArg List.length hitems2
  unfold BtreeNode.objCount at hcount1 hcount2
  rw [List.length_append, List.length_cons] at hlength1 hlength2
  refine ⟨Store.Leads.allocate store, rfl, ?_, ?_, ?_⟩
  · intro other hother
    simp only [List.mem_cons, List.not_mem_nil, or_false] at hother
    rcases hother with rfl | rfl | rfl
    · exact hfits.under_refill hchild (by omega) (by omega)
    · have hlength : (high1 ++ sep :: low2).length = high1.length + (low2.length + 1) :=
        List.length_append
      exact hfits.under_leaf ⟨rfl, rfl, rfl⟩ rfl
        (show _ ≤ (high1 ++ sep :: low2).length by omega)
        (show (high1 ++ sep :: low2).length ≤ _ by omega)
    · exact hfits.under_leaf ⟨hnext.loaded, hnext.leaf, hnext.childless⟩ rfl
        (show _ ≤ high2.length by omega) (show high2.length ≤ _ by omega)
  · exact numbered_cons.mpr ⟨hnumber, numbered_cons.mpr ⟨rfl,
      numbered_cons.mpr ⟨rfl, numbered_nil _⟩⟩⟩
  · intro hend others hsettled
    have hthird : (lastThird store i next high2).isLoaded = true := hnext.loaded
    simp only [List.flatMap_cons, List.flatMap_nil, hfits.extents_leaf hchild.loaded,
      hfits.extents_leaf hnext.loaded] at hsettled
    have hfresh := hsettled.allocate hend
    obtain ⟨area, hown, hownThird⟩ : ∃ area, next.own = (next.fpos, 1) :: area ∧
        (lastThird store i next high2).own = (toLong store.sfh.fileEnd, 1) :: area :=
      ⟨_, rfl, rfl⟩
    rw [hown] at hfresh
    refine hfresh.perm ?_
    have hsecond : (middleThird store i next (high1 ++ sep :: low2)).isLoaded = true := rfl
    simp only [List.flatMap_cons, List.flatMap_nil,
      hfits.extents_leaf (hchild.refill low1).loaded, hfits.extents_leaf hsecond,
      hfits.extents_leaf hthird]
    rw [hownThird, show (middleThird store i next (high1 ++ sep :: low2)).own = [(next.fpos, 1)]
      from rfl, show (child.refill low1).own = child.own from rfl]
    refine List.perm_iff_count.mpr fun place => ?_
    simp only [List.count_append, List.count_cons, List.count_nil]
    omega

end Thirds

end Libsax.Btree
