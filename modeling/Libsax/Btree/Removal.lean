import Libsax.Btree.Deletion

/-! Deletion from a tree in memory, from the root down to a leaf. -/
namespace Libsax.Btree

open Libsax.Lib
open Libsax.Db (Key Value)

variable {cmp : Key → Key → Ordering} {view : View} {store store' : Store}
  {node node' child next : BtreeNode} {height least less i first childNum fuel : Nat}
  {left right : List BtreeNode} {front back items : List Item} {item sep : Item} {key below : Key}

private theorem findPosFrom_cases [Std.TransCmp cmp] [Std.LawfulEqCmp cmp] (key : Key)
    (isLeaf : Bool)
    (hitems : Ascending cmp items) (i : Nat) :
    (∃ j item, findPosFrom cmp key isLeaf i items = .inThis (i + j) ∧ items[j]? = some item ∧
      item.1 = key) ∨
    ∃ j ≤ items.length, Below cmp key (items.take j) ∧ Above cmp key (items.drop j) ∧
      findPosFrom cmp key isLeaf i items =
        if isLeaf then .none
        else if j < items.length then .inLeft (i + j)
        else if i + j = 0 then .none
        else .inRight (i + j - 1) := by
  induction items generalizing i with
  | nil =>
    refine .inr ⟨0, Nat.le_refl 0, below_nil, above_nil, ?_⟩
    cases isLeaf with
    | false =>
      simp only [findPosFrom, Bool.false_or, decide_eq_true_eq, Nat.add_zero, List.length_nil,
        Nat.lt_irrefl, if_false, Bool.false_eq_true]
    | true => rfl
  | cons item items ih =>
    obtain ⟨habove, hrest⟩ := List.pairwise_cons.mp hitems
    rw [findPosFrom]
    cases hcmp : cmp key item.1 with
    | eq => exact .inl ⟨0, item, rfl, rfl, (Std.LawfulEqCmp.eq_of_compare hcmp).symm⟩
    | lt =>
      refine .inr ⟨0, Nat.zero_le _, below_nil, Above.cons_iff.mpr ⟨hcmp, fun other hother =>
        Std.TransCmp.lt_trans hcmp (habove other hother)⟩, ?_⟩
      simp only [List.length_cons, Nat.zero_lt_succ, if_true, Nat.add_zero]
    | gt =>
      have hitem := Std.OrientedCmp.lt_of_gt hcmp
      rcases ih hrest (i + 1) with ⟨j, other, hfind, hother, hkey⟩ | ⟨j, hj, hbelow, habove, hfind⟩
      · exact .inl ⟨j + 1, other, by rw [hfind, Nat.add_right_comm, Nat.add_assoc], hother, hkey⟩
      · refine .inr ⟨j + 1, Nat.succ_le_succ hj, Below.cons_iff.mpr ⟨hitem, hbelow⟩, habove, ?_⟩
        rw [hfind, List.length_cons, Nat.add_right_comm, Nat.add_assoc]
        simp only [Nat.add_lt_add_iff_right]

section Fill

variable (hmem : view.InMemory) (hmax : store.sfh.maxKeys = view.maxKeys)
  (hshape : Shape view (height + 1) least node)
include hmem hmax hshape

private theorem fillChild_eq (hfirst : first < node.objCount) (hi : i ≤ node.objCount)
    (hchild : node.children[i]? = some child) :
    ∃ leftCount rightCount, fillChild store node first i =
        (if view.maxKeys / 3 ≤ child.objCount then some (store, node, i)
        else if view.maxKeys / 3 ≤ leftCount then
          (takeLeft store node i).bind fun node => some (store, node, i)
        else if view.maxKeys / 3 ≤ rightCount then
          (takeRight store node i).bind fun node => some (store, node, i)
        else mergeAt store node first) ∧
      (i = 0 → leftCount = 0) ∧ (i = node.objCount → rightCount = 0) ∧
      (∀ sibling, 0 < i → node.children[i - 1]? = some sibling → sibling.objCount = leftCount) ∧
      ∀ sibling, node.children[i + 1]? = some sibling → sibling.objCount = rightCount := by
  have hlength := (hmem.branch hshape).fanout
  have hload : ∀ j ≤ node.objCount, loadChild store node j = some (store, node) :=
    fun j hj => hmem.loadChild store hshape hj
  unfold fillChild
  simp only [hload first (Nat.le_of_lt hfirst), hload (first + 1) hfirst, hload i hi, hchild, hmax,
    Option.bind_eq_bind, Option.bind_some]
  rw [if_pos (Nat.succ_le_of_lt hfirst)]
  by_cases hpos : 0 < i
  all_goals by_cases hlast : i < node.objCount
  · obtain ⟨before, hbefore⟩ : ∃ before, node.children[i - 1]? = some before :=
      ⟨_, List.getElem?_eq_getElem (by omega)⟩
    obtain ⟨after, hafter⟩ : ∃ after, node.children[i + 1]? = some after :=
      ⟨_, List.getElem?_eq_getElem (by omega)⟩
    refine ⟨before.objCount, after.objCount, ?_, by omega, by omega, ?_, ?_⟩
    · simp only [if_pos hpos, if_pos hlast, hload (i - 1) (by omega), hload (i + 1) hlast, hbefore,
        hafter, Option.bind_some]
    · intro sibling _ hsibling
      exact congrArg BtreeNode.objCount (Option.some.inj (hsibling.symm.trans hbefore))
    · intro sibling hsibling
      exact congrArg BtreeNode.objCount (Option.some.inj (hsibling.symm.trans hafter))
  · obtain ⟨before, hbefore⟩ : ∃ before, node.children[i - 1]? = some before :=
      ⟨_, List.getElem?_eq_getElem (by omega)⟩
    refine ⟨before.objCount, 0, ?_, by omega, fun _ => rfl, ?_, ?_⟩
    · simp only [if_pos hpos, if_neg hlast, hload (i - 1) (by omega), hbefore, Option.bind_some]
    · intro sibling _ hsibling
      exact congrArg BtreeNode.objCount (Option.some.inj (hsibling.symm.trans hbefore))
    · intro sibling hsibling
      obtain ⟨hlt, -⟩ := List.getElem?_eq_some_iff.mp hsibling
      omega
  · obtain ⟨after, hafter⟩ : ∃ after, node.children[i + 1]? = some after :=
      ⟨_, List.getElem?_eq_getElem (by omega)⟩
    refine ⟨0, after.objCount, ?_, fun _ => rfl, by omega, by omega, ?_⟩
    · simp only [if_neg hpos, if_pos hlast, hload (i + 1) hlast, hafter, Option.bind_some]
    · intro sibling hsibling
      exact congrArg BtreeNode.objCount (Option.some.inj (hsibling.symm.trans hafter))
  · omega

end Fill

section Ends

variable (store : Store) (hmem : view.InMemory)
include hmem

private theorem findEnd_inner {pickChild pickItem : BtreeNode → Nat}
    (hshape : Shape view (height + 1) least node)
    (hwindow : Window node (pickChild node) left [child] right front [] back)
    (hfind : findEnd pickChild pickItem fuel store child = some (store, child, item)) :
    findEnd pickChild pickItem (fuel + 1) store node = some (store, node, item) := by
  have hbranch := hmem.branch hshape
  have hcount := hwindow.objCount
  have hset : node.children.set (pickChild node) child = node.children := by
    rw [hwindow.set_child, hwindow.children]
  rw [findEnd, if_neg (by rw [hbranch.inner]; exact Bool.false_ne_true)]
  simp only [Option.bind_eq_bind, hmem.loadChild store hshape (show pickChild node ≤ _ by omega),
    Option.bind_some, hwindow.child_eq, hfind, hset]
  cases node
  rfl

private theorem findPred_last (hsix : 6 ≤ view.maxKeys) (hsize : view.maxKeys < 2 ^ 64)
    (hshape : Shape view height least node) (hsome : 1 ≤ least) (hfuel : height < fuel) :
    ∃ before item, findPred fuel store node = some (store, node, item) ∧
      inorder view height node = before ++ [item] := by
  induction fuel generalizing height least node with
  | zero => exact absurd hfuel (Nat.not_lt_zero _)
  | succ fuel ih =>
    have hleast := hshape.least_le
    have hle := hshape.le
    rw [hmem.load] at hleast hle
    cases height with
    | zero =>
      obtain ⟨-, hleaf, -⟩ := hmem.shape_iff.mp hshape
      obtain ⟨before, last, hitems⟩ := (List.eq_nil_or_concat node.items).resolve_left
        (List.ne_nil_of_length_pos (show 0 < node.objCount by omega))
      rw [List.concat_eq_append] at hitems
      have hcount : node.objCount = before.length + 1 := by
        unfold BtreeNode.objCount
        rw [hitems, List.length_append, List.length_singleton]
      refine ⟨before, last, ?_, by rw [inorder, hmem.load, hitems]⟩
      rw [findPred, findEnd, if_pos (show node.isLeaf = true from hleaf),
        pred_eq (by omega) (by omega), hcount, hitems,
        Nat.add_sub_cancel, List.getElem?_concat_length]
      rfl
    | succ height =>
      obtain ⟨left, child, right, front, back, hwindow⟩ :=
        (hmem.branch hshape).window_one (Nat.le_refl node.objCount)
      have hcount := hwindow.objCount
      have hchild := ((hmem.branch hshape).below child (hwindow.mem List.mem_cons_self)).2
      obtain ⟨before, item, hfind, hchildItems⟩ := ih hchild (by omega)
        (Nat.lt_of_succ_lt_succ hfuel)
      obtain rfl : back = [] := List.eq_nil_of_length_eq_zero (by omega)
      obtain rfl : right = [] := List.eq_nil_of_length_eq_zero hwindow.right
      have hall : inorder view (height + 1) node = _ := hwindow.inorder (hmem.load node)
      rw [List.map_singleton, weave_one, hchildItems, List.map_nil, trail_nil, List.append_nil,
        ← List.append_assoc] at hall
      exact ⟨_, item, findEnd_inner store hmem hshape hwindow hfind, hall⟩

theorem findSucc_first (hsix : 6 ≤ view.maxKeys) (hshape : Shape view height least node)
    (hsome : 1 ≤ least) (hfuel : height < fuel) :
    ∃ item after, findSucc fuel store node = some (store, node, item) ∧
      inorder view height node = item :: after := by
  induction fuel generalizing height least node with
  | zero => exact absurd hfuel (Nat.not_lt_zero _)
  | succ fuel ih =>
    have hleast := hshape.least_le
    rw [hmem.load] at hleast
    cases height with
    | zero =>
      obtain ⟨-, hleaf, -⟩ := hmem.shape_iff.mp hshape
      obtain ⟨first, after, hitems⟩ := List.exists_cons_of_length_pos
        (show 0 < node.items.length from Nat.lt_of_lt_of_le hsome hleast)
      refine ⟨first, after, ?_, by rw [inorder, hmem.load, hitems]⟩
      rw [findSucc, findEnd, if_pos (show node.isLeaf = true from hleaf), hitems]
      rfl
    | succ height =>
      obtain ⟨left, child, right, front, back, hwindow⟩ :=
        (hmem.branch hshape).window_one (Nat.zero_le node.objCount)
      have hchild := ((hmem.branch hshape).below child (hwindow.mem List.mem_cons_self)).2
      obtain ⟨item, after, hfind, hchildItems⟩ := ih hchild (by omega)
        (Nat.lt_of_succ_lt_succ hfuel)
      obtain rfl : left = [] := List.eq_nil_of_length_eq_zero hwindow.left
      obtain rfl : front = [] := List.eq_nil_of_length_eq_zero hwindow.front
      have hall : inorder view (height + 1) node = _ := hwindow.inorder (hmem.load node)
      rw [List.map_singleton, weave_one, hchildItems, List.map_nil, weave_nil, List.nil_append,
        List.cons_append] at hall
      exact ⟨item, _, findEnd_inner store hmem hshape hwindow hfind, hall⟩

end Ends

/-- A deletion goes on below a child with enough records: what it makes of the records there, it
makes of those of the node. -/
structure Goes (cmp : Key → Key → Ordering) (view : View) (height less : Nat) (key : Key)
    (node node' : BtreeNode) (childNum : Nat) (below : Key) : Prop where
  childNo : node'.childNo = node.childNo
  shape : Shape view (height + 1) less node'
  child : ∃ left child right front back,
    Window node' childNum left [child] right front [] back ∧
    view.maxKeys / 3 ≤ child.objCount ∧ Ascending cmp (inorder view height child) ∧
    (key ∈ (inorder view (height + 1) node).map Prod.fst ↔
      below ∈ (inorder view height child).map Prod.fst) ∧
    without cmp key (inorder view (height + 1) node) =
      weave (left.map (inorder view height)) front ++ without cmp below (inorder view height child) ++
        trail (right.map (inorder view height)) back

theorem mem_keys_within [Std.TransCmp cmp] {before between after : List Item}
    (hbelow : Below cmp key before) (habove : Above cmp key after) :
    key ∈ (before ++ between ++ after).map Prod.fst ↔ key ∈ between.map Prod.fst := by
  have hbefore : key ∉ before.map Prod.fst := fun hkey => by
    obtain ⟨item, hitem, hsame⟩ := List.mem_map.mp hkey
    exact hbelow.ne hitem hsame
  have hafter : key ∉ after.map Prod.fst := fun hkey => by
    obtain ⟨item, hitem, hsame⟩ := List.mem_map.mp hkey
    exact habove.ne hitem hsame
  rw [List.map_append, List.map_append, List.mem_append, List.mem_append]
  simp only [hbefore, hafter, false_or, or_false]

theorem View.InMemory.middle_apart (hmem : view.InMemory)
    (hwindow : Window node i left [child, next] right front [item] back)
    (hkeys : Ascending cmp (inorder view (height + 1) node)) :
    Below cmp item.1 (inorder view height child) ∧ Above cmp item.1 (inorder view height next) := by
  have hmid := hwindow.ascending_mid (hmem.load node) hkeys
  simp only [List.map_cons, List.map_nil, weave_two] at hmid
  obtain ⟨-, hbelow, habove, -⟩ := Ascending.middle_iff.mp hmid
  exact ⟨hbelow, habove⟩

theorem View.InMemory.without_middle [Std.OrientedCmp cmp] (hmem : view.InMemory)
    (hwindow : Window node i left [child, next] right front [item] back)
    (hkeys : Ascending cmp (inorder view (height + 1) node)) :
    item.1 ∈ (inorder view (height + 1) node).map Prod.fst ∧
    without cmp item.1 (inorder view (height + 1) node) =
      weave (left.map (inorder view height)) front ++ inorder view height child ++
        (inorder view height next ++ trail (right.map (inorder view height)) back) := by
  have hall : inorder view (height + 1) node =
      weave (left.map (inorder view height)) front ++ inorder view height child ++
        item :: (inorder view height next ++ trail (right.map (inorder view height)) back) := by
    rw [hwindow.inorder (hmem.load node)]
    simp only [List.map_cons, List.map_nil, weave_two, List.append_assoc, List.cons_append]
  rw [hall] at hkeys ⊢
  obtain ⟨-, hbelow, habove, -⟩ := Ascending.middle_iff.mp hkeys
  refine ⟨?_, Lib.without_middle hbelow habove⟩
  rw [List.map_append]
  exact List.mem_append_right _ List.mem_cons_self

theorem View.InMemory.shape_set (hmem : view.InMemory) (hshape : Shape view (height + 1) least node)
    (i : Nat) (item : Item) :
    Shape view (height + 1) least
      { node with isDirty := true, items := node.items.set i item } := by
  have hcount : (node.items.set i item).length = node.items.length := List.length_set
  obtain ⟨hloaded, hleaf, hall, hnumbered, hleast, hle⟩ := hmem.shape_iff.mp hshape
  unfold BtreeNode.objCount at hall hleast hle
  rw [← hcount] at hall hleast hle
  exact hmem.shape_iff.mpr ⟨hloaded, hleaf, hall, hnumbered, hleast, hle⟩

section Steps

variable [Std.TransCmp cmp] (hmem : view.InMemory)
include hmem

private theorem goes_below (hrearranged : Rearranged view (height + 1) less node node')
    (hwindow : Window node' childNum left [child] right front [] back)
    (hmany : view.maxKeys / 3 ≤ child.objCount)
    (hkeys : Ascending cmp (inorder view (height + 1) node))
    (hbelow : Below cmp key front) (habove : Above cmp key back) :
    Goes cmp view height less key node node' childNum key := by
  have hload := hmem.load node'
  rw [← hrearranged.same] at hkeys
  have hleft := hwindow.below_left hload hkeys (show Below cmp ((key, none) : Item).1 front from hbelow)
  have hright := hwindow.above_right hload hkeys (show Above cmp ((key, none) : Item).1 back from habove)
  have hchild := hwindow.ascending_mid hload hkeys
  have hall : inorder view (height + 1) node' = _ := hwindow.inorder hload
  rw [List.map_singleton, weave_one] at hchild hall
  refine ⟨hrearranged.childNo, hrearranged.shape, left, child, right, front, back, hwindow, hmany,
    hchild, ?_, ?_⟩
  · rw [← hrearranged.same, hall]
    exact mem_keys_within hleft hright
  · rw [← hrearranged.same, hall]
    exact without_within hleft hright

section Pair

variable (hmax : store.sfh.maxKeys = view.maxKeys) (hsix : 6 ≤ view.maxKeys)
  (hshape : Shape view (height + 1) least node)
  (hkeys : Ascending cmp (inorder view (height + 1) node))
  (hwindow : Window node i left [child, next] right front [sep] back)
include hmax hsix hshape hkeys hwindow

private theorem takeLeft_goes (hmany : view.maxKeys / 3 ≤ child.objCount)
    (hfew : next.objCount = view.maxKeys / 3 - 1) (hbelow : Below cmp key (front ++ [sep]))
    (habove : Above cmp key back) : ∃ node', takeLeft store node (i + 1) = some node' ∧
      Goes cmp view height least key node node' (i + 1) key := by
  obtain ⟨node', first, middle, second, htake, hrearranged, hnew, hsep, henough⟩ :=
    takeLeft_rearranged hmem hmax hsix hshape hwindow hmany hfew
  obtain ⟨hfront, hsepKey⟩ := Below.append_iff.mp hbelow
  have hkeys' := hkeys
  rw [← hrearranged.same] at hkeys'
  have hmiddle := (hmem.middle_apart hnew hkeys').2 sep
    (mem_inorder_of_mem_items (hmem.load second) hsep)
  refine ⟨node', htake, goes_below hmem hrearranged hnew.second henough hkeys ?_ habove⟩
  exact Below.append_iff.mpr ⟨hfront, Below.cons_iff.mpr
    ⟨Std.TransCmp.lt_trans hmiddle (hsepKey sep List.mem_cons_self), below_nil⟩⟩

private theorem takeRight_goes (hfew : child.objCount = view.maxKeys / 3 - 1)
    (hmany : view.maxKeys / 3 ≤ next.objCount) (hbelow : Below cmp key front)
    (habove : Above cmp key (sep :: back)) : ∃ node', takeRight store node i = some node' ∧
      Goes cmp view height least key node node' i key := by
  obtain ⟨node', first, middle, second, htake, hrearranged, hnew, hsep, henough⟩ :=
    takeRight_rearranged hmem hmax hsix hshape hwindow hfew hmany
  obtain ⟨hsepKey, hback⟩ := Above.cons_iff.mp habove
  have hkeys' := hkeys
  rw [← hrearranged.same] at hkeys'
  have hmiddle := (hmem.middle_apart hnew hkeys').1 sep
    (mem_inorder_of_mem_items (hmem.load first) hsep)
  exact ⟨node', htake, goes_below hmem hrearranged hnew.first henough hkeys hbelow
    (Above.cons_iff.mpr ⟨Std.TransCmp.lt_trans hsepKey hmiddle, hback⟩)⟩

private theorem mergeAt_goes (hchildFew : child.objCount = view.maxKeys / 3 - 1)
    (hnextFew : next.objCount = view.maxKeys / 3 - 1) (hless : less + 1 ≤ least)
    (hbelow : Below cmp key front) (habove : Above cmp key back) :
    ∃ store' node', mergeAt store node i = some (store', node', i) ∧ store.Stays store' ∧
      Goes cmp view height less key node node' i key := by
  obtain ⟨store', node', merged, hmerge, hstays, hrearranged, hnew, henough⟩ :=
    mergeAt_rearranged hmem hmax hsix hshape hwindow hchildFew hnextFew hless
  exact ⟨store', node', hmerge, hstays, goes_below hmem hrearranged hnew henough hkeys hbelow habove⟩

end Pair

private theorem replaceItem_goes (hmax : store.sfh.maxKeys = view.maxKeys) (hsix : 6 ≤ view.maxKeys)
    (hsize : view.maxKeys < 2 ^ 64) (hshape : Shape view (height + 1) least node)
    (hless : less + 1 ≤ least) (hkeys : Ascending cmp (inorder view (height + 1) node))
    (hitem : node.items[i]? = some item) (hfuel : height < fuel) :
    ∃ store' node' childNum below,
      replaceItem fuel store node i item.1 = some (store', node', childNum, below) ∧
      store.Stays store' ∧ Goes cmp view height less item.1 node node' childNum below := by
  have hleast := hshape.least_le
  have hshapeLess := hshape.weaken (show less ≤ (view.load node).objCount by omega)
  have hbranch := hmem.branch hshape
  obtain ⟨hlt, -⟩ := List.getElem?_eq_some_iff.mp hitem
  obtain ⟨left, prior, successor, right, front, sep, back, hwindow⟩ := hbranch.window_two hlt
  obtain rfl : sep = item := Option.some.inj (hwindow.sep_eq.symm.trans hitem)
  have hprior := (hbranch.below prior (hwindow.mem List.mem_cons_self)).2
  have hsuccessor :=
    (hbranch.below successor (hwindow.mem (List.mem_cons_of_mem _ List.mem_cons_self))).2
  obtain ⟨hmember, hwithout⟩ := hmem.without_middle hwindow hkeys
  have hmid := hwindow.ascending_mid (hmem.load node) hkeys
  simp only [List.map_cons, List.map_nil, weave_two] at hmid
  obtain ⟨hkeysPrior, -, -, hkeysSuccessor, -⟩ := Ascending.middle_iff.mp hmid
  unfold replaceItem
  simp only [hmem.loadChild store hshape (Nat.le_of_lt hlt), hmem.loadChild store hshape hlt,
    hwindow.child_eq, hwindow.next_eq, hmax, Option.bind_eq_bind, Option.bind_some]
  by_cases hbefore : view.maxKeys / 3 ≤ prior.objCount
  · obtain ⟨before, last, hfind, hitems⟩ := findPred_last store hmem hsix hsize hprior
      (by omega) hfuel
    have hnew : Window { node with isDirty := true, items := node.items.set i last } i left
        [prior, successor] right front [last] back :=
      hwindow.replace hwindow.children (hwindow.set_item last) rfl rfl
    have hset : node.children.set i prior = node.children := by
      rw [hwindow.set_child, hwindow.children]
    refine ⟨store, _, i, last.1, by rw [if_pos hbefore, hfind]; rfl, Store.Stays.refl store, ?_⟩
    rw [hset]
    refine ⟨rfl, hmem.shape_set hshapeLess i last, _, prior, _, _, _, hnew.first, hbefore,
      hkeysPrior, iff_of_true hmember ?_, ?_⟩
    · rw [hitems, List.map_append]
      exact List.mem_append_right _ List.mem_cons_self
    · rw [hitems] at hkeysPrior
      rw [hwithout, hitems, Lib.without_middle (Ascending.middle_iff.mp hkeysPrior).2.1 above_nil,
        List.map_cons, trail_cons, weave_cons]
      simp only [List.append_assoc, List.append_nil, List.cons_append, List.nil_append]
  rw [if_neg hbefore]
  by_cases hafter : view.maxKeys / 3 ≤ successor.objCount
  · obtain ⟨first, after, hfind, hitems⟩ := findSucc_first store hmem hsix hsuccessor
      (by omega) hfuel
    have hnew : Window { node with isDirty := true, items := node.items.set i first } i left
        [prior, successor] right front [first] back :=
      hwindow.replace hwindow.children (hwindow.set_item first) rfl rfl
    have hset : node.children.set (i + 1) successor = node.children := by
      rw [hwindow.set_next, hwindow.children]
    refine ⟨store, _, i + 1, first.1, by rw [if_pos hafter, hfind]; rfl, Store.Stays.refl store, ?_⟩
    rw [hset]
    refine ⟨rfl, hmem.shape_set hshapeLess i first, _, successor, _, _, _, hnew.second, hafter,
      hkeysSuccessor, iff_of_true hmember ?_, ?_⟩
    · rw [hitems]
      exact List.mem_cons_self
    · rw [hitems] at hkeysSuccessor
      rw [hwithout, hitems, ← List.nil_append (first :: after),
        Lib.without_middle below_nil (List.pairwise_cons.mp hkeysSuccessor).1, List.map_append,
        weave_append (by rw [List.length_map, hwindow.left, hwindow.front])]
      simp only [List.map_cons, List.map_nil, weave_cons, trail_cons, weave_nil, List.append_assoc,
        List.cons_append, List.nil_append]
  rw [if_neg hafter]
  have hpriorLeast := hprior.least_le
  have hsuccessorLeast := hsuccessor.least_le
  rw [hmem.load] at hpriorLeast hsuccessorLeast
  obtain ⟨hbelow, habove⟩ : Below cmp sep.1 front ∧ Above cmp sep.1 back := by
    have hnode := ascending_items (hmem.load node) hkeys
    rw [hwindow.items, List.append_assoc] at hnode
    obtain ⟨-, hbelow, habove, -⟩ := Ascending.middle_iff.mp hnode
    exact ⟨hbelow, habove⟩
  obtain ⟨store', node', hmerge, hstays, hgoes⟩ := mergeAt_goes hmem hmax hsix hshape hkeys hwindow
    (by omega) (by omega) hless hbelow habove
  rw [hmerge]
  exact ⟨store', node', i, sep.1, rfl, hstays, hgoes⟩

private theorem fillChild_goes (hmax : store.sfh.maxKeys = view.maxKeys) (hsix : 6 ≤ view.maxKeys)
    (hshape : Shape view (height + 1) least node) (hless : less + 1 ≤ least)
    (hkeys : Ascending cmp (inorder view (height + 1) node))
    (hfirst : first < node.objCount) (hi : i = first ∨ i = first + 1)
    (hbelow : Below cmp key (node.items.take i)) (habove : Above cmp key (node.items.drop i)) :
    ∃ store' node' childNum, fillChild store node first i = some (store', node', childNum) ∧
      store.Stays store' ∧ Goes cmp view height less key node node' childNum key := by
  have hbranch := hmem.branch hshape
  have hle : i ≤ node.objCount := by omega
  obtain ⟨left, child, right, front, back, hwindow⟩ := hbranch.window_one hle
  obtain ⟨leftCount, rightCount, hfill, hfirstChild, hlastChild, hleftCount, hrightCount⟩ :=
    fillChild_eq hmem hmax hshape hfirst hle hwindow.child_eq
  have hleast := hshape.least_le
  have hshapeLess := hshape.weaken (show less ≤ (view.load node).objCount by omega)
  have henough : ∀ {j : Nat} {other : BtreeNode}, node.children[j]? = some other →
      view.maxKeys / 3 - 1 ≤ other.objCount := by
    intro j other hother
    have hcount := (hbranch.below other (List.mem_of_getElem? hother)).2.least_le
    rwa [hmem.load] at hcount
  have hchild := henough hwindow.child_eq
  rw [hfill]
  by_cases hmany : view.maxKeys / 3 ≤ child.objCount
  · have hitems : node.items = front ++ back := by rw [hwindow.items, List.append_nil]
    rw [take_left hitems hwindow.front] at hbelow
    rw [drop_left hitems hwindow.front] at habove
    rw [if_pos hmany]
    exact ⟨store, node, i, rfl, Store.Stays.refl store,
      goes_below hmem ⟨rfl, hshapeLess, rfl⟩ hwindow hmany hkeys hbelow habove⟩
  have hfew : child.objCount = view.maxKeys / 3 - 1 := by omega
  rw [if_neg hmany]
  by_cases hleft : view.maxKeys / 3 ≤ leftCount
  · obtain ⟨j, rfl⟩ : ∃ j, i = j + 1 :=
      Nat.exists_eq_add_one_of_ne_zero fun hzero => by
        have hnone := hfirstChild hzero
        omega
    obtain ⟨left, sibling, other, right, front, sep, back, hpair⟩ := hbranch.window_two hle
    obtain rfl : other = child := Option.some.inj (hpair.next_eq.symm.trans hwindow.child_eq)
    have hcount := hleftCount sibling (Nat.succ_pos j) hpair.child_eq
    rw [take_left hpair.items hpair.second.front] at hbelow
    rw [drop_left hpair.items hpair.second.front] at habove
    obtain ⟨node', htake, hgoes⟩ := takeLeft_goes hmem hmax hsix hshapeLess hkeys hpair (by omega)
      hfew hbelow habove
    rw [if_pos hleft, htake]
    exact ⟨store, node', j + 1, rfl, Store.Stays.refl store, hgoes⟩
  rw [if_neg hleft]
  by_cases hright : view.maxKeys / 3 ≤ rightCount
  · have hlast : i < node.objCount := by
      refine Nat.lt_of_le_of_ne hle fun hend => ?_
      have hnone := hlastChild hend
      omega
    obtain ⟨left, other, sibling, right, front, sep, back, hpair⟩ := hbranch.window_two hlast
    obtain rfl : other = child := Option.some.inj (hpair.child_eq.symm.trans hwindow.child_eq)
    have hcount := hrightCount sibling hpair.next_eq
    have hitems : node.items = front ++ sep :: back := hpair.items.trans (List.append_assoc _ _ _)
    rw [take_left hitems hpair.front] at hbelow
    rw [drop_left hitems hpair.front] at habove
    obtain ⟨node', htake, hgoes⟩ := takeRight_goes hmem hmax hsix hshapeLess hkeys hpair hfew
      (by omega) hbelow habove
    rw [if_pos hright, htake]
    exact ⟨store, node', i, rfl, Store.Stays.refl store, hgoes⟩
  rw [if_neg hright]
  -- the child is one of the two that are merged, the other one is a sibling of it
  obtain ⟨left, one, two, right, front, sep, back, hpair⟩ := hbranch.window_two hfirst
  have hone := henough hpair.child_eq
  have htwo := henough hpair.next_eq
  have hitems : node.items = front ++ sep :: back := hpair.items.trans (List.append_assoc _ _ _)
  have hall : one.objCount = view.maxKeys / 3 - 1 ∧ two.objCount = view.maxKeys / 3 - 1 ∧
      Below cmp key front ∧ Above cmp key back := by
    rcases hi with rfl | rfl
    · obtain rfl : one = child := Option.some.inj (hpair.child_eq.symm.trans hwindow.child_eq)
      have hcount := hrightCount two hpair.next_eq
      rw [take_left hitems hpair.front] at hbelow
      rw [drop_left hitems hpair.front] at habove
      exact ⟨hfew, by omega, hbelow, (Above.cons_iff.mp habove).2⟩
    · obtain rfl : two = child := Option.some.inj (hpair.next_eq.symm.trans hwindow.child_eq)
      have hcount := hleftCount one (Nat.succ_pos first) hpair.child_eq
      rw [take_left hpair.items hpair.second.front] at hbelow
      rw [drop_left hpair.items hpair.second.front] at habove
      exact ⟨by omega, hfew, (Below.append_iff.mp hbelow).1, habove⟩
  obtain ⟨store', node', hmerge, hstays, hgoes⟩ := mergeAt_goes hmem hmax hsix hshape hkeys hpair
    hall.1 hall.2.1 hless hall.2.2.1 hall.2.2.2
  exact ⟨store', node', first, hmerge, hstays, hgoes⟩

end Steps

/-- A deletion ends: the tree is without the key, and it is answered whether it was there. -/
def Deletes (cmp : Key → Key → Ordering) (view : View) (height less : Nat) (key : Key)
    (store : Store) (node : BtreeNode) (result : Option (Store × BtreeNode × Bool)) : Prop :=
  ∃ store' node', result =
      some (store', node', decide (key ∈ (inorder view height node).map Prod.fst)) ∧
    store.Stays store' ∧ node'.childNo = node.childNo ∧ Shape view height less node' ∧
    inorder view height node' = without cmp key (inorder view height node)

theorem Deletes.after (hstays : store.Stays store')
    {result : Option (Store × BtreeNode × Bool)}
    (hdeletes : Deletes cmp view height less key store' node result) :
    Deletes cmp view height less key store node result := by
  obtain ⟨store'', node', hresult, hstays', hrest⟩ := hdeletes
  exact ⟨store'', node', hresult, hstays.trans hstays', hrest⟩

theorem Goes.deletes (hmem : view.InMemory)
    (hgoes : Goes cmp view height less key node node' childNum below)
    {deleteBelow : BtreeNode → Option (Store × BtreeNode × Bool)}
    (hbelow : ∀ child, Shape view height (view.maxKeys / 3) child →
      Ascending cmp (inorder view height child) →
        Deletes cmp view height (view.maxKeys / 3 - 1) below store child (deleteBelow child)) :
    Deletes cmp view (height + 1) less key store node (node'.children[childNum]?.bind fun child =>
      (deleteBelow child).bind fun out =>
        some (out.1, { node' with children := node'.children.set childNum out.2.1 }, out.2.2)) := by
  obtain ⟨left, child, right, front, back, hwindow, hmany, hkeys, hmember, hwithout⟩ := hgoes.child
  have hshape := ((hmem.branch hgoes.shape).below child (hwindow.mem List.mem_cons_self)).2
  obtain ⟨store', child', hdelete, hstays, hchildNo, hshape', hitems⟩ :=
    hbelow child (hshape.weaken (by rwa [hmem.load])) hkeys
  obtain ⟨hshapeNode, hnew⟩ := hmem.change_child hgoes.shape hwindow hshape' hchildNo
  rw [hwindow.child_eq, Option.bind_some, hdelete, Option.bind_some, hwindow.set_child]
  refine ⟨store', { node' with children := left ++ [child'] ++ right }, ?_, hstays, hgoes.childNo,
    hshapeNode, ?_⟩
  · rw [decide_eq_decide.mpr hmember]
  · rw [hwithout, hnew.inorder (hmem.load _), List.map_singleton, weave_one, hitems]

private theorem leaf_deletes [Std.TransCmp cmp] (hmem : view.InMemory)
    (hshape : Shape view 0 least node) (hless : less ≤ least - 1)
    (hkeys : Ascending cmp (inorder view 0 node)) (hitem : node.items[i]? = some item) :
    Deletes cmp view 0 less item.1 store node (some (store, node.delFromLeaf i, true)) := by
  have hitems : inorder view 0 node = node.items := by rw [inorder, hmem.load]
  obtain ⟨hlt, -⟩ := List.getElem?_eq_some_iff.mp hitem
  obtain ⟨front, other, back, hsplit, hfront⟩ := split_list hlt
  obtain rfl : other = item := by
    rw [hsplit, List.getElem?_append_right (Nat.le_of_eq hfront), hfront, Nat.sub_self] at hitem
    exact Option.some.inj hitem
  have herase : node.items.eraseIdx i = front ++ back := by
    rw [hsplit, List.eraseIdx_append_of_length_le (Nat.le_of_eq hfront), hfront, Nat.sub_self]
    rfl
  have hcount : node.objCount = (node.delFromLeaf i).objCount + 1 := by
    show node.items.length = (node.items.eraseIdx i).length + 1
    rw [herase, hsplit, List.length_append, List.length_append, List.length_cons, Nat.add_assoc]
  rw [hitems, hsplit] at hkeys
  obtain ⟨-, hbelow, habove, -⟩ := Ascending.middle_iff.mp hkeys
  refine ⟨store, node.delFromLeaf i, ?_, Store.Stays.refl store, rfl, ?_, ?_⟩
  · rw [hitems, decide_eq_true (List.mem_map_of_mem (List.mem_of_getElem? hitem))]
  · obtain ⟨⟨hloaded, hleaf, hchildless⟩, hleast, hle⟩ := hshape
    rw [hmem.load] at hloaded hleaf hchildless hleast hle
    unfold Shape
    rw [hmem.load]
    exact ⟨⟨hloaded, hleaf, hchildless⟩, by omega, by omega⟩
  · rw [hitems, inorder, hmem.load, hsplit, Lib.without_middle hbelow habove, ← herase]
    rfl

theorem delete_deletes [Std.TransCmp cmp] [Std.LawfulEqCmp cmp] (hmem : view.InMemory)
    (hsix : 6 ≤ view.maxKeys) (hsize : view.maxKeys < 2 ^ 64)
    (hmax : store.sfh.maxKeys = view.maxKeys) (hshape : Shape view height least node)
    (hless : less + 1 ≤ least ∨ height = 0 ∧ less = 0)
    (hkeys : Ascending cmp (inorder view height node)) (hfuel : height < fuel) :
    Deletes cmp view height less key store node (delete cmp fuel store node key) := by
  induction fuel generalizing height least less store node key with
  | zero => exact absurd hfuel (Nat.not_lt_zero _)
  | succ fuel ih =>
    have hload := hmem.load node
    have hdown : ∀ {store' node' childNum below tall}, height = tall + 1 → store.Stays store' →
        Goes cmp view tall less key node node' childNum below →
          Deletes cmp view height less key store node (node'.children[childNum]?.bind fun child =>
            (delete cmp fuel store' child below).bind fun out =>
              some (out.1, { node' with children := node'.children.set childNum out.2.1 }, out.2.2)) := by
      rintro store' node' childNum below tall rfl hstays hgoes
      refine (hgoes.deletes hmem fun child hshape hkeys => ?_).after hstays
      exact ih (by rw [hstays.sfh, hmax]) hshape (.inl (by omega)) hkeys
        (Nat.lt_of_succ_lt_succ hfuel)
    unfold delete findPos
    rcases findPosFrom_cases key node.isLeaf (ascending_items hload hkeys) 0 with
      ⟨i, item, hfind, hitem, rfl⟩ | ⟨i, hi, hbelow, habove, hfind⟩
    · simp only [hfind, Nat.zero_add, Option.bind_eq_bind]
      cases height with
      | zero =>
        rw [if_pos (show node.isLeaf = true from (hmem.shape_iff.mp hshape).2.1)]
        exact leaf_deletes hmem hshape (by omega) hkeys hitem
      | succ height =>
        rw [if_neg (by rw [(hmem.branch hshape).inner]; exact Bool.false_ne_true)]
        obtain ⟨store', node', childNum, below, hreplace, hstays, hgoes⟩ :=
          replaceItem_goes hmem hmax hsix hsize hshape (show less + 1 ≤ least by omega) hkeys hitem
            (Nat.lt_of_succ_lt_succ hfuel)
        rw [hreplace, Option.bind_some]
        exact hdown rfl hstays hgoes
    · simp only [hfind, Nat.zero_add, Option.bind_eq_bind]
      cases height with
      | zero =>
        have hleaf : node.isLeaf = true := (hmem.shape_iff.mp hshape).2.1
        have hitems : inorder view 0 node = node.items.take i ++ [] ++ node.items.drop i := by
          rw [inorder, hload, List.append_nil, List.take_append_drop]
        have habsent : key ∉ (inorder view 0 node).map Prod.fst := by
          rw [hitems, mem_keys_within hbelow habove]
          exact List.not_mem_nil
        rw [if_pos hleaf]
        refine ⟨store, node, by rw [decide_eq_false habsent], Store.Stays.refl store, rfl,
          hshape.weaken ?_, ?_⟩
        · have hleast := hshape.least_le
          omega
        · rw [hitems, without_within hbelow habove]
          rfl
      | succ height =>
        have hleast := hshape.least_le
        rw [hload] at hleast
        have hmore : less + 1 ≤ least := by omega
        rw [if_neg (by rw [(hmem.branch hshape).inner]; exact Bool.false_ne_true)]
        by_cases hlast : i < node.items.length
        · obtain ⟨store', node', childNum, hfill, hstays, hgoes⟩ := fillChild_goes hmem hmax hsix
            hshape hmore hkeys hlast (.inl rfl) hbelow habove
          rw [if_pos hlast]
          simp only [hfill, Option.bind_some]
          exact hdown rfl hstays hgoes
        · obtain ⟨j, rfl⟩ : ∃ j, i = j + 1 := Nat.exists_eq_add_one_of_ne_zero fun hzero => by
            unfold BtreeNode.objCount at hleast
            omega
          obtain ⟨store', node', childNum, hfill, hstays, hgoes⟩ := fillChild_goes hmem hmax hsix
            hshape hmore hkeys (show j < node.objCount from hi) (.inr rfl) hbelow habove
          rw [if_neg hlast, if_neg (Nat.succ_ne_zero j), Nat.add_sub_cancel]
          simp only [hfill, Option.bind_some]
          exact hdown rfl hstays hgoes

end Libsax.Btree
