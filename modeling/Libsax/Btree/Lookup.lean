import Libsax.Btree.Removal
import Libsax.Btree.Iteration

/-! The search for a key in a tree in memory, and the change of the value beside it. -/
namespace Libsax.Btree

open Libsax.Lib
open Libsax.Db (Key Value)

variable {cmp : Key → Key → Ordering} {view : View} {store : Store} {node node' child child' : BtreeNode}
  {height least i fuel : Nat} {left right : List BtreeNode} {front back : List Item}
  {item : Item} {stored : Cell}

/-- The same tree with another value beside one key. -/
structure Alters (view : View) (height least : Nat) (item : Item) (stored : Cell)
    (node node' : BtreeNode) : Prop where
  childNo : node'.childNo = node.childNo
  shape : Shape view height least node'
  records : ∃ before after, inorder view height node = before ++ item :: after ∧
    inorder view height node' = before ++ (item.1, stored) :: after

section Alters

variable (hmem : view.InMemory)
include hmem

theorem View.InMemory.alters_item (hshape : Shape view height least node)
    (hitem : node.items[i]? = some item) (stored : Cell) :
    Alters view height least item stored node
      { node with isDirty := true, items := node.items.set i (item.1, stored) } := by
  obtain ⟨hlt, -⟩ := List.getElem?_eq_some_iff.mp hitem
  cases height with
  | zero =>
    obtain ⟨before, other, after, hsplit, hbefore⟩ := split_list hlt
    obtain rfl : other = item := by
      rw [hsplit, List.getElem?_append_right (Nat.le_of_eq hbefore), hbefore, Nat.sub_self] at hitem
      exact Option.some.inj hitem
    have hset : node.items.set i (other.1, stored) = before ++ (other.1, stored) :: after := by
      rw [hsplit, List.set_append_right _ _ (Nat.le_of_eq hbefore), hbefore, Nat.sub_self]
      rfl
    have hcount : (node.items.set i (other.1, stored)).length = node.items.length := List.length_set
    obtain ⟨⟨hloaded, hleaf, hchildless⟩, hleast, hle⟩ := hshape
    rw [hmem.load] at hloaded hleaf hchildless hleast hle
    refine ⟨rfl, ?_, before, after, ?_, ?_⟩
    · unfold Shape
      rw [hmem.load]
      exact ⟨⟨hloaded, hleaf, hchildless⟩, hleast.trans (Nat.le_of_eq hcount.symm),
        (Nat.le_of_eq hcount).trans hle⟩
    · rw [inorder, hmem.load, hsplit]
    · rw [inorder, hmem.load]
      exact hset
  | succ height =>
    obtain ⟨left, child, next, right, front, sep, back, hwindow⟩ :=
      (hmem.branch hshape).window_two hlt
    obtain rfl : sep = item := Option.some.inj (hwindow.sep_eq.symm.trans hitem)
    have hnew : Window { node with isDirty := true, items := node.items.set i (sep.1, stored) } i left
        [child, next] right front [(sep.1, stored)] back :=
      hwindow.replace hwindow.children (hwindow.set_item _) rfl rfl
    refine ⟨rfl, hmem.shape_set hshape i _,
      weave (left.map (inorder view height)) front ++ inorder view height child,
      inorder view height next ++ trail (right.map (inorder view height)) back, ?_, ?_⟩
    · rw [hwindow.inorder (hmem.load node)]
      simp only [List.map_cons, List.map_nil, weave_two, List.append_assoc, List.cons_append]
    · rw [hnew.inorder (hmem.load _)]
      simp only [List.map_cons, List.map_nil, weave_two, List.append_assoc, List.cons_append]

theorem Alters.parent (halters : Alters view height (view.maxKeys / 3 - 1) item stored child child')
    (hshape : Shape view (height + 1) least node)
    (hwindow : Window node i left [child] right front [] back) :
    Alters view (height + 1) least item stored node
      { node with children := left ++ [child'] ++ right } := by
  obtain ⟨before, after, hold, hnew⟩ := halters.records
  obtain ⟨hshape', hwindow'⟩ := hmem.change_child hshape hwindow halters.shape halters.childNo
  refine ⟨rfl, hshape', weave (left.map (inorder view height)) front ++ before,
    after ++ trail (right.map (inorder view height)) back, ?_, ?_⟩
  · rw [hwindow.inorder (hmem.load node), List.map_singleton, weave_one, hold]
    simp only [List.append_assoc, List.cons_append]
  · rw [hwindow'.inorder (hmem.load _), List.map_singleton, weave_one, hnew]
    simp only [List.append_assoc, List.cons_append]

theorem searchInto_found [Std.TransCmp cmp] [Std.LawfulEqCmp cmp] (store : Store)
    (above : List BtreeNode) (hsize : view.maxKeys ≤ 2 ^ 30)
    (hshape : Shape view height least node) (hkeys : Ascending cmp (inorder view height node))
    (hitem : item ∈ inorder view height node) (hfuel : height < fuel) :
    ∃ place i, searchInto cmp item.1 fuel store ⟨node, above⟩ = some (store, place, .found i) ∧
      place.node.items[i]? = some item ∧
      ∀ stored, ∃ node', Alters view height least item stored node node' ∧
        ({ place.node with
          isDirty := true
          items := place.node.items.set i (item.1, stored) } : BtreeNode).plug place.above =
            node'.plug above := by
  induction fuel generalizing height least node above with
  | zero => exact absurd hfuel (Nat.not_lt_zero _)
  | succ fuel ih =>
    have hload := hmem.load node
    have hle := hshape.le
    rw [hload] at hle
    rw [searchInto]
    rcases spot_cases (ascending_items hload hkeys) item.1 with
      ⟨-, hmany⟩ | ⟨i, other, hspot, hother, hkey⟩ | ⟨gap, hgap, hspot, hbelow, habove⟩
    · exact absurd (hle.trans hsize) (Nat.not_le_of_lt hmany)
    · obtain rfl : other = item := hkeys.unique
        (mem_inorder_of_mem_items hload (List.mem_of_getElem? hother)) hitem hkey
      rw [hspot]
      exact ⟨⟨node, above⟩, i, rfl, hother, fun stored =>
        ⟨_, hmem.alters_item hshape hother stored, rfl⟩⟩
    · rw [hspot]
      simp only [Option.bind_eq_bind, Option.bind_some]
      have hmember : item.1 ∈ (inorder view height node).map Prod.fst := List.mem_map_of_mem hitem
      cases height with
      | zero =>
        have hitems : inorder view 0 node = node.items.take gap ++ [] ++ node.items.drop gap := by
          rw [inorder, hload, List.append_nil, List.take_append_drop]
        rw [hitems, mem_keys_within hbelow habove] at hmember
        exact absurd hmember List.not_mem_nil
      | succ height =>
        have hbranch := hmem.branch hshape
        obtain ⟨left, child, right, front, back, hwindow⟩ := hbranch.window_one hgap
        have hitems : node.items = front ++ back := by rw [hwindow.items, List.append_nil]
        rw [take_left hitems hwindow.front] at hbelow
        rw [drop_left hitems hwindow.front] at habove
        have hchild := (hbranch.below child (hwindow.mem List.mem_cons_self)).2
        have hnumber := (numbered_cons.mp (hwindow.numbered_mid hbranch)).1
        have hkeysChild := hwindow.ascending_mid hload hkeys
        have hall : inorder view (height + 1) node = _ := hwindow.inorder hload
        rw [List.map_singleton, weave_one] at hkeysChild hall
        rw [hall, mem_keys_within (hwindow.below_left hload hkeys hbelow)
          (hwindow.above_right hload hkeys habove)] at hmember
        obtain ⟨other, hother, hkey⟩ := List.mem_map.mp hmember
        obtain rfl : other = item := hkeys.unique
          (by rw [hall]; exact List.mem_append_left _ (List.mem_append_right _ hother)) hitem hkey
        obtain ⟨place, i, hsearch, hplace, hchange⟩ := ih (node :: above) hchild
          hkeysChild hother (Nat.lt_of_succ_lt_succ hfuel)
        have hdown : (⟨node, above⟩ : Place).child store gap = some (store, ⟨child, node :: above⟩) := by
          unfold Place.child
          simp only [hmem.loadChild store hshape hgap, hwindow.child_eq, Option.bind_eq_bind,
            Option.bind_some]
        rw [if_neg (by rw [hbranch.inner]; exact Bool.false_ne_true), hdown, Option.bind_some]
        refine ⟨place, i, hsearch, hplace, fun stored => ?_⟩
        obtain ⟨child', halters, hplug⟩ := hchange stored
        refine ⟨_, halters.parent hmem hshape hwindow, ?_⟩
        rw [hplug, BtreeNode.plug, halters.childNo, hnumber, hwindow.set_child]

end Alters

section Stays

variable {store' : Store} {place place' : Place} {spot : Spot} {locn locn' : Cursor} {key : Key}
  {root : BtreeNode} {count depth : Nat} {db next : Btreedb} {more found : Bool}

private theorem loadChild_stays (hcall : loadChild store node i = some (store', node')) :
    store.Stays store' := by
  unfold loadChild at hcall
  split at hcall
  · cases hcall
  · obtain ⟨child, -, hrest⟩ := Option.bind_eq_some_iff.mp hcall
    dsimp only at hrest
    split at hrest
    · cases hrest
      exact Store.Stays.refl _
    · obtain ⟨out, -, hresult⟩ := Option.bind_eq_some_iff.mp hrest
      cases hresult
      exact ⟨rfl, rfl⟩

private theorem child_stays (hcall : place.child store i = some (store', place')) :
    store.Stays store' := by
  obtain ⟨out, hload, hrest⟩ := Option.bind_eq_some_iff.mp hcall
  obtain ⟨child, -, hresult⟩ := Option.bind_eq_some_iff.mp hrest
  cases hresult
  exact loadChild_stays hload

private theorem descend_stays {pick : BtreeNode → Nat}
    (hcall : place.descend pick depth store = some (store', place')) : store.Stays store' := by
  induction depth generalizing store place with
  | zero => cases hcall
  | succ depth ih =>
    rw [Place.descend] at hcall
    split at hcall
    · cases hcall
      exact Store.Stays.refl _
    · obtain ⟨out, hchild, hrest⟩ := Option.bind_eq_some_iff.mp hcall
      exact (child_stays hchild).trans (ih hrest)

private theorem loadFrom_stays (hcall : loadFrom count i store node = some (store', node')) :
    store.Stays store' := by
  induction count generalizing i store node with
  | zero =>
    cases hcall
    exact Store.Stays.refl _
  | succ count ih =>
    obtain ⟨out, hload, hrest⟩ := Option.bind_eq_some_iff.mp hcall
    exact (loadChild_stays hload).trans (ih hrest)

private theorem prefetch_stays (hcall : prefetch store node = some (store', node')) :
    store.Stays store' := by
  unfold prefetch at hcall
  split at hcall
  · exact loadFrom_stays hcall
  · cases hcall

private theorem seqNext_stays (hcall : seqNext depth store root locn = some (store', locn', more)) :
    store.Stays store' := by
  unfold seqNext at hcall
  split at hcall
  · obtain ⟨out, hdescend, hrest⟩ := Option.bind_eq_some_iff.mp hcall
    dsimp only at hrest
    split at hrest
    · cases hrest
    · obtain ⟨ahead, hload, hresult⟩ := Option.bind_eq_some_iff.mp hrest
      cases hresult
      exact (descend_stays hdescend).trans (prefetch_stays hload)
  · dsimp only at hcall
    split at hcall
    · split_ifs at hcall
      · cases hcall
        exact Store.Stays.refl _
      · split at hcall
        all_goals
          cases hcall
          exact Store.Stays.refl _
      · cases hcall
        exact Store.Stays.refl _
    · obtain ⟨child, hchild, hrest⟩ := Option.bind_eq_some_iff.mp hcall
      obtain ⟨out, hdescend, hafter⟩ := Option.bind_eq_some_iff.mp hrest
      have hstays := (child_stays hchild).trans (descend_stays hdescend)
      split at hafter
      · cases hafter
        exact hstays
      · obtain ⟨ahead, hload, hresult⟩ := Option.bind_eq_some_iff.mp hafter
        cases hresult
        exact hstays.trans (prefetch_stays hload)

private theorem searchInto_stays {cmp : Key → Key → Ordering}
    (hcall : searchInto cmp key depth store place = some (store', place', spot)) :
    store.Stays store' := by
  induction depth generalizing store place with
  | zero => cases hcall
  | succ depth ih =>
    rw [searchInto] at hcall
    obtain ⟨here, -, hrest⟩ := Option.bind_eq_some_iff.mp hcall
    cases here with
    | found i =>
      cases hrest
      exact Store.Stays.refl _
    | gap low =>
      dsimp only at hrest
      split at hrest
      · cases hrest
        exact Store.Stays.refl _
      · obtain ⟨out, hchild, hbelow⟩ := Option.bind_eq_some_iff.mp hrest
        exact (child_stays hchild).trans (ih hbelow)

theorem search_stays {cmp : Key → Key → Ordering}
    (hcall : db.search_ cmp key = some (next, locn, found)) :
    next.root = db.root ∧ db.store.Stays next.store := by
  obtain ⟨⟨store, place, spot⟩, hsearch, hrest⟩ := Option.bind_eq_some_iff.mp hcall
  have hstays := searchInto_stays hsearch
  cases spot with
  | found i =>
    cases hrest
    exact ⟨rfl, hstays⟩
  | gap low =>
    dsimp only at hrest
    split at hrest
    · obtain ⟨⟨after, locn', more⟩, hseq, hresult⟩ := Option.bind_eq_some_iff.mp hrest
      cases hresult
      unfold Btreedb.seq_ at hseq
      split at hseq
      · cases hseq
        exact ⟨rfl, hstays⟩
      · obtain ⟨out, hmove, hlast⟩ := Option.bind_eq_some_iff.mp hseq
        cases hlast
        rw [if_pos rfl] at hmove
        exact ⟨rfl, hstays.trans (seqNext_stays hmove)⟩
    · cases hrest
      exact ⟨rfl, hstays⟩

end Stays

end Libsax.Btree
