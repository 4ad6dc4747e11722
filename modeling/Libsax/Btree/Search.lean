import Libsax.Btree.Window

/-! The search in a node, and the loading of its children. -/
namespace Libsax.Btree

open Libsax.Lib
open Libsax.Db (Key Value)

variable {cmp : Key → Key → Ordering} {store store' : Store} {node : BtreeNode}

section Search

variable [Std.TransCmp cmp] [Std.LawfulEqCmp cmp]

/-- What the indexes of the search enclose. They leave the range of an `int` only where
there are many records. -/
private theorem bisect_spec {items : List Item} (hitems : Ascending cmp items) (key : Key)
    {fuel low stop : Nat} (hfuel : stop < fuel + low) (hlow : low ≤ stop)
    (hstop : stop ≤ items.length) (hbelow : Below cmp key (items.take low))
    (habove : Above cmp key (items.drop stop)) :
    (bisect cmp key items fuel low (stop - 1) = none ∧ 2 ^ 30 < items.length) ∨
    (∃ i item, bisect cmp key items fuel low (stop - 1) = some (.found i) ∧
      items[i]? = some item ∧ item.1 = key) ∨
    ∃ gap ≤ items.length, bisect cmp key items fuel low (stop - 1) = some (.gap gap) ∧
      Below cmp key (items.take gap) ∧ Above cmp key (items.drop gap) := by
  induction fuel generalizing low stop with
  | zero => omega
  | succ fuel ih =>
    unfold bisect
    by_cases hmore : low < stop
    · rw [if_pos (by omega)]
      by_cases hrange : (low : Int) + (stop - 1) < 2 ^ 31
      · obtain ⟨mid, hmid⟩ : ∃ mid : Nat, ((low : Int) + (stop - 1)) / 2 = mid :=
          ⟨(low + (stop - 1)) / 2, by omega⟩
        have hlt : mid < items.length := by omega
        have hsplit : items = items.take mid ++ items[mid] :: items.drop (mid + 1) := by
          rw [List.getElem_cons_drop, List.take_append_drop]
        rw [if_pos hrange]
        simp only [hmid, Int.toNat_natCast, List.getElem?_eq_getElem hlt, Option.bind_eq_bind,
          Option.bind_some]
        rw [hsplit] at hitems
        obtain ⟨-, hbelowMid, haboveMid, -, -⟩ := Ascending.middle_iff.mp hitems
        cases hcmp : cmp key items[mid].1 with
        | eq =>
          exact Or.inr (Or.inl ⟨mid, items[mid], rfl, List.getElem?_eq_getElem hlt,
            (Std.LawfulEqCmp.eq_of_compare hcmp).symm⟩)
        | lt =>
          have hsmaller : Above cmp key (items.drop mid) := by
            rw [← List.getElem_cons_drop hlt]
            exact Above.cons_iff.mpr ⟨hcmp, haboveMid.trans hcmp⟩
          have hfirst := @ih low mid (by omega) (by omega) (by omega) hbelow hsmaller
          exact hfirst
        | gt =>
          have hlater : cmp items[mid].1 key = .lt := Std.OrientedCmp.lt_of_gt hcmp
          have hgreater : Below cmp key (items.take (mid + 1)) := by
            rw [List.take_add_one, List.getElem?_eq_getElem hlt]
            exact Below.append_iff.mpr ⟨hbelowMid.trans hlater,
              Below.cons_iff.mpr ⟨hlater, below_nil⟩⟩
          have hlast := @ih (mid + 1) stop (by omega) (by omega) hstop hgreater habove
          rwa [Nat.cast_add_one] at hlast
      · rw [if_neg hrange]
        exact Or.inl ⟨rfl, by omega⟩
    · have hsame : stop = low := by omega
      rw [if_neg (by omega), Int.toNat_natCast]
      rw [hsame] at habove
      exact Or.inr (Or.inr ⟨low, by omega, rfl, hbelow, habove⟩)

theorem spot_cases {items : List Item} (hitems : Ascending cmp items) (key : Key) :
    (spot cmp key items = none ∧ 2 ^ 30 < items.length) ∨
    (∃ i item, spot cmp key items = some (.found i) ∧ items[i]? = some item ∧ item.1 = key) ∨
    ∃ gap ≤ items.length, spot cmp key items = some (.gap gap) ∧
      Below cmp key (items.take gap) ∧ Above cmp key (items.drop gap) := by
  have hsearch := bisect_spec hitems key (Nat.lt_succ_self items.length) (Nat.zero_le _)
    (Nat.le_refl _) (by rw [List.take_zero]; exact below_nil)
    (by rw [List.drop_length]; exact above_nil)
  exact hsearch

end Search

/-- Pages are handed out and records counted; the file stays as it is. -/
structure Store.Leads (store store' : Store) : Prop where
  file : store'.file = store.file
  sfh : store'.sfh =
    { store.sfh with numItems := store'.sfh.numItems, nPages := store'.sfh.nPages }
  nPages : store.sfh.nPages ≤ store'.sfh.nPages

namespace Store.Leads

theorem refl (store : Store) : store.Leads store := ⟨rfl, rfl, Nat.le_refl _⟩

theorem active (store : Store) (activeNodeNum : Nat) :
    store.Leads { store with activeNodeNum := activeNodeNum } := ⟨rfl, rfl, Nat.le_refl _⟩

theorem count (store : Store) : store.Leads store.countItem := ⟨rfl, rfl, Nat.le_refl _⟩

theorem allocate (store : Store) : store.Leads (allocateNode store).1 :=
  ⟨rfl, rfl, Nat.le_succ _⟩

theorem trans {store'' : Store} (hfirst : store.Leads store') (hsecond : store'.Leads store'') :
    store.Leads store'' where
  file := hsecond.file.trans hfirst.file
  sfh := by
    rw [hsecond.sfh, hfirst.sfh]
  nPages := hfirst.nPages.trans hsecond.nPages

section

variable (hleads : store.Leads store')
include hleads

theorem maxKeys : store'.sfh.maxKeys = store.sfh.maxKeys := by rw [hleads.sfh]

theorem pageSize : store'.sfh.pageSize = store.sfh.pageSize := by rw [hleads.sfh]

theorem oPages : store'.sfh.oPages = store.sfh.oPages := by rw [hleads.sfh]

theorem fileEnd_le : store.sfh.fileEnd ≤ store'.sfh.fileEnd := by
  unfold CbFileHeader.fileEnd
  rw [hleads.pageSize, hleads.oPages]
  exact Nat.add_le_add_left (Nat.mul_le_mul_left _ (Nat.add_le_add_right hleads.nPages _)) _

end

end Store.Leads

theorem BtreeNode.read_congr {header other : CbFileHeader} (hmax : other.maxKeys = header.maxKeys)
    (hpage : other.pageSize = header.pageSize) (file : ByteStore) (node : BtreeNode) :
    node.read other file = node.read header file := by
  unfold BtreeNode.read
  rw [hmax, hpage]

theorem View.Fits.leads {view : View} (hfits : view.Fits store) (hleads : store.Leads store') :
    view.Fits store' where
  maxKeys := hleads.maxKeys.trans hfits.maxKeys
  loaded := hfits.loaded
  read node hnot hloaded := by
    rw [hleads.file, BtreeNode.read_congr hleads.maxKeys hleads.pageSize]
    exact hfits.read node hnot hloaded
  fpos := hfits.fpos
  childNo := hfits.childNo
  dirty := hfits.dirty
  congr := hfits.congr

/-- At most the number of nodes in memory differs. -/
structure Store.Stays (store store' : Store) : Prop where
  file : store'.file = store.file
  sfh : store'.sfh = store.sfh

namespace Store.Stays

theorem refl (store : Store) : store.Stays store := ⟨rfl, rfl⟩

theorem active (store : Store) (activeNodeNum : Nat) :
    store.Stays { store with activeNodeNum := activeNodeNum } := ⟨rfl, rfl⟩

theorem trans {store'' : Store} (hfirst : store.Stays store') (hsecond : store'.Stays store'') :
    store.Stays store'' := ⟨hsecond.file.trans hfirst.file, hsecond.sfh.trans hfirst.sfh⟩

theorem leads (hstays : store.Stays store') : store.Leads store' where
  file := hstays.file
  sfh := by rw [hstays.sfh]
  nPages := Nat.le_of_eq (congrArg CbFileHeader.nPages hstays.sfh).symm

end Store.Stays

theorem View.Fits.stays {view : View} (hfits : view.Fits store) (hstays : store.Stays store') :
    view.Fits store' := hfits.leads hstays.leads

theorem BtreeNode.renumber_eq (node : BtreeNode) {childNo : Nat} (hsame : node.childNo = childNo) :
    { node with childNo := childNo } = node := by
  cases node
  rw [← hsame]

theorem View.Fits.childNo_load {view : View} (hfits : view.Fits store) (node : BtreeNode) :
    (view.load node).childNo = node.childNo := by
  have hsame := hfits.childNo node node.childNo
  rw [node.renumber_eq rfl] at hsame
  exact (congrArg BtreeNode.childNo hsame :)

theorem loadChild_eq {view : View} {below : BtreeNode → Prop} {left right : List BtreeNode}
    {child : BtreeNode} (hfits : view.Fits store) (hbranch : Branch below node)
    (hchildren : node.children = left ++ child :: right)
    (hloads : (view.load child).isLoaded = true) :
    ∃ activeNodeNum, loadChild store node left.length =
      some ({ store with activeNodeNum := activeNodeNum },
        { node with children := left ++ view.load child :: right }) := by
  have hchild : node.children[left.length]? = some child := by
    rw [hchildren, List.getElem?_append_right (Nat.le_refl _), Nat.sub_self]
    rfl
  have hnumber : child.childNo = left.length := by
    rw [hbranch.numbered _ child hchild, Nat.zero_add]
  have hsame : { child with childNo := left.length } = child := child.renumber_eq hnumber
  have hset : ∀ other, node.children.set left.length other = left ++ other :: right := by
    intro other
    rw [hchildren, List.set_append_right _ _ (Nat.le_refl _), Nat.sub_self]
    rfl
  unfold loadChild
  rw [if_neg (by rw [hbranch.inner]; exact Bool.false_ne_true), hchild]
  simp only [Option.bind_eq_bind, Option.bind_some, hsame, hset]
  cases hloaded : child.isLoaded with
  | true =>
    rw [hfits.loaded child hloaded]
    exact ⟨store.activeNodeNum, rfl⟩
  | false =>
    have hread := hfits.read child hloaded hloads
    simp only [hread]
    exact ⟨_, rfl⟩

theorem loadChild_same {below : BtreeNode → Prop} (hbranch : Branch below node) {i : Nat}
    {child : BtreeNode} (hchild : node.children[i]? = some child)
    (hloaded : child.isLoaded = true) (store : Store) :
    loadChild store node i = some (store, node) := by
  have hsame := child.renumber_eq ((hbranch.numbered i child hchild).trans (Nat.zero_add i))
  have hset : node.children.set i child = node.children := by
    obtain ⟨hlt, rfl⟩ := List.getElem?_eq_some_iff.mp hchild
    exact List.set_getElem_self hlt
  unfold loadChild
  rw [if_neg (by rw [hbranch.inner]; exact Bool.false_ne_true), hchild]
  simp only [Option.bind_eq_bind, Option.bind_some, hsame]
  rw [if_pos hloaded, hset]
  cases node
  rfl

/-- The node, with some of its children loaded. -/
def Loads (view : View) (node other : BtreeNode) : Prop :=
  ∃ children, other = { node with children := children } ∧
    children.map view.load = node.children.map view.load

namespace Loads

variable {view : View} {other third : BtreeNode} {height : Nat}

theorem refl (view : View) (node : BtreeNode) : Loads view node node := by
  cases node
  exact ⟨_, rfl, rfl⟩

theorem trans (hfirst : Loads view node other) (hsecond : Loads view other third) :
    Loads view node third := by
  obtain ⟨children, rfl, hchildren⟩ := hfirst
  obtain ⟨children', rfl, hchildren'⟩ := hsecond
  exact ⟨children', rfl, hchildren'.trans hchildren⟩

section

variable (hloads : Loads view node other)
include hloads

theorem isLoaded : other.isLoaded = node.isLoaded := by
  obtain ⟨children, rfl, -⟩ := hloads
  rfl

theorem isLeaf : other.isLeaf = node.isLeaf := by
  obtain ⟨children, rfl, -⟩ := hloads
  rfl

theorem childNo : other.childNo = node.childNo := by
  obtain ⟨children, rfl, -⟩ := hloads
  rfl

theorem items : other.items = node.items := by
  obtain ⟨children, rfl, -⟩ := hloads
  rfl

theorem objCount : other.objCount = node.objCount := congrArg List.length hloads.items

theorem children : other.children.map view.load = node.children.map view.load := by
  obtain ⟨children, rfl, hchildren⟩ := hloads
  exact hchildren

theorem length_children : other.children.length = node.children.length := by
  have hlength := congrArg List.length hloads.children
  rwa [List.length_map, List.length_map] at hlength

theorem child {i : Nat} {child : BtreeNode} (hchild : other.children[i]? = some child) :
    ∃ child', node.children[i]? = some child' ∧ view.load child = view.load child' := by
  have hmap := congrArg (fun children => children[i]?) hloads.children
  simp only [List.getElem?_map, hchild, Option.map_some] at hmap
  obtain ⟨child', hchild', hsame⟩ := Option.map_eq_some_iff.mp hmap.symm
  exact ⟨child', hchild', hsame.symm⟩

private theorem map_children {α : Type} {f : BtreeNode → α}
    (hf : ∀ {child child'}, view.load child = view.load child' → f child = f child') :
    other.children.map f = node.children.map f := by
  refine List.ext_getElem? fun i => ?_
  have hmap := congrArg (fun children => children[i]?) hloads.children
  simp only [List.getElem?_map] at hmap ⊢
  cases hchild : other.children[i]? with
  | none =>
    rw [hchild, Option.map_none, eq_comm, Option.map_eq_none_iff] at hmap
    rw [hmap]
  | some child =>
    obtain ⟨child', hchild', hsame⟩ := hloads.child hchild
    rw [hchild', Option.map_some, Option.map_some, hf hsame]

theorem inorder_children :
    other.children.map (inorder view height) = node.children.map (inorder view height) :=
  hloads.map_children fun hsame => inorder_congr (by rw [hsame]) (by rw [hsame])

theorem inorder_child {i : Nat} {child child' : BtreeNode} (hchild : other.children[i]? = some child)
    (hchild' : node.children[i]? = some child') (height : Nat) :
    inorder view height child = inorder view height child' := by
  obtain ⟨child'', hchild'', hsame⟩ := hloads.child hchild
  obtain rfl : child'' = child' := Option.some.inj (hchild''.symm.trans hchild')
  exact inorder_congr (by rw [hsame]) (by rw [hsame])

theorem branch (hfits : view.Fits store) {below : BtreeNode → Prop}
    (hbelow : ∀ {child child'}, view.load child = view.load child' → below child' → below child)
    (hbranch : Branch below node) : Branch below other where
  loaded := hloads.isLoaded.trans hbranch.loaded
  inner := hloads.isLeaf.trans hbranch.inner
  fanout := by rw [hloads.length_children, hloads.objCount, hbranch.fanout]
  numbered := by
    intro i child hchild
    obtain ⟨child', hchild', hsame⟩ := hloads.child hchild
    rw [← hfits.childNo_load child, hsame, hfits.childNo_load child']
    exact hbranch.numbered i child' hchild'
  below := by
    intro child hchild
    obtain ⟨i, hi⟩ := List.getElem?_of_mem hchild
    obtain ⟨child', hchild', hsame⟩ := hloads.child hi
    exact hbelow hsame (hbranch.below child' (List.mem_of_getElem? hchild'))

end

end Loads

theorem loadChild_loads {view : View} {below : BtreeNode → Prop} {i : Nat}
    (hfits : view.Fits store) (hbranch : Branch below node)
    (hbelow : ∀ child, below child → (view.load child).isLoaded = true) (hi : i ≤ node.objCount) :
    ∃ store' node' child, loadChild store node i = some (store', node') ∧ store.Stays store' ∧
      Loads view node node' ∧ node.children[i]? = some child ∧
        node'.children[i]? = some (view.load child) := by
  obtain ⟨left, child, right, front, back, hwindow⟩ := hbranch.window_one hi
  have hloaded := hbelow child (hbranch.below child (hwindow.mem List.mem_cons_self))
  obtain ⟨active, hcall⟩ := loadChild_eq hfits hbranch
    (hwindow.children.trans (List.append_assoc _ _ _)) hloaded
  rw [hwindow.left] at hcall
  refine ⟨_, _, child, hcall, Store.Stays.active store active, ⟨_, rfl, ?_⟩, hwindow.child_eq, ?_⟩
  · rw [hwindow.children]
    simp only [List.map_append, List.map_cons, hfits.loaded _ hloaded, List.append_assoc,
      List.cons_append, List.nil_append, List.append_eq]
  · show (left ++ view.load child :: right)[i]? = _
    rw [List.getElem?_append_right (Nat.le_of_eq hwindow.left), hwindow.left, Nat.sub_self]
    rfl

end Libsax.Btree
