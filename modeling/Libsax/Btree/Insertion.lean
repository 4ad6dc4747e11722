import Libsax.Btree.MakeRoom

/-! Insertion into a tree: the loop from the root down to a leaf, and the growth at the
root. -/
namespace Libsax.Btree

open Libsax.Lib
open Libsax.Db (Key Value)

variable {cmp : Key → Key → Ordering} {delaySplit : Bool} {view : View}
  {store store' : Store} {node node' root child : BtreeNode} {height least fuel i : Nat}
  {left right : List BtreeNode} {front back : List Item} {item : Item}

/-- What an insertion answers, and what it makes of the records. -/
inductive Answer (cmp : Key → Key → Ordering) (item : Item) (before after : List Item)
    (count count' : Nat) : Bool → Prop where
  | inserted (hinserted : Inserted cmp item before after) (hcount : count' = count + 1) :
      Answer cmp item before after count count' true
  | present (hsame : after = before) (hpresent : ∃ other ∈ before, other.1 = item.1)
      (hcount : count' = count) : Answer cmp item before after count count' false

def Narrow (view : View) : Nat → BtreeNode → Prop
  | 0, node => (view.load node).objCount ≤ 2 ^ 30
  | height + 1, node =>
    (view.load node).objCount ≤ 2 ^ 30 ∧ ∀ child ∈ (view.load node).children,
      Narrow view height child

theorem Narrow.objCount_le (hnarrow : Narrow view height node) :
    (view.load node).objCount ≤ 2 ^ 30 := by
  cases height with
  | zero => exact hnarrow
  | succ height => exact hnarrow.1

theorem Shape.narrow (hmax : view.maxKeys ≤ 2 ^ 30) (hshape : Shape view height least node) :
    Narrow view height node := by
  induction height generalizing node least with
  | zero => exact hshape.le.trans hmax
  | succ height ih =>
    exact ⟨hshape.le.trans hmax, fun child hchild => ih (hshape.1.below child hchild).2⟩

theorem ascending_items (hload : view.load node = node)
    (hkeys : Ascending cmp (inorder view height node)) : Ascending cmp node.items := by
  cases height with
  | zero =>
    rw [inorder, hload] at hkeys
    exact hkeys
  | succ height =>
    rw [inorder, hload] at hkeys
    exact hkeys.sublist (items_sublist_weave _ _)

/-- Where a node without records may be gone through: at a child that need not be
split into three. -/
def Spare (view : View) (delaySplit : Bool) (node : BtreeNode) : Prop :=
  1 ≤ node.objCount ∨ ∀ child ∈ node.children, (view.load child).objCount < view.maxKeys ∨
    (!(view.load child).isLeaf || !delaySplit) = true

/-- A call ends, and all is kept. -/
def Inserts (cmp : Key → Key → Ordering) (view : View) (height least : Nat) (item : Item)
    (store : Store) (node : BtreeNode) (result : Option (Store × BtreeNode × Bool)) : Prop :=
  ∃ store' node' inserted, result = some (store', node', inserted) ∧
    Kept view height least store node store' node' ∧
    Answer cmp item (inorder view height node) (inorder view height node') store.sfh.numItems
      store'.sfh.numItems inserted

private theorem leaf_inserts (hfits : view.Fits store) (hnode : node.isLoaded = true)
    (hshape : Shape view 0 least node) (hroom : node.objCount < view.maxKeys) {gap : Nat}
    (hbelow : Below cmp item.1 (node.items.take gap))
    (habove : Above cmp item.1 (node.items.drop gap)) :
    Inserts cmp view 0 least item store node (some (store.countItem,
      { node with
        isDirty := true
        items := node.items.take gap ++ item :: node.items.drop gap }, true)) := by
  have hload := hfits.loaded node hnode
  have hbottom := hfits.bottom hnode hshape
  have hload' := hfits.loaded { node with
    isDirty := true
    items := node.items.take gap ++ item :: node.items.drop gap } hnode
  have hplace := inserted_between hbelow habove
  have hlength := hplace.length
  rw [List.take_append_drop] at hplace hlength
  have hkept : Kept view 0 least store node store { node with
      isDirty := true
      items := node.items.take gap ++ item :: node.items.drop gap } := by
    refine ⟨Store.Leads.refl store, hnode, rfl, rfl, Or.inl rfl, ?_, ?_⟩
    · obtain ⟨-, hleast, -⟩ := hshape
      rw [hload] at hleast
      unfold Shape
      rw [hload']
      refine ⟨⟨hnode, hbottom.leaf, hbottom.childless⟩, ?_, ?_⟩
      · exact hleast.trans (Nat.le_succ _ |>.trans (Nat.le_of_eq hlength.symm))
      · exact (Nat.le_of_eq hlength).trans hroom
    · intro _ others hsettled
      rw [extents, hload'] 
      rw [extents, hload] at hsettled
      exact hsettled
  refine ⟨_, _, true, rfl, hkept.countItem, .inserted ?_ rfl⟩
  rw [inorder, inorder, hload, hload']
  exact hplace

private theorem descend_inserts [Std.TransCmp cmp] (hfits : view.Fits store)
    (hmax : 6 ≤ view.maxKeys)
    (hnode : node.isLoaded = true) (hshape : Shape view (height + 1) least node)
    (hkeys : Ascending cmp (inorder view (height + 1) node))
    (hwindow : Window node i left [child] right front [] back) (hchild : child.isLoaded = true)
    (hbelow : Below cmp item.1 front) (habove : Above cmp item.1 back)
    {result : Option (Store × BtreeNode × Bool)} {undefined : Prop}
    (hinserts : Shape view height (view.maxKeys / 3 - 1) child → 1 ≤ child.objCount →
      Ascending cmp (inorder view height child) →
        Inserts cmp view height (view.maxKeys / 3 - 1) item store child result ∨
          result = none ∧ undefined) :
    Inserts cmp view (height + 1) least item store node (result.bind fun out =>
        some (out.1, { node with children := node.children.set i out.2.1 }, out.2.2)) ∨
      (result.bind fun out => some (out.1,
        { node with children := node.children.set i out.2.1 }, out.2.2)) = none ∧ undefined := by
  have hload := hfits.loaded node hnode
  have hshapeChild := ((hfits.branch hnode hshape).below child (hwindow.mem List.mem_cons_self)).2
  have hleast := hshapeChild.least_le
  rw [hfits.loaded child hchild] at hleast
  have hkeysChild := hwindow.ascending_mid hload hkeys
  rw [List.map_singleton, weave_one] at hkeysChild
  rcases hinserts hshapeChild (by omega) hkeysChild with hinserts | ⟨rfl, hundefined⟩
  swap
  · exact Or.inr ⟨rfl, hundefined⟩
  obtain ⟨store', child', inserted, rfl, hkept, hanswer⟩ := hinserts
  obtain ⟨hkeptNode, hwindow'⟩ := hkept.above hfits hnode hshape hwindow hchild
  have hload' := hfits.loaded { node with children := left ++ [child'] ++ right } hnode
  rw [Option.bind_some, hwindow.set_child]
  refine Or.inl ⟨store', _, inserted, rfl, hkeptNode, ?_⟩
  cases hanswer with
  | inserted hinserted hcount =>
    refine .inserted (hwindow.inserted hwindow' hload hload' rfl hkeys hbelow habove ?_) hcount
    rw [List.map_singleton, List.map_singleton, weave_one, weave_one]
    exact hinserted
  | present hsame hpresent hcount =>
    refine .present (hwindow.same hwindow' hload hload' rfl ?_) ?_ hcount
    · rw [List.map_singleton, List.map_singleton, weave_one, weave_one, hsame]
    · obtain ⟨other, hother, hkey⟩ := hpresent
      refine ⟨other, hwindow.mem_inorder hload ?_, hkey⟩
      rwa [List.map_singleton, weave_one]

theorem Inserts.after {result : Option (Store × BtreeNode × Bool)}
    (hkept : Kept view height least store node store' node')
    (hsame : inorder view height node' = inorder view height node)
    (hcount : store'.sfh.numItems = store.sfh.numItems)
    (hinserts : Inserts cmp view height least item store' node' result) :
    Inserts cmp view height least item store node result := by
  obtain ⟨store'', node'', inserted, hresult, hlater, hanswer⟩ := hinserts
  exact ⟨store'', node'', inserted, hresult, hkept.trans hlater, hsame ▸ hcount ▸ hanswer⟩

theorem Narrow.congr (hnarrow : Narrow view height node)
    (hload : view.load node' = view.load node) : Narrow view height node' := by
  cases height with
  | zero =>
    unfold Narrow
    rw [hload]
    exact hnarrow
  | succ height =>
    unfold Narrow
    rw [hload]
    exact hnarrow

theorem mem_inorder_of_mem_items (hload : view.load node = node) (hitem : item ∈ node.items) :
    item ∈ inorder view height node := by
  cases height with
  | zero =>
    rw [inorder, hload]
    exact hitem
  | succ height =>
    rw [inorder, hload]
    exact mem_weave_of_mem_items hitem

private theorem makeRoom_free (hwindow : Window node i left [child] right front [] back)
    (hmax : store.sfh.maxKeys = view.maxKeys) (hroom : child.objCount < view.maxKeys) :
    makeRoom cmp delaySplit store node i item = some (store, node, .down i) := by
  unfold makeRoom
  rw [hwindow.child_eq]
  simp only [Option.bind_eq_bind, Option.bind_some, hmax]
  rw [if_pos hroom]

section Insertion

variable [Std.TransCmp cmp] [Std.LawfulEqCmp cmp]

/-- An insertion into a node that is not full ends, unless the indexes of the search overflow. -/
theorem insertInto_inserts (hfits : view.Fits store) (hmax : 6 ≤ view.maxKeys)
    (hnode : node.isLoaded = true) (hshape : Shape view height least node)
    (hspare : height ≠ 0 → Spare view delaySplit node) (hroom : node.objCount < view.maxKeys)
    (hkeys : Ascending cmp (inorder view height node)) (hfuel : height < fuel) :
    Inserts cmp view height least item store node
        (insertInto cmp delaySplit fuel store node item) ∨
      insertInto cmp delaySplit fuel store node item = none ∧ ¬ Narrow view height node := by
  induction fuel generalizing height store node least with
  | zero => exact absurd hfuel (Nat.not_lt_zero _)
  | succ fuel ih =>
    have hload := hfits.loaded node hnode
    unfold insertInto
    rcases spot_cases (ascending_items hload hkeys) item.1 with
      ⟨hspot, hmany⟩ | ⟨i, other, hspot, hother, hkey⟩ | ⟨gap, hgap, hspot, hbelow, habove⟩
    · rw [hspot]
      refine Or.inr ⟨rfl, fun hnarrow => ?_⟩
      have hfew := hnarrow.objCount_le
      rw [hload] at hfew
      exact absurd hfew (Nat.not_le_of_lt hmany)
    · rw [hspot]
      exact Or.inl ⟨store, node, false, rfl, Kept.refl hnode hshape, .present rfl
        ⟨other, mem_inorder_of_mem_items hload (List.mem_of_getElem? hother), hkey⟩ rfl⟩
    · rw [hspot]
      simp only [Option.bind_eq_bind, Option.bind_some]
      cases height with
      | zero =>
        rw [if_pos (hfits.bottom hnode hshape).leaf]
        exact Or.inl (leaf_inserts hfits hnode hshape hroom hbelow habove)
      | succ height =>
        have hless := Nat.lt_of_succ_lt_succ hfuel
        have hbranch := hfits.branch hnode hshape
        obtain ⟨left, child, right, front, back, hwindow⟩ := hbranch.window_one hgap
        have hitems : node.items = front ++ back := by rw [hwindow.items, List.append_nil]
        rw [take_left hitems hwindow.front] at hbelow
        rw [drop_left hitems hwindow.front] at habove
        have hmem : child ∈ node.children := hwindow.mem List.mem_cons_self
        have hchild := (hbranch.below child hmem).2
        have hnarrowChild : Narrow view (height + 1) node →
            Narrow view height (view.load child) := by
          intro hnarrow
          have hall := hnarrow.2
          rw [hload] at hall
          exact (hall child hmem).congr (hfits.load_load hchild)
        rw [if_neg (by rw [hbranch.inner]; exact Bool.false_ne_true)]
        obtain ⟨store', hcall, hsfh, hkept, hsame, hwindow'⟩ :=
          load_kept hfits hnode hshape hwindow
        generalize hnew : ({ node with
          children := left ++ [view.load child] ++ right } : BtreeNode) = node' at *
        rw [hcall]
        simp only [Option.bind_some]
        have hfits' := hfits.leads hkept.leads
        rw [← hsame] at hkeys
        by_cases hfree : (view.load child).objCount < view.maxKeys
        · rw [makeRoom_free hwindow' hfits'.maxKeys hfree]
          simp only [Option.bind_some, hwindow'.child_eq]
          exact (descend_inserts hfits' hmax hkept.loaded hkept.shape hkeys hwindow'
            hchild.loaded hbelow habove fun hshape hone hkeys =>
              ih hfits' hchild.loaded hshape (fun _ => .inl hone) hfree hkeys hless).imp
            (Inserts.after hkept hsame (by rw [hsfh])) (And.imp_right (mt hnarrowChild))
        · have hfull := Nat.le_antisymm hchild.le (Nat.le_of_not_lt hfree)
          have hfew : Narrow view (height + 1) node → view.maxKeys ≤ 2 ^ 30 := by
            intro hnarrow
            rw [← hfull, ← hfits.load_load hchild]
            exact (hnarrowChild hnarrow).objCount_le
          have hroom' : node'.objCount < view.maxKeys := by
            rw [← hnew]
            exact hroom
          have hspare' : 1 ≤ node'.objCount ∨ (view.load child).objCount < view.maxKeys ∨
              (!(view.load child).isLeaf || !delaySplit) = true := by
            rw [← hnew]
            exact (hspare (Nat.succ_ne_zero height)).imp_right fun hall => hall child hmem
          obtain ⟨store'', node'', route, hresult, hkept', houtcome⟩ := makeRoom_makes hfits' hmax
            hkept.loaded hkept.shape hroom' hkeys hwindow' hchild.loaded hspare' hbelow habove
          rw [hresult]
          simp only [Option.bind_some]
          cases houtcome with
          | inserted hinserted hcount =>
            exact Or.inl (Inserts.after hkept hsame (by rw [hsfh])
              ⟨store'', node'', true, rfl, hkept', .inserted hinserted hcount⟩)
          | present hsame' hpresent hcount =>
            exact Or.inl (Inserts.after hkept hsame (by rw [hsfh])
              ⟨store'', node'', false, rfl, hkept', .present hsame' hpresent hcount⟩)
          | below hsame' hcount hwindow'' hchild'' hroom'' hbelow'' habove'' =>
            have hfits'' := hfits'.leads hkept'.leads
            have hkeptAll := hkept.trans hkept'
            have hsameAll := hsame'.trans hsame
            rw [← hsame'] at hkeys
            simp only [hwindow''.child_eq, Option.bind_some]
            refine (descend_inserts hfits'' hmax hkept'.loaded hkept'.shape hkeys hwindow''
              hchild'' hbelow'' habove'' fun hshape hone hkeys =>
                (ih hfits'' hchild'' hshape (fun _ => .inl hone) hroom'' hkeys hless).imp_right
                  (And.imp_right fun hwide hnarrow => hwide (hshape.narrow (hfew hnarrow)))).imp_left
              (Inserts.after hkeptAll hsameAll (by rw [hcount, hsfh]))

end Insertion

/-- A tree with room at the root, and the records it had. -/
structure Grown (view : View) (height : Nat) (store : Store) (root : BtreeNode) (height' : Nat)
    (store' : Store) (root' : BtreeNode) : Prop where
  leads : store.Leads store'
  loaded : root'.isLoaded = true
  shape : Shape view height' (min 1 height') root'
  room : root'.objCount < view.maxKeys
  same : inorder view height' root' = inorder view height root
  count : store'.sfh.numItems = store.sfh.numItems
  pages : height' + store.sfh.nPages ≤ height + store'.sfh.nPages
  narrow : Narrow view height root → Narrow view height' root'
  free : root.objCount < view.maxKeys → height' = height
  settled : store'.sfh.fileEnd < 2 ^ 63 → ∀ others,
    Settled store.sfh (extents view height root ++ others) →
      Settled store'.sfh (extents view height' root' ++ others)

def aboveRoot (store : Store) (root : BtreeNode) : BtreeNode :=
  { (allocateNode store).2 with isLeaf := false, children := [{ root with childNo := 0 }] }

theorem growRoot_grown (hfits : view.Fits store) (hmax : 6 ≤ view.maxKeys)
    (hroot : root.isLoaded = true) (hgood : view.good root)
    (hshape : Shape view height (min 1 height) root) :
    ∃ store' root' height', growRoot store root = some (store', root') ∧
      Grown view height store root height' store' root' := by
  have hload := hfits.loaded root hroot
  have hle := hshape.le
  rw [hload] at hle
  unfold growRoot
  by_cases hroom : root.objCount < view.maxKeys
  · rw [if_neg (by rw [hfits.maxKeys]; exact Nat.not_le_of_lt hroom)]
    exact ⟨store, root, height, rfl, Store.Leads.refl store, hroot, hshape, hroom, rfl, rfl,
      le_refl _, id, fun _ => rfl, fun _ _ hsettled => hsettled⟩
  · have hfull : root.objCount = view.maxKeys := Nat.le_antisymm hle (Nat.le_of_not_lt hroom)
    have hunder : Under view height { root with childNo := 0 } := by
      refine hfits.under_renumber ⟨by rw [hload]; exact hgood, hshape.weaken ?_⟩ 0
      rw [hload]
      omega
    have hbranch : Branch (Under view height) (aboveRoot store root) := by
      refine ⟨rfl, rfl, rfl, numbered_cons.mpr ⟨rfl, numbered_nil _⟩, fun child hchild => ?_⟩
      rw [List.mem_singleton.mp hchild]
      exact hunder
    generalize hold : ({ root with childNo := 0 } : BtreeNode) = old at hunder
    have hloadedOld : old.isLoaded = true := hold ▸ hroot
    have hfullOld : old.objCount = view.maxKeys := hold ▸ hfull
    have hsizeOld : old.items.length = view.maxKeys := hfullOld
    have hnumber : old.childNo = 0 := hold ▸ rfl
    have hwindow : Window (aboveRoot store root) 0 [] [old] [] [] [] [] :=
      ⟨congrArg (fun child => [child]) hold, rfl, rfl, rfl, rfl, rfl⟩
    obtain ⟨saved, hsaved⟩ : ∃ saved, old.items[old.objCount / 2]? = some saved :=
      ⟨_, List.getElem?_eq_getElem (by omega)⟩
    have hleads := Store.Leads.allocate store
    have hfits' := hfits.leads hleads
    have hsplit := split_eq (allocateNode store).1 hwindow hsaved
    have hexchange := @split_exchange _ (allocateNode store).1 _ _ _ 0 hfits' hloadedOld hunder.2
      hmax hfullOld hnumber saved
    generalize hnew : ({ aboveRoot store root with
      isDirty := true
      items := [] ++ [saved] ++ []
      children := [] ++ [lowerHalf old, upperHalf (allocateNode store).1 0 old] ++
        BtreeNode.numbered (0 + 2) [] } : BtreeNode) = root' at hsplit
    have hwindow' : Window root' 0 [] [lowerHalf old, upperHalf (allocateNode store).1 0 old]
        [] [] [saved] [] := by
      subst hnew
      exact hwindow.replace rfl rfl rfl rfl
    have hone : root'.objCount = 1 := hwindow'.objCount
    have hkept := hexchange.kept hfits' hbranch hwindow hwindow' (by subst hnew; rfl)
      (Nat.le_of_eq hone.symm) (by omega)
    refine ⟨(allocateNode (allocateNode store).1).1, root', height + 1, ?_,
      hleads.trans hkept.leads, hkept.loaded, ?_, by omega, ?_, rfl, ?_, fun hnarrow => ?_,
      fun hfree => absurd hfree hroom, ?_⟩
    · rw [if_pos (by rw [hfits.maxKeys]; exact Nat.le_of_eq hfull.symm)]
      rw [aboveRoot, hold] at hsplit
      exact hsplit
    · rw [Nat.min_eq_left (Nat.le_add_left 1 height)]
      exact hkept.shape
    · have hsame : inorder view height old = inorder view height root :=
        hold ▸ hfits.inorder_renumber 0
      have hhalves := @split_inorder _ _ _ _ _ 0 _ hfits' hloadedOld hunder.2 hsaved
      rw [hwindow'.inorder (hfits.loaded root' hkept.loaded), ← hsame, ← hhalves]
      simp
    · show height + 1 + store.sfh.nPages ≤ height + (store.sfh.nPages + 1 + 1)
      omega
    · have hfew := hnarrow.objCount_le
      rw [hload, hfull] at hfew
      exact hkept.shape.narrow hfew
    · intro hend others hsettled
      have hsame : extents view height old = extents view height root :=
        hold ▸ hfits.extents_renumber 0
      refine hkept.settled hend others ?_
      have hfresh := hsettled.allocate (Nat.lt_of_le_of_lt hkept.leads.fileEnd_le hend)
      have hown : (aboveRoot store root).own = [(toLong store.sfh.fileEnd, 1)] := rfl
      rw [hwindow.extents (hfits.loaded _ rfl)]
      simpa [hsame, hown] using hfresh

end Libsax.Btree
