import Libsax.Btree.Room

/-! Before an insertion goes down, room is made in the child: what the node is then, and
where the insertion goes on. -/
namespace Libsax.Btree

open Libsax.Lib
open Libsax.Db (Key Value)

variable {cmp : Key → Key → Ordering} {delaySplit : Bool} {view : View}
  {store store' : Store} {node node' child next : BtreeNode} {height least i : Nat}
  {left mid right newMid newRight : List BtreeNode} {front between back newBetween : List Item}
  {sep item : Item}

/-- How things stand when room was made. -/
inductive Outcome (cmp : Key → Key → Ordering) (view : View) (height : Nat) (item : Item)
    (store : Store) (node : BtreeNode) (store' : Store) (node' : BtreeNode) : Route → Prop where
  | inserted
      (hinserted : Inserted cmp item (inorder view (height + 1) node)
        (inorder view (height + 1) node'))
      (hcount : store'.sfh.numItems = store.sfh.numItems + 1) :
      Outcome cmp view height item store node store' node' (.done true)
  | present
      (hsame : inorder view (height + 1) node' = inorder view (height + 1) node)
      (hpresent : ∃ other ∈ inorder view (height + 1) node, other.1 = item.1)
      (hcount : store'.sfh.numItems = store.sfh.numItems) :
      Outcome cmp view height item store node store' node' (.done false)
  | below {i : Nat} {left right : List BtreeNode} {child : BtreeNode} {front back : List Item}
      (hsame : inorder view (height + 1) node' = inorder view (height + 1) node)
      (hcount : store'.sfh.numItems = store.sfh.numItems)
      (hwindow : Window node' i left [child] right front [] back)
      (hloaded : child.isLoaded = true) (hroom : child.objCount < view.maxKeys)
      (hbelow : Below cmp item.1 front) (habove : Above cmp item.1 back) :
      Outcome cmp view height item store node store' node' (.down i)

def Makes (cmp : Key → Key → Ordering) (view : View) (height least : Nat) (item : Item)
    (store : Store) (node : BtreeNode) (result : Option (Store × BtreeNode × Route)) : Prop :=
  ∃ store' node' route, result = some (store', node', route) ∧
    Kept view (height + 1) least store node store' node' ∧
    Outcome cmp view height item store node store' node' route

theorem Makes.after {result : Option (Store × BtreeNode × Route)}
    (hkept : Kept view (height + 1) least store node store' node')
    (hsame : inorder view (height + 1) node' = inorder view (height + 1) node)
    (hcount : store'.sfh.numItems = store.sfh.numItems)
    (hmakes : Makes cmp view height least item store' node' result) :
    Makes cmp view height least item store node result := by
  obtain ⟨store'', node'', route, hresult, hlater, houtcome⟩ := hmakes
  refine ⟨store'', node'', route, hresult, hkept.trans hlater, ?_⟩
  cases houtcome with
  | inserted hinserted hmore => exact .inserted (hsame ▸ hinserted) (by rw [hmore, hcount])
  | present heq hpresent hstill =>
    exact .present (heq.trans hsame) (hsame ▸ hpresent) (hstill.trans hcount)
  | below heq hstill hwindow hloaded hroom hbelow habove =>
    exact .below (heq.trans hsame) (hstill.trans hcount) hwindow hloaded hroom hbelow habove

namespace Window

theorem same (hold : Window node i left mid right front between back)
    (hnew : Window node' i left newMid newRight front newBetween back)
    (hload : view.load node = node) (hload' : view.load node' = node')
    (hright : newRight.map (Btree.inorder view height) = right.map (Btree.inorder view height))
    (hweave : weave (newMid.map (Btree.inorder view height)) newBetween =
      weave (mid.map (Btree.inorder view height)) between) :
    Btree.inorder view (height + 1) node' = Btree.inorder view (height + 1) node := by
  rw [hold.inorder hload, hnew.inorder hload', hright, hweave]

theorem mem_inorder (hold : Window node i left mid right front between back)
    (hload : view.load node = node) {other : Item}
    (hother : other ∈ weave (mid.map (Btree.inorder view height)) between) :
    other ∈ Btree.inorder view (height + 1) node := by
  rw [hold.inorder hload]
  exact List.mem_append_left _ (List.mem_append_right _ hother)

theorem ascending_mid (hold : Window node i left mid right front between back)
    (hload : view.load node = node)
    (hkeys : Ascending cmp (Btree.inorder view (height + 1) node)) :
    Ascending cmp (weave (mid.map (Btree.inorder view height)) between) := by
  rw [hold.inorder hload] at hkeys
  exact (Ascending.append_iff.mp (Ascending.append_iff.mp hkeys).1).2.1

theorem below_left [Std.TransCmp cmp] (hold : Window node i left mid right front between back)
    (hload : view.load node = node)
    (hkeys : Ascending cmp (Btree.inorder view (height + 1) node))
    (hbelow : Below cmp item.1 front) :
    Below cmp item.1 (weave (left.map (Btree.inorder view height)) front) := by
  rw [hold.inorder hload] at hkeys
  have hleft := (Ascending.append_iff.mp (Ascending.append_iff.mp hkeys).1).1
  refine Below.weave ?_ hleft hbelow
  rw [List.length_map, hold.left, hold.front]

theorem above_right [Std.TransCmp cmp] (hold : Window node i left mid right front between back)
    (hload : view.load node = node)
    (hkeys : Ascending cmp (Btree.inorder view (height + 1) node))
    (habove : Above cmp item.1 back) :
    Above cmp item.1 (trail (right.map (Btree.inorder view height)) back) := by
  rw [hold.inorder hload] at hkeys
  refine Above.trail ?_ (Ascending.append_iff.mp hkeys).2.1 habove
  rw [List.length_map, hold.right]

theorem inserted [Std.TransCmp cmp] (hold : Window node i left mid right front between back)
    (hnew : Window node' i left newMid newRight front newBetween back)
    (hload : view.load node = node) (hload' : view.load node' = node')
    (hright : newRight.map (Btree.inorder view height) = right.map (Btree.inorder view height))
    (hkeys : Ascending cmp (Btree.inorder view (height + 1) node))
    (hbelow : Below cmp item.1 front) (habove : Above cmp item.1 back)
    (hinserted : Inserted cmp item (weave (mid.map (Btree.inorder view height)) between)
      (weave (newMid.map (Btree.inorder view height)) newBetween)) :
    Inserted cmp item (Btree.inorder view (height + 1) node)
      (Btree.inorder view (height + 1) node') := by
  have hwithin := hinserted.within (hold.below_left hload hkeys hbelow)
    (hold.above_right hload hkeys habove)
  rwa [hold.inorder hload, hnew.inorder hload', hright]

theorem tail (hwindow : Window node i left (child :: mid) right front (sep :: between) back) :
    Window node (i + 1) (left ++ [child]) mid right (front ++ [sep]) between back where
  children := by rw [hwindow.children]; simp
  items := by rw [hwindow.items]; simp
  left := by rw [List.length_append, hwindow.left]; rfl
  front := by rw [List.length_append, hwindow.front]; rfl
  mid := Nat.succ.inj hwindow.mid
  right := hwindow.right

theorem head (hwindow : Window node i left (child :: mid) right front between back) :
    Window node i left [child] (mid ++ right) front [] (between ++ back) where
  children := by rw [hwindow.children]; simp
  items := by rw [hwindow.items]; simp
  left := hwindow.left
  front := hwindow.front
  mid := rfl
  right := by
    have hmid := hwindow.mid
    rw [List.length_append, List.length_append, hwindow.right]
    simpa using hmid

end Window

private theorem leaves_kept (hfits : view.Fits store) (hnode : node.isLoaded = true)
    (hshape : Shape view 1 least node)
    (hwindow : Window node i left [child, next] right front [sep] back)
    (hchild : child.isLoaded = true) (hnext : next.isLoaded = true) {first second : BtreeNode}
    (hfirst : Under view 0 first) (hsecond : Under view 0 second)
    (hfirstLoaded : first.isLoaded = true) (hsecondLoaded : second.isLoaded = true)
    (hsameFirst : first.own = child.own ∧ first.childNo = child.childNo)
    (hsameSecond : second.own = next.own ∧ second.childNo = next.childNo) (mid : Item)
    (hnew : node' = { node with
      isDirty := true
      items := front ++ [mid] ++ back
      children := left ++ [first, second] ++ right }) :
    Kept view 1 least store node store node' ∧
      Window node' i left [first, second] right front [mid] back := by
  subst hnew
  have hbranch := hfits.branch hnode hshape
  have hnumbered := hwindow.numbered_mid hbranch
  rw [numbered_cons, numbered_cons] at hnumbered
  have hexchange := @leaves_exchange _ _ _ _ _ hfits first second hchild hnext hfirst hsecond
    hfirstLoaded hsecondLoaded hsameFirst.1 hsameSecond.1
    (numbered_cons.mpr ⟨hsameFirst.2.trans hnumbered.1,
      numbered_cons.mpr ⟨hsameSecond.2.trans hnumbered.2.1, numbered_nil _⟩⟩) mid
  have hwindow' : Window { node with
      isDirty := true
      items := front ++ [mid] ++ back
      children := left ++ [first, second] ++ right } i left [first, second] right front [mid]
        back := hwindow.replace rfl rfl rfl rfl
  have hright : BtreeNode.numbered (i + [first, second].length) right = right :=
    numbered_eq (hwindow.numbered_right hbranch)
  obtain ⟨-, hleast, hle⟩ := hshape
  rw [hfits.loaded node hnode] at hleast hle
  have hcount := hwindow.objCount
  have hcount' := hwindow'.objCount
  refine ⟨hexchange.kept hfits hbranch hwindow (by rw [hright]; exact hwindow') rfl ?_ ?_,
    hwindow'⟩
  · rw [hcount', List.length_singleton]
    rw [hcount, List.length_singleton] at hleast
    exact hleast
  · rw [hcount', List.length_singleton]
    rw [hcount, List.length_singleton] at hle
    exact hle

private theorem weave_leaves (hfits : view.Fits store) (hchild : child.isLoaded = true)
    (hnext : next.isLoaded = true) :
    weave ([child, next].map (inorder view 0)) [sep] = child.items ++ sep :: next.items := by
  rw [List.map_cons, List.map_singleton, weave_two, hfits.inorder_leaf hchild,
    hfits.inorder_leaf hnext]

section Routes

variable [Std.TransCmp cmp] [Std.LawfulEqCmp cmp]

private theorem thirds_route {below : BtreeNode → Prop} {store' : Store}
    {first second third : BtreeNode}
    {item1 item2 : Item} (hbranch : Branch below node')
    (hwindow : Window node' i left [first, second, third] right front [item1, item2] back)
    (hfirst : first.isLoaded = true) (hsecond : second.isLoaded = true)
    (hthird : third.isLoaded = true) (hroom1 : first.objCount < view.maxKeys)
    (hroom2 : second.objCount < view.maxKeys) (hroom3 : third.objCount < view.maxKeys)
    (hless : cmp item1.1 item2.1 = .lt) (hbelow : Below cmp item.1 front)
    (habove : Above cmp item.1 back) (hsame : inorder view 1 node' = inorder view 1 node)
    (hcount : store'.sfh.numItems = store.sfh.numItems)
    (hpresent : ∀ other ∈ [item1, item2], other ∈ inorder view 1 node) :
    ∃ route, (do
      let sep1 ← node'.items[i]?
      let sep2 ← node'.items[i + 1]?
      if cmp sep1.1 item.1 = .eq || cmp sep2.1 item.1 = .eq then some (store', node', .done false)
      else do
        let childNum :=
          if cmp sep1.1 item.1 = .gt then i
          else if cmp sep2.1 item.1 = .gt then i + 1
          else i + 2
        let (store, node) ← loadChild store' node' childNum
        some (store, node, Route.down childNum)) = some (store', node', route) ∧
      Outcome cmp view 0 item store node store' node' route := by
  have hhead := hwindow.head
  have htail := hwindow.tail
  simp only [hwindow.sep_eq, htail.sep_eq, Option.bind_eq_bind, Option.bind_some]
  cases hcmp1 : cmp item1.1 item.1 with
  | eq =>
    exact ⟨.done false, rfl, .present hsame
      ⟨item1, hpresent item1 (by simp), Std.LawfulEqCmp.eq_of_compare hcmp1⟩ hcount⟩
  | gt =>
    have hitem1 : cmp item.1 item1.1 = .lt := Std.OrientedCmp.lt_of_gt hcmp1
    have hitem2 : cmp item.1 item2.1 = .lt := Std.TransCmp.lt_trans hitem1 hless
    have hcmp2 : cmp item2.1 item.1 = .gt := Std.OrientedCmp.gt_of_lt hitem2
    simp only [hcmp2, reduceCtorEq, decide_false, Bool.or_self, Bool.false_eq_true, if_false,
      if_true, loadChild_same hbranch hhead.child_eq hfirst, Option.bind_some]
    exact ⟨.down i, rfl, .below hsame hcount hhead hfirst hroom1 hbelow
      (Above.cons_iff.mpr ⟨hitem1, Above.cons_iff.mpr ⟨hitem2, habove⟩⟩)⟩
  | lt =>
    cases hcmp2 : cmp item2.1 item.1 with
    | eq =>
      exact ⟨.done false, rfl, .present hsame
        ⟨item2, hpresent item2 (by simp), Std.LawfulEqCmp.eq_of_compare hcmp2⟩ hcount⟩
    | gt =>
      simp only [reduceCtorEq, decide_false, Bool.or_self, Bool.false_eq_true, if_false,
        if_true, loadChild_same hbranch htail.child_eq hsecond, Option.bind_some]
      exact ⟨.down (i + 1), rfl, .below hsame hcount htail.first hsecond hroom2
        (Below.append_iff.mpr ⟨hbelow, Below.cons_iff.mpr ⟨hcmp1, below_nil⟩⟩)
        (Above.cons_iff.mpr ⟨Std.OrientedCmp.lt_of_gt hcmp2, habove⟩)⟩
    | lt =>
      simp only [reduceCtorEq, decide_false, Bool.or_self, Bool.false_eq_true, if_false,
        loadChild_same hbranch htail.next_eq hthird, Option.bind_some]
      exact ⟨.down (i + 2), rfl, .below hsame hcount htail.second hthird hroom3
        (Below.append_iff.mpr ⟨Below.append_iff.mpr ⟨hbelow,
          Below.cons_iff.mpr ⟨hcmp1, below_nil⟩⟩, Below.cons_iff.mpr ⟨hcmp2, below_nil⟩⟩) habove⟩

end Routes

section Ways

variable [Std.TransCmp cmp] [Std.LawfulEqCmp cmp] (hfits : view.Fits store)
  (hmax : 6 ≤ view.maxKeys) (hnode : node.isLoaded = true)
include hfits hmax hnode

private theorem split_makes (hshape : Shape view (height + 1) least node)
    (hroom : node.objCount < view.maxKeys)
    (hwindow : Window node i left [child] right front [] back) (hchild : child.isLoaded = true)
    (hfull : child.objCount = view.maxKeys) (hway : (!child.isLeaf || !delaySplit) = true)
    (hbelow : Below cmp item.1 front) (habove : Above cmp item.1 back) :
    Makes cmp view height least item store node
      (makeRoom cmp delaySplit store node i item) := by
  have hbranch := hfits.branch hnode hshape
  have hunder := hbranch.below child (hwindow.mem List.mem_cons_self)
  have hnumber := (numbered_cons.mp (hwindow.numbered_mid hbranch)).1
  have hfull' : child.items.length = view.maxKeys := hfull
  obtain ⟨saved, hsaved⟩ : ∃ saved, child.items[child.objCount / 2]? = some saved :=
    ⟨_, List.getElem?_eq_getElem (by omega)⟩
  have hsplit := split_eq store hwindow hsaved
  have hexchange := split_exchange hfits hchild hunder.2 hmax hfull hnumber saved
  generalize hnew : ({ node with
    isDirty := true
    items := front ++ [saved] ++ back
    children := left ++ [lowerHalf child, upperHalf store i child] ++
      BtreeNode.numbered (i + 2) right } : BtreeNode) = node' at hsplit
  have hwindow' : Window node' i left [lowerHalf child, upperHalf store i child]
      (BtreeNode.numbered (i + 2) right) front [saved] back := by
    subst hnew
    exact hwindow.replace rfl rfl rfl (length_numbered _ _)
  have hsame : { node' with items := [], children := [] } =
      { node with isDirty := true, items := [], children := [] } := by
    subst hnew
    rfl
  have hnode' : node'.isLoaded = true := (congrArg BtreeNode.isLoaded hsame :).trans hnode
  have hcount := hwindow.objCount
  have hcount' := hwindow'.objCount
  have hleast := hshape.least_le
  rw [hfits.loaded node hnode] at hleast
  rw [List.length_nil] at hcount
  rw [List.length_singleton] at hcount'
  have hkept := hexchange.kept hfits hbranch hwindow hwindow' hsame
    (show least ≤ node'.objCount by omega) (by omega)
  have hbranch' := (hfits.leads hexchange.leads).branch hnode' hkept.shape
  have hmid : inorder view height (lowerHalf child) ++ saved :: inorder view height
      (upperHalf store i child) = inorder view height child :=
    split_inorder hfits hchild hunder.2 hsaved
  have horder : inorder view (height + 1) node' = inorder view (height + 1) node := by
    refine hwindow.same hwindow' (hfits.loaded node hnode) (hfits.loaded node' hnode')
      (map_inorder_numbered hfits _ _) ?_
    rw [List.map_cons, List.map_singleton, List.map_singleton, weave_two, weave_one, hmid]
  have hlower : (lowerHalf child).objCount < view.maxKeys := by
    rw [lowerHalf_objCount]
    omega
  have hupper : (upperHalf store i child).objCount < view.maxKeys := by
    rw [upperHalf_objCount]
    omega
  unfold makeRoom
  rw [hwindow.child_eq]
  simp only [Option.bind_eq_bind, Option.bind_some]
  rw [if_neg (by rw [hfull, hfits.maxKeys]; exact Nat.lt_irrefl _), if_pos hway, hsplit]
  simp only [Option.bind_some, hwindow'.sep_eq]
  cases hcmp : cmp item.1 saved.1 with
  | eq =>
    refine ⟨_, node', .done false, rfl, hkept, .present horder ⟨saved, ?_, ?_⟩ rfl⟩
    · refine hwindow.mem_inorder (hfits.loaded node hnode) ?_
      rw [List.map_singleton, weave_one, ← hmid]
      exact List.mem_append_right _ List.mem_cons_self
    · exact (Std.LawfulEqCmp.eq_of_compare hcmp).symm
  | lt =>
    simp only [reduceCtorEq, if_false,
      loadChild_same hbranch' hwindow'.child_eq (show (lowerHalf child).isLoaded = true from hchild)]
    exact ⟨_, node', .down i, rfl, hkept, .below horder rfl hwindow'.first hchild hlower hbelow
      (Above.cons_iff.mpr ⟨hcmp, habove⟩)⟩
  | gt =>
    simp only [reduceCtorEq, if_false, if_true,
      loadChild_same hbranch' hwindow'.next_eq (show (upperHalf store i child).isLoaded = true from
        rfl)]
    exact ⟨_, node', .down (i + 1), rfl, hkept, .below horder rfl hwindow'.second rfl hupper
      (Below.append_iff.mpr ⟨hbelow, Below.cons_iff.mpr
        ⟨Std.OrientedCmp.lt_of_gt hcmp, below_nil⟩⟩) habove⟩

private theorem shiftRight_makes (hshape : Shape view 1 least node)
    (hkeys : Ascending cmp (inorder view 1 node))
    (hwindow : Window node i left [child, next] right front [sep] back)
    (hchild : child.isLoaded = true) (hnext : next.isLoaded = true)
    (hfull : child.objCount = view.maxKeys) (hroom : next.objCount < view.maxKeys)
    (hbelow : Below cmp item.1 front) (habove : Above cmp item.1 (sep :: back)) :
    Makes cmp view 0 least item store node (shiftRight cmp store node i item child next) := by
  have hbranch := hfits.branch hnode hshape
  have hunder := hbranch.below child (hwindow.mem List.mem_cons_self)
  have hunderNext := hbranch.below next (hwindow.mem (List.mem_cons_of_mem _ List.mem_cons_self))
  have hbottom := hfits.bottom hchild hunder.2
  have hbottomNext := hfits.bottom hnext hunderNext.2
  have hload := hfits.loaded node hnode
  have hleastNext := hunderNext.2.least_le
  rw [hfits.loaded next hnext] at hleastNext
  have hlengthNext : next.items.length = next.objCount := rfl
  have hmid := @weave_leaves _ _ child next sep hfits hchild hnext
  obtain ⟨hsep, haboveBack⟩ := Above.cons_iff.mp habove
  have hkeysMid := hwindow.ascending_mid hload hkeys
  obtain ⟨init, last, hitems⟩ : ∃ init last, child.items = init ++ [last] := by
    refine ⟨child.items.dropLast, child.items.getLast ?_, (List.dropLast_append_getLast _).symm⟩
    exact List.ne_nil_of_length_pos (show 0 < child.objCount by omega)
  have hlength : child.objCount = init.length + 1 := by
    unfold BtreeNode.objCount
    rw [hitems, List.length_append]
    rfl
  rw [shiftRight_eq cmp store hwindow hitems item]
  have hpushed : Under view 0 (next.refill (sep :: next.items)) :=
    hfits.under_refill hbottomNext (by rw [List.length_cons]; omega)
      (by rw [List.length_cons]; omega)
  cases hcmp : cmp last.1 item.1 with
  | eq =>
    refine ⟨store, node, .done false, rfl, Kept.refl hnode hshape,
      .present rfl ⟨last, ?_, Std.LawfulEqCmp.eq_of_compare hcmp⟩ rfl⟩
    refine hwindow.mem_inorder hload ?_
    rw [hmid, hitems]
    simp
  | lt =>
    obtain ⟨hkept, hwindow'⟩ := leaves_kept hfits hnode hshape hwindow hchild hnext hunder
      hpushed hchild hnext ⟨rfl, rfl⟩ ⟨rfl, rfl⟩ item rfl
    refine ⟨_, _, _, rfl, hkept.countItem, .inserted ?_ rfl⟩
    refine hwindow.inserted hwindow' hload (hfits.loaded _ hnode) rfl hkeys hbelow haboveBack ?_
    rw [hmid] at hkeysMid ⊢
    rw [weave_leaves hfits hchild (show (next.refill _).isLoaded = true from hnext)]
    obtain ⟨hkeysChild, -, haboveSep, -, -⟩ := Ascending.middle_iff.mp hkeysMid
    rw [hitems] at hkeysChild ⊢
    obtain ⟨-, hinit, -⟩ := Ascending.middle_iff.mp hkeysChild
    exact inserted_between
      (Below.append_iff.mpr ⟨hinit.trans hcmp, Below.cons_iff.mpr ⟨hcmp, below_nil⟩⟩)
      (Above.cons_iff.mpr ⟨hsep, haboveSep.trans hsep⟩)
  | gt =>
    have hpopped : Under view 0 (child.refill init) :=
      hfits.under_refill hbottom (by omega) (by omega)
    obtain ⟨hkept, hwindow'⟩ := leaves_kept hfits hnode hshape hwindow hchild hnext hpopped
      hpushed hchild hnext ⟨rfl, rfl⟩ ⟨rfl, rfl⟩ last rfl
    refine ⟨_, _, _, rfl, hkept, .below ?_ rfl hwindow'.first hchild ?_ hbelow
      (Above.cons_iff.mpr ⟨Std.OrientedCmp.lt_of_gt hcmp, haboveBack⟩)⟩
    · refine hwindow.same hwindow' hload (hfits.loaded _ hnode) rfl ?_
      rw [hmid, weave_leaves hfits (show (child.refill _).isLoaded = true from hchild)
        (show (next.refill _).isLoaded = true from hnext), hitems]
      simp [BtreeNode.refill]
    · show init.length < _
      omega

private theorem shiftLeft_makes (hshape : Shape view 1 least node)
    (hkeys : Ascending cmp (inorder view 1 node))
    (hwindow : Window node i left [next, child] right front [sep] back)
    (hchild : child.isLoaded = true) (hnext : next.isLoaded = true)
    (hfull : child.objCount = view.maxKeys) (hroom : next.objCount < view.maxKeys)
    (hbelow : Below cmp item.1 (front ++ [sep])) (habove : Above cmp item.1 back) :
    Makes cmp view 0 least item store node (shiftLeft cmp store node (i + 1) item child next) := by
  have hbranch := hfits.branch hnode hshape
  have hunder := hbranch.below child (hwindow.mem (List.mem_cons_of_mem _ List.mem_cons_self))
  have hunderNext := hbranch.below next (hwindow.mem List.mem_cons_self)
  have hbottom := hfits.bottom hchild hunder.2
  have hbottomNext := hfits.bottom hnext hunderNext.2
  have hload := hfits.loaded node hnode
  have hleastNext := hunderNext.2.least_le
  rw [hfits.loaded next hnext] at hleastNext
  have hlengthNext : next.items.length = next.objCount := rfl
  have hmid := @weave_leaves _ _ next child sep hfits hnext hchild
  obtain ⟨hbelowFront, hsep⟩ := Below.append_iff.mp hbelow
  obtain ⟨hsep, -⟩ := Below.cons_iff.mp hsep
  have hkeysMid := hwindow.ascending_mid hload hkeys
  rw [hmid] at hkeysMid
  obtain ⟨-, hnextSep, -, hkeysChild, -⟩ := Ascending.middle_iff.mp hkeysMid
  obtain ⟨first, tail, hitems⟩ : ∃ first tail, child.items = first :: tail :=
    List.exists_cons_of_length_pos (show 0 < child.objCount by omega)
  have hlength : child.objCount = tail.length + 1 := by
    unfold BtreeNode.objCount
    rw [hitems]
    rfl
  rw [hitems] at hkeysChild
  obtain ⟨-, -, habovefirst, hkeysTail, -⟩ := (@Ascending.middle_iff _ _ _ [] tail first).mp
    hkeysChild
  rw [shiftLeft_eq cmp store hwindow hitems item]
  have hpushed : Under view 0 (next.refill (next.items ++ [sep])) :=
    hfits.under_refill hbottomNext (by rw [List.length_append]; omega)
      (by rw [List.length_append, List.length_singleton]; omega)
  cases hcmp : cmp first.1 item.1 with
  | eq =>
    refine ⟨store, node, .done false, rfl, Kept.refl hnode hshape,
      .present rfl ⟨first, ?_, Std.LawfulEqCmp.eq_of_compare hcmp⟩ rfl⟩
    refine hwindow.mem_inorder hload ?_
    rw [hmid, hitems]
    simp
  | gt =>
    have hless : cmp item.1 first.1 = .lt := Std.OrientedCmp.lt_of_gt hcmp
    obtain ⟨hkept, hwindow'⟩ := leaves_kept hfits hnode hshape hwindow hnext hchild hpushed
      hunder hnext hchild ⟨rfl, rfl⟩ ⟨rfl, rfl⟩ item rfl
    refine ⟨_, _, _, rfl, hkept.countItem, .inserted ?_ rfl⟩
    refine hwindow.inserted hwindow' hload (hfits.loaded _ hnode) rfl hkeys hbelowFront habove ?_
    rw [hmid, weave_leaves hfits (show (next.refill _).isLoaded = true from hnext)
      hchild, hitems]
    have hplace : Inserted cmp item ((next.items ++ [sep]) ++ first :: tail)
        ((next.items ++ [sep]) ++ item :: first :: tail) :=
      inserted_between
        (Below.append_iff.mpr ⟨hnextSep.trans hsep, Below.cons_iff.mpr ⟨hsep, below_nil⟩⟩)
        (Above.cons_iff.mpr ⟨hless, habovefirst.trans hless⟩)
    rwa [List.append_assoc] at hplace
  | lt =>
    have hmoved : ∀ items : List Item, view.maxKeys / 3 - 1 ≤ items.length →
        items.length ≤ view.maxKeys → Under view 0 (child.refill items) :=
      fun items => hfits.under_refill hbottom
    have hweave : ∀ items : List Item,
        weave ([next.refill (next.items ++ [sep]), child.refill items].map (inorder view 0))
          [first] = next.items ++ sep :: (first :: items) := by
      intro items
      rw [weave_leaves hfits (show (next.refill _).isLoaded = true from hnext)
        (show (child.refill _).isLoaded = true from hchild)]
      simp [BtreeNode.refill]
    rcases @slide_cases cmp _ _ item _ hkeysTail with
      ⟨new, hslide, hinserted⟩ | ⟨hslide, other, hother, hkey⟩
    · have hmore := hinserted.length
      obtain ⟨hkept, hwindow'⟩ := leaves_kept hfits hnode hshape hwindow hnext hchild hpushed
        (hmoved new (by omega) (by omega)) hnext hchild ⟨rfl, rfl⟩ ⟨rfl, rfl⟩ first rfl
      rw [hslide]
      refine ⟨_, _, _, rfl, hkept.countItem, .inserted ?_ rfl⟩
      refine hwindow.inserted hwindow' hload (hfits.loaded _ hnode) rfl hkeys hbelowFront habove ?_
      rw [hmid, hweave, hitems]
      have hfirst : Below cmp item.1 (next.items ++ [sep, first]) :=
        Below.append_iff.mpr ⟨hnextSep.trans hsep,
          Below.cons_iff.mpr ⟨hsep, Below.cons_iff.mpr ⟨hcmp, below_nil⟩⟩⟩
      have hwithin := @Inserted.within _ _ _ _ _ _ _ [] hinserted hfirst above_nil
      simpa using hwithin
    · obtain ⟨hkept, hwindow'⟩ := leaves_kept hfits hnode hshape hwindow hnext hchild hpushed
        (hmoved tail (by omega) (by omega)) hnext hchild ⟨rfl, rfl⟩ ⟨rfl, rfl⟩ first rfl
      rw [hslide]
      refine ⟨_, _, _, rfl, hkept, .present ?_ ⟨other, ?_, hkey⟩ rfl⟩
      · refine hwindow.same hwindow' hload (hfits.loaded _ hnode) rfl ?_
        rw [hmid, hweave, hitems]
      · refine hwindow.mem_inorder hload ?_
        rw [hmid, hitems]
        simp [hother]

private theorem splitBoth_makes (hshape : Shape view 1 least node)
    (hroomNode : node.objCount < view.maxKeys)
    (hkeys : Ascending cmp (inorder view 1 node))
    (hwindow : Window node i left [child, next] right front [sep] back)
    (hchild : child.isLoaded = true) (hnext : next.isLoaded = true)
    (hfullChild : child.objCount = view.maxKeys) (hfullNext : next.objCount = view.maxKeys)
    {low : Nat} (hlow : (if 0 < low then low - 1 else low) = i)
    (hbelow : Below cmp item.1 front) (habove : Above cmp item.1 back) :
    Makes cmp view 0 least item store node (splitBoth cmp store node low item) := by
  have hbranch := hfits.branch hnode hshape
  have hunder := hbranch.below child (hwindow.mem List.mem_cons_self)
  have hunderNext := hbranch.below next (hwindow.mem (List.mem_cons_of_mem _ List.mem_cons_self))
  have hbottom := hfits.bottom hchild hunder.2
  have hbottomNext := hfits.bottom hnext hunderNext.2
  have hload := hfits.loaded node hnode
  have hnumber := (numbered_cons.mp (hwindow.numbered_mid hbranch)).1
  have hsizeChild : child.items.length = view.maxKeys := hfullChild
  have hsizeNext : next.items.length = view.maxKeys := hfullNext
  obtain ⟨low1, item1, high1, hitems1, hlow1⟩ := split_list
    (show 2 * view.maxKeys / 3 < child.items.length by omega)
  obtain ⟨low2, item2, high2, hitems2, hlow2⟩ := split_list
    (show view.maxKeys / 3 < next.items.length by omega)
  have hsplit := @split3Leaf_eq store _ _ _ _ _ _ _ _ _ _ item1 item2 low1 high1 low2 high2 hbranch
    hwindow hchild hnext hitems1 hitems2 (by rw [hfits.maxKeys, hlow1])
    (by rw [hfits.maxKeys, hlow2]) (by rw [hfits.maxKeys, hfullChild])
    (by rw [hfits.maxKeys, hfullNext])
  have hexchange := @split3_exchange view store child next i sep item1 item2 low1 high1 low2 high2
    hfits hmax hbottom hbottomNext hitems1 hitems2 hlow1 hlow2 hfullChild hfullNext hnumber
  generalize hnew : ({ node with
    isDirty := true
    items := front ++ [item1, item2] ++ back
    children := left ++ [child.refill low1, middleThird store i next (high1 ++ sep :: low2),
      lastThird store i next high2] ++ BtreeNode.numbered (i + 3) right } : BtreeNode) = node'
    at hsplit
  have hwindow' : Window node' i left [child.refill low1,
      middleThird store i next (high1 ++ sep :: low2), lastThird store i next high2]
        (BtreeNode.numbered (i + 3) right) front [item1, item2] back := by
    subst hnew
    exact hwindow.replace rfl rfl rfl (length_numbered _ _)
  have hsame : { node' with items := [], children := [] } =
      { node with isDirty := true, items := [], children := [] } := by
    subst hnew
    rfl
  have hnode' : node'.isLoaded = true := (congrArg BtreeNode.isLoaded hsame :).trans hnode
  have hload' := hfits.loaded node' hnode'
  have hcount := hwindow.objCount
  have hcount' := hwindow'.objCount
  have hleast := hshape.least_le
  rw [hload] at hleast
  simp only [List.length_cons, List.length_nil] at hcount hcount'
  have hkept := hexchange.kept hfits hbranch hwindow hwindow' hsame
    (show least ≤ node'.objCount by omega) (by omega)
  have hbranch' := (hfits.leads hexchange.leads).branch hnode' hkept.shape
  have hmid := @weave_leaves _ _ child next sep hfits hchild hnext
  have hmiddle : (middleThird store i next (high1 ++ sep :: low2)).isLoaded = true := rfl
  have hlast : (lastThird store i next high2).isLoaded = true := hnext
  have hfirst : (child.refill low1).isLoaded = true := hchild
  have hthirds : weave ([child.refill low1, middleThird store i next (high1 ++ sep :: low2),
      lastThird store i next high2].map (inorder view 0)) [item1, item2] =
        child.items ++ sep :: next.items := by
    simp only [List.map_cons, List.map_nil, weave_three, hfits.inorder_leaf hfirst,
      hfits.inorder_leaf hmiddle, hfits.inorder_leaf hlast]
    rw [hitems1, hitems2]
    simp [BtreeNode.refill, middleThird, lastThird]
  have horder : inorder view 1 node' = inorder view 1 node := by
    refine hwindow.same hwindow' hload hload' (map_inorder_numbered hfits _ _) ?_
    rw [hthirds, hmid]
  have hpresent : ∀ other ∈ [item1, item2], other ∈ inorder view 1 node := by
    intro other hother
    refine hwindow.mem_inorder hload ?_
    rw [hmid, ← hthirds]
    exact mem_weave_of_mem_items hother
  have hkeysThirds := hwindow'.ascending_mid hload' (by rw [horder]; exact hkeys)
  have hless : cmp item1.1 item2.1 = .lt := by
    simp only [List.map_cons, List.map_nil, weave_three] at hkeysThirds
    obtain ⟨-, -, habove1, -⟩ := Ascending.middle_iff.mp hkeysThirds
    exact habove1 item2 (by simp)
  have hlength1 := congrArg List.length hitems1
  have hlength2 := congrArg List.length hitems2
  rw [List.length_append, List.length_cons] at hlength1 hlength2
  have hroom1 : (child.refill low1).objCount < view.maxKeys := by
    show low1.length < _
    omega
  have hroom2 : (middleThird store i next (high1 ++ sep :: low2)).objCount < view.maxKeys := by
    show (high1 ++ sep :: low2).length < _
    rw [List.length_append, List.length_cons]
    omega
  have hroom3 : (lastThird store i next high2).objCount < view.maxKeys := by
    show high2.length < _
    omega
  have hcount : (allocateNode store).1.sfh.numItems = store.sfh.numItems := rfl
  obtain ⟨route, hroute, houtcome⟩ := thirds_route hbranch' hwindow' hfirst hmiddle hlast hroom1
    hroom2 hroom3 hless hbelow habove horder hcount hpresent
  refine ⟨_, node', route, ?_, hkept, houtcome⟩
  unfold splitBoth
  rw [hlow, ← hroute]
  simp only [hsplit, Option.bind_eq_bind, Option.bind_some]

private theorem leftOrSplit_makes (hshape : Shape view 1 least node)
    (hroom : node.objCount < view.maxKeys)
    (hkeys : Ascending cmp (inorder view 1 node))
    (hwindow : Window node i left [child] right front [] back) (hchild : child.isLoaded = true)
    (hfull : child.objCount = view.maxKeys)
    (hright : i = 0 → ∃ next rest, right = next :: rest ∧ next.isLoaded = true ∧
      next.objCount = view.maxKeys)
    (hbelow : Below cmp item.1 front) (habove : Above cmp item.1 back) :
    Makes cmp view 0 least item store node (leftOrSplit cmp store node i item) := by
  unfold leftOrSplit
  cases i with
  | zero =>
    obtain ⟨next, rest, rfl, hnext, hfullNext⟩ := hright rfl
    obtain ⟨sep, others, rfl⟩ := List.exists_cons_of_length_eq_add_one hwindow.right.symm
    rw [if_neg (Nat.lt_irrefl 0)]
    exact splitBoth_makes hfits hmax hnode hshape hroom hkeys (hwindow.of_first) hchild hnext hfull
      hfullNext rfl hbelow (Above.cons_iff.mp habove).2
  | succ i =>
    obtain ⟨left, adjacent, rfl⟩ : ∃ init last, left = init ++ [last] :=
      ⟨left.dropLast, left.getLast (List.ne_nil_of_length_eq_add_one hwindow.left),
        (List.dropLast_append_getLast _).symm⟩
    obtain ⟨front, sep, rfl⟩ : ∃ init last, front = init ++ [last] :=
      ⟨front.dropLast, front.getLast (List.ne_nil_of_length_eq_add_one hwindow.front),
        (List.dropLast_append_getLast _).symm⟩
    have hleft : left.length = i := by
      have hlength := hwindow.left
      rw [List.length_append, List.length_singleton] at hlength
      exact Nat.succ.inj hlength
    have hfront : front.length = i := by
      have hlength := hwindow.front
      rw [List.length_append, List.length_singleton] at hlength
      exact Nat.succ.inj hlength
    have hboth := Window.of_second hleft hfront hwindow
    have hbranch := hfits.branch hnode hshape
    obtain ⟨hbelowFront, -⟩ := Below.append_iff.mp hbelow
    rw [if_pos (Nat.succ_pos i), Nat.add_sub_cancel]
    obtain ⟨store', hcall, hsfh, hkept, hsame, hloadedWindow⟩ := load_kept hfits hnode hshape hboth.first
    generalize hnew : ({ node with
      children := left ++ [view.load adjacent] ++ child :: right } : BtreeNode) = node' at *
    rw [hcall]
    simp only [Option.bind_eq_bind, Option.bind_some]
    have hnode' : node'.isLoaded = true := hkept.loaded
    have hfits' := hfits.leads hkept.leads
    have hboth' := Window.of_first hloadedWindow
    have hadjacent := hbranch.below adjacent (hboth.mem List.mem_cons_self)
    have hroom' : node'.objCount < view.maxKeys := by
      rw [← hnew]
      exact hroom
    rw [hboth'.next_eq, hboth'.child_eq]
    simp only [Option.bind_some, hfits'.maxKeys]
    refine Makes.after hkept hsame (by rw [hsfh]) ?_
    rw [← hsame] at hkeys
    by_cases hspace : (view.load adjacent).objCount < view.maxKeys
    · rw [if_pos hspace]
      exact shiftLeft_makes hfits' hmax hnode' hkept.shape hkeys hboth' hchild hadjacent.2.loaded
        hfull hspace hbelow habove
    · rw [if_neg hspace]
      exact splitBoth_makes hfits' hmax hnode' hkept.shape hroom' hkeys hboth'
        hadjacent.2.loaded hchild (Nat.le_antisymm hadjacent.2.le (Nat.le_of_not_lt hspace)) hfull
        rfl hbelowFront habove

theorem makeRoom_makes (hshape : Shape view (height + 1) least node)
    (hroom : node.objCount < view.maxKeys)
    (hkeys : Ascending cmp (inorder view (height + 1) node))
    (hwindow : Window node i left [child] right front [] back) (hchild : child.isLoaded = true)
    (hspare : 1 ≤ node.objCount ∨ child.objCount < view.maxKeys ∨
      (!child.isLeaf || !delaySplit) = true)
    (hbelow : Below cmp item.1 front) (habove : Above cmp item.1 back) :
    Makes cmp view height least item store node
      (makeRoom cmp delaySplit store node i item) := by
  have hbranch := hfits.branch hnode hshape
  have hunder := hbranch.below child (hwindow.mem List.mem_cons_self)
  have hle := hunder.2.le
  rw [hfits.loaded child hchild] at hle
  by_cases hspace : child.objCount < view.maxKeys
  · unfold makeRoom
    rw [hwindow.child_eq]
    simp only [Option.bind_eq_bind, Option.bind_some, hfits.maxKeys]
    rw [if_pos hspace]
    exact ⟨store, node, .down i, rfl, Kept.refl hnode hshape,
      .below rfl rfl hwindow hchild hspace hbelow habove⟩
  · have hfull : child.objCount = view.maxKeys := Nat.le_antisymm hle (Nat.le_of_not_lt hspace)
    cases hway : !child.isLeaf || !delaySplit with
    | true =>
      exact split_makes hfits hmax hnode hshape hroom hwindow hchild hfull hway hbelow habove
    | false =>
      have hone : 1 ≤ node.objCount := by
        rcases hspare with hone | hless | hother
        · exact hone
        · exact absurd hless hspace
        · rw [hway] at hother
          cases hother
      have hleaf : child.isLeaf = true := by
        cases hcase : child.isLeaf with
        | true => rfl
        | false =>
          rw [hcase] at hway
          cases hway
      obtain rfl : height = 0 := by
        cases height with
        | zero => rfl
        | succ height =>
          have hinner := (hfits.branch hchild hunder.2).inner
          rw [hleaf] at hinner
          cases hinner
      have hcount := hwindow.objCount
      rw [List.length_nil] at hcount
      unfold makeRoom
      rw [hwindow.child_eq]
      simp only [Option.bind_eq_bind, Option.bind_some, hfits.maxKeys, hway, Bool.false_eq_true,
        if_false]
      rw [if_neg hspace]
      by_cases hnext : i < node.objCount
      · rw [if_pos hnext]
        obtain ⟨sep, others, rfl⟩ := List.exists_cons_of_length_pos
          (show 0 < back.length by omega)
        obtain ⟨next, rest, rfl⟩ := List.exists_cons_of_length_eq_add_one hwindow.right
        have hboth := hwindow.of_first
        obtain ⟨store', hcall, hsfh, hkept, hsame, hloadedWindow⟩ :=
          load_kept hfits hnode hshape hboth.second
        generalize hnew : ({ node with
          children := left ++ [child] ++ [view.load next] ++ rest } : BtreeNode) = node' at *
        rw [hcall]
        simp only [Option.bind_some]
        have hnode' : node'.isLoaded = true := hkept.loaded
        have hfits' := hfits.leads hkept.leads
        have hboth' := Window.of_second hwindow.left hwindow.front hloadedWindow
        have hunderNext := hbranch.below next
          (hboth.mem (List.mem_cons_of_mem _ List.mem_cons_self))
        have hroom' : node'.objCount < view.maxKeys := by
          rw [← hnew]
          exact hroom
        rw [hboth'.next_eq, hboth'.child_eq]
        simp only [Option.bind_some, hfits'.maxKeys]
        refine Makes.after hkept hsame (by rw [hsfh]) ?_
        rw [← hsame] at hkeys
        by_cases hspaceNext : (view.load next).objCount < view.maxKeys
        · rw [if_pos hspaceNext]
          exact shiftRight_makes hfits' hmax hnode' hkept.shape hkeys hboth' hchild
            hunderNext.2.loaded hfull hspaceNext hbelow habove
        · rw [if_neg hspaceNext]
          refine leftOrSplit_makes hfits' hmax hnode' hkept.shape hroom' hkeys hboth'.first hchild
            hfull (fun _ => ⟨view.load next, rest, rfl, hunderNext.2.loaded,
              Nat.le_antisymm hunderNext.2.le (Nat.le_of_not_lt hspaceNext)⟩) hbelow habove
      · rw [if_neg hnext]
        exact leftOrSplit_makes hfits hmax hnode hshape hroom hkeys hwindow hchild hfull
          (fun hzero => absurd hnext (by omega)) hbelow habove

end Ways

end Libsax.Btree
