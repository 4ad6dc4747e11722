import Libsax.Btree.Window
import Libsax.Btree.Search

/-! What happens to a few neighbouring children when room is made: one is split, two
leaves are split into three, or records move between two leaves. -/
namespace Libsax.Btree

open Libsax.Lib
open Libsax.Db (Key Value)

def Settled (sfh : CbFileHeader) (places : List Extent) : Prop :=
  Laid sfh.pageSize CbFileHeader.size sfh.fileEnd places

/-- Children with the records between them give way to others. -/
structure Exchange (view : View) (height i : Nat) (store : Store) (mid : List BtreeNode)
    (store' : Store) (newMid : List BtreeNode) (newBetween : List Item) : Prop where
  leads : store.Leads store'
  count : newMid.length = newBetween.length + 1
  under : ∀ child ∈ newMid, Under view height child
  numbered : Numbered i newMid
  settled : store'.sfh.fileEnd < 2 ^ 63 → ∀ others,
    Settled store.sfh (mid.flatMap (extents view height) ++ others) →
      Settled store'.sfh (newMid.flatMap (extents view height) ++ others)

/-- A node after a call: still the tree it was, but for what the call is to change. -/
structure Kept (view : View) (height least : Nat) (store : Store) (node : BtreeNode)
    (store' : Store) (node' : BtreeNode) : Prop where
  leads : store.Leads store'
  loaded : node'.isLoaded = true
  fpos : node'.fpos = node.fpos
  childNo : node'.childNo = node.childNo
  page : node'.isDirty = true ∨ SamePage node node'
  shape : Shape view height least node'
  settled : store'.sfh.fileEnd < 2 ^ 63 → ∀ others,
    Settled store.sfh (extents view height node ++ others) →
      Settled store'.sfh (extents view height node' ++ others)

variable {view : View} {store store' : Store} {node node' child next : BtreeNode}
  {height i : Nat} {left mid right newMid newRight : List BtreeNode}
  {front between back newBetween : List Item} {sep : Item}

theorem toLong_of_lt {number : Nat} (hlt : number < 2 ^ 63) : toLong number = number := by
  unfold toLong
  rw [if_pos (by omega)]
  omega

theorem Settled.perm {sfh : CbFileHeader} {places others : List Extent}
    (hsettled : Settled sfh places) (hperm : places.Perm others) : Settled sfh others :=
  Laid.perm hsettled hperm

@[simp] theorem allocateNode_fileEnd (store : Store) :
    (allocateNode store).1.sfh.fileEnd = store.sfh.fileEnd + store.sfh.pageSize := by
  show CbFileHeader.size + store.sfh.pageSize * (store.sfh.nPages + 1 + store.sfh.oPages) = _
  unfold CbFileHeader.fileEnd
  rw [Nat.add_right_comm, Nat.mul_add, Nat.mul_one, Nat.add_assoc]

theorem Settled.allocate {places : List Extent} (hsettled : Settled store.sfh places)
    (hend : (allocateNode store).1.sfh.fileEnd < 2 ^ 63) :
    Settled (allocateNode store).1.sfh ((toLong store.sfh.fileEnd, 1) :: places) := by
  have hmore := allocateNode_fileEnd store
  have hfirst : CbFileHeader.size ≤ store.sfh.fileEnd := Nat.le_add_right _ _
  have hlaid := @Laid.cons_end _ _ _ _ hsettled 1 (Int.ofNat_le.mpr hfirst)
  rw [toLong_of_lt (by omega)]
  unfold Settled
  rw [hmore]
  rw [Nat.cast_one, one_mul] at hlaid
  exact hlaid

section Leaves

variable (hfits : view.Fits store)
include hfits

theorem View.Fits.inorder_leaf (hloaded : child.isLoaded = true) :
    inorder view 0 child = child.items := by
  rw [inorder, hfits.loaded child hloaded]

theorem View.Fits.extents_leaf (hloaded : child.isLoaded = true) :
    extents view 0 child = child.own := by
  rw [extents, hfits.loaded child hloaded]

theorem View.Fits.under_leaf (hbottom : Bottom child) (hdirty : child.isDirty = true)
    (hleast : view.maxKeys / 3 - 1 ≤ child.items.length)
    (hle : child.items.length ≤ view.maxKeys) : Under view 0 child := by
  unfold Under Shape
  rw [hfits.loaded child hbottom.loaded]
  exact ⟨hfits.dirty child hdirty, hbottom, hleast, hle⟩

end Leaves

theorem numbered_eq {first : Nat} {children : List BtreeNode} (hnumbered : Numbered first children) :
    BtreeNode.numbered first children = children := by
  unfold BtreeNode.numbered
  refine List.ext_getElem? fun i => ?_
  rw [List.getElem?_mapIdx]
  cases hchild : children[i]? with
  | none => rfl
  | some child => exact congrArg some (child.renumber_eq (hnumbered i child hchild))

section Above

variable (hfits : view.Fits store)
include hfits

theorem Window.branch_exchange (hbranch : Branch (Under view height) node)
    (hold : Window node i left mid right front between back)
    (hnew : Window node' i left newMid (BtreeNode.numbered (i + newMid.length) right) front
      newBetween back)
    (hexchange : Exchange view height i store mid store' newMid newBetween)
    (hloaded : node'.isLoaded = true) (hinner : node'.isLeaf = false) :
    Branch (Under view height) node' := by
  refine hold.branch hbranch hnew hloaded hinner hexchange.under hexchange.numbered ?_
    (numbered_numbered _ _)
  intro other hother
  obtain ⟨before, hbefore, childNo, rfl⟩ := mem_numbered hother
  exact hfits.under_renumber (hold.below_right hbranch before hbefore) childNo

theorem flatMap_extents_numbered (first : Nat) (children : List BtreeNode) :
    (BtreeNode.numbered first children).flatMap (extents view height) =
      children.flatMap (extents view height) := by
  rw [List.flatMap_def, List.flatMap_def,
    map_numbered fun _ childNo => hfits.extents_renumber childNo]

theorem map_inorder_numbered (first : Nat) (children : List BtreeNode) :
    (BtreeNode.numbered first children).map (inorder view height) =
      children.map (inorder view height) :=
  map_numbered fun _ childNo => hfits.inorder_renumber childNo

theorem Exchange.kept {least : Nat} (hexchange : Exchange view height i store mid store' newMid
      newBetween) (hbranch : Branch (Under view height) node)
    (hold : Window node i left mid right front between back)
    (hnew : Window node' i left newMid (BtreeNode.numbered (i + newMid.length) right) front
      newBetween back)
    (hsame : { node' with items := [], children := [] } =
      { node with isDirty := true, items := [], children := [] })
    (hleast : least ≤ node'.objCount) (hle : node'.objCount ≤ view.maxKeys) :
    Kept view (height + 1) least store node store' node' := by
  have hloaded : node'.isLoaded = true :=
    (congrArg BtreeNode.isLoaded hsame).trans hbranch.loaded
  have hinner : node'.isLeaf = false := (congrArg BtreeNode.isLeaf hsame).trans hbranch.inner
  have hown : node'.own = node.own := (congrArg BtreeNode.own hsame :)
  have hload := hfits.loaded node hbranch.loaded
  have hload' := hfits.loaded node' hloaded
  refine ⟨hexchange.leads, hloaded, (congrArg BtreeNode.fpos hsame :),
    (congrArg BtreeNode.childNo hsame :), Or.inl (congrArg BtreeNode.isDirty hsame :), ?_, ?_⟩
  · unfold Shape
    rw [hload']
    exact ⟨hold.branch_exchange hfits hbranch hnew hexchange hloaded hinner, hleast, hle⟩
  · intro hend others hsettled
    have hbefore : (extents view (height + 1) node ++ others).Perm
        (mid.flatMap (extents view height) ++ (node.own ++ left.flatMap (extents view height) ++
          right.flatMap (extents view height) ++ others)) := by
      rw [hold.extents hload]
      refine List.perm_iff_count.mpr fun place => ?_
      simp only [List.count_append]
      omega
    have hafter : (newMid.flatMap (extents view height) ++ (node.own ++
        left.flatMap (extents view height) ++ right.flatMap (extents view height) ++ others)).Perm
          (extents view (height + 1) node' ++ others) := by
      rw [hnew.extents hload', flatMap_extents_numbered hfits, hown]
      refine List.perm_iff_count.mpr fun place => ?_
      simp only [List.count_append]
      omega
    exact (hexchange.settled hend _ (hsettled.perm hbefore)).perm hafter

end Above

theorem SamePage.refl (node : BtreeNode) : SamePage node node :=
  ⟨rfl, rfl, rfl, rfl, rfl, rfl, rfl, rfl⟩

theorem SamePage.trans {node'' : BtreeNode} (hfirst : SamePage node node')
    (hsecond : SamePage node' node'') : SamePage node node'' where
  isLeaf := hsecond.isLeaf.trans hfirst.isLeaf
  isLoaded := hsecond.isLoaded.trans hfirst.isLoaded
  isDirty := hsecond.isDirty.trans hfirst.isDirty
  fpos := hsecond.fpos.trans hfirst.fpos
  overflowAddress := hsecond.overflowAddress.trans hfirst.overflowAddress
  overflowPageCount := hsecond.overflowPageCount.trans hfirst.overflowPageCount
  items := hsecond.items.trans hfirst.items
  children := hsecond.children.trans hfirst.children

theorem SamePage.own_eq (hsame : SamePage node node') : node'.own = node.own := by
  unfold BtreeNode.own
  rw [hsame.fpos, hsame.overflowAddress, hsame.overflowPageCount]

variable {least : Nat}

theorem Kept.refl (hloaded : node.isLoaded = true) (hshape : Shape view height least node) :
    Kept view height least store node store node where
  leads := Store.Leads.refl store
  loaded := hloaded
  fpos := rfl
  childNo := rfl
  page := Or.inr (SamePage.refl node)
  shape := hshape
  settled _ _ hsettled := hsettled

theorem Kept.trans {store'' : Store} {node'' : BtreeNode}
    (hfirst : Kept view height least store node store' node')
    (hsecond : Kept view height least store' node' store'' node'') :
    Kept view height least store node store'' node'' where
  leads := hfirst.leads.trans hsecond.leads
  loaded := hsecond.loaded
  fpos := hsecond.fpos.trans hfirst.fpos
  childNo := hsecond.childNo.trans hfirst.childNo
  page := by
    rcases hsecond.page with hdirty | hsame
    · exact Or.inl hdirty
    · rcases hfirst.page with hdirty | hbefore
      · exact Or.inl (hsame.isDirty.trans hdirty)
      · exact Or.inr (hbefore.trans hsame)
  shape := hsecond.shape
  settled hend others hsettled :=
    hsecond.settled hend others (hfirst.settled
      (Nat.lt_of_le_of_lt hsecond.leads.fileEnd_le hend) others hsettled)

theorem Kept.countItem (hkept : Kept view height least store node store' node') :
    Kept view height least store node store'.countItem node' where
  leads := hkept.leads.trans (Store.Leads.count store')
  loaded := hkept.loaded
  fpos := hkept.fpos
  childNo := hkept.childNo
  page := hkept.page
  shape := hkept.shape
  settled := hkept.settled

section Load

variable (hfits : view.Fits store) (hloaded : node.isLoaded = true)
  (hshape : Shape view (height + 1) least node)
include hfits hloaded hshape

theorem load_kept (hwindow : Window node i left [child] right front [] back) :
    ∃ store', loadChild store node i =
        some (store', { node with children := left ++ [view.load child] ++ right }) ∧
      store'.sfh = store.sfh ∧
      Kept view (height + 1) least store node store'
        { node with children := left ++ [view.load child] ++ right } ∧
      inorder view (height + 1) { node with children := left ++ [view.load child] ++ right } =
        inorder view (height + 1) node ∧
      Window { node with children := left ++ [view.load child] ++ right } i left
        [view.load child] right front [] back := by
  have hbranch := hfits.branch hloaded hshape
  have hunder := hbranch.below child (hwindow.mem List.mem_cons_self)
  have hnumbered := hwindow.numbered_mid hbranch
  obtain ⟨active, hcall⟩ := loadChild_eq hfits hbranch
    (hwindow.children.trans (List.append_assoc _ _ _)) hunder.2.loaded
  rw [hwindow.left] at hcall
  have hnew : Window { node with children := left ++ [view.load child] ++ right } i left
      [view.load child] right front [] back := hwindow.replace rfl hwindow.items rfl rfl
  have hload := hfits.loaded node hloaded
  have hload' := hfits.loaded { node with children := left ++ [view.load child] ++ right } hloaded
  have hnumber := hfits.childNo_load child
  have hpage : SamePage node { node with children := left ++ [view.load child] ++ right } := by
    refine ⟨rfl, rfl, rfl, rfl, rfl, rfl, rfl, ?_⟩
    rw [hwindow.children]
    simp only [List.map_append, List.map_cons, List.map_nil, hfits.fpos]
  refine ⟨{ store with activeNodeNum := active }, ?_, rfl, ?_, ?_, hnew⟩
  · rw [hcall, List.append_assoc]
    rfl
  · refine ⟨Store.Leads.active store active, hloaded, rfl, rfl, Or.inr hpage, ?_, ?_⟩
    · have hbranch' := hwindow.branch_same hbranch hnew hloaded hbranch.inner
        (by
          intro other hother
          rw [List.mem_singleton.mp hother]
          exact hfits.under_load hunder)
        (by
          rw [numbered_cons] at hnumbered ⊢
          exact ⟨hnumber.trans hnumbered.1, numbered_nil _⟩) rfl
      obtain ⟨-, hleast, hle⟩ := hshape
      rw [hload] at hleast hle
      unfold Shape
      rw [hload']
      exact ⟨hbranch', hleast, hle⟩
    · intro _ others hsettled
      rw [hwindow.extents hload] at hsettled
      rw [hnew.extents hload', hpage.own_eq]
      simpa only [List.flatMap_cons, List.flatMap_nil, hfits.extents_load hunder.2] using hsettled
  · rw [hwindow.inorder hload, hnew.inorder hload']
    simp only [List.map_cons, List.map_nil, hfits.inorder_load hunder.2]

end Load

section Child

variable (hfits : view.Fits store) (hloaded : node.isLoaded = true)
  (hshape : Shape view (height + 1) least node)
include hfits hloaded hshape

theorem Kept.above {child' : BtreeNode}
    (hwindow : Window node i left [child] right front [] back) (hchild : child.isLoaded = true)
    (hkept : Kept view height (view.maxKeys / 3 - 1) store child store' child') :
    Kept view (height + 1) least store node store'
        { node with children := left ++ [child'] ++ right } ∧
      Window { node with children := left ++ [child'] ++ right } i left [child'] right front []
        back := by
  have hbranch := hfits.branch hloaded hshape
  have hunder := hbranch.below child (hwindow.mem List.mem_cons_self)
  have hnumbered := (numbered_cons.mp (hwindow.numbered_mid hbranch)).1
  have hload := hfits.loaded node hloaded
  have hload' := hfits.loaded { node with children := left ++ [child'] ++ right } hloaded
  have hwindow' : Window { node with children := left ++ [child'] ++ right } i left [child'] right
      front [] back := hwindow.replace rfl hwindow.items rfl rfl
  have hpage : SamePage node { node with children := left ++ [child'] ++ right } := by
    refine ⟨rfl, rfl, rfl, rfl, rfl, rfl, rfl, ?_⟩
    rw [hwindow.children]
    simp only [List.map_append, List.map_cons, List.map_nil, hkept.fpos]
  have hgood : Under view height child' := by
    refine ⟨?_, hkept.shape⟩
    rw [hfits.loaded child' hkept.loaded]
    rcases hkept.page with hdirty | hsame
    · exact hfits.dirty child' hdirty
    · have hbefore := hunder.1
      rw [hfits.loaded child hchild] at hbefore
      exact hfits.congr hsame hbefore
  refine ⟨⟨hkept.leads, hloaded, rfl, rfl, Or.inr hpage, ?_, ?_⟩, hwindow'⟩
  · have hbranch' := hwindow.branch_same hbranch hwindow' hloaded hbranch.inner
      (by
        intro other hother
        rw [List.mem_singleton.mp hother]
        exact hgood)
      (numbered_cons.mpr ⟨hkept.childNo.trans hnumbered, numbered_nil _⟩) rfl
    obtain ⟨-, hleast, hle⟩ := hshape
    rw [hload] at hleast hle
    unfold Shape
    rw [hload']
    exact ⟨hbranch', hleast, hle⟩
  · intro hend others hsettled
    have hbefore : (extents view (height + 1) node ++ others).Perm (extents view height child ++
        (node.own ++ left.flatMap (extents view height) ++
          right.flatMap (extents view height) ++ others)) := by
      rw [hwindow.extents hload]
      refine List.perm_iff_count.mpr fun place => ?_
      simp only [List.count_append, List.flatMap_cons, List.flatMap_nil, List.count_nil]
      omega
    have hafter : (extents view height child' ++ (node.own ++ left.flatMap (extents view height) ++
        right.flatMap (extents view height) ++ others)).Perm
          (extents view (height + 1) { node with children := left ++ [child'] ++ right } ++
            others) := by
      rw [hwindow'.extents hload', hpage.own_eq]
      refine List.perm_iff_count.mpr fun place => ?_
      simp only [List.count_append, List.flatMap_cons, List.flatMap_nil, List.count_nil]
      omega
    exact (hkept.settled hend _ (hsettled.perm hbefore)).perm hafter

end Child

end Libsax.Btree
