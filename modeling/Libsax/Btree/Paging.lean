import Mathlib.Data.List.Flatten
import Libsax.Lib.Run
import Libsax.Btree.Exchange
import Libsax.Btree.Page

/-! Nodes and their places in the file. Whatever is allocated and written, the places of two
nodes do not overlap, and what was written of a node is read back. -/
namespace Libsax.Btree

open Libsax.Lib

/-- What a node is to hold: no more records than its arrays have room for. -/
structure Content (maxKeys : Nat) where
  isLeaf : Bool
  items : List Item
  children : List BtreeNode
  room : items.length ≤ maxKeys
  positions : ∀ child ∈ children, InLong child.fpos

/-- The nodes that pages were allocated for. -/
structure Paging where
  store : Store
  nodes : List BtreeNode

namespace Paging

def create (maxKeys pageSize : Nat) : Paging :=
  ⟨⟨{ CbFileHeader.create with maxKeys := maxKeys, pageSize := pageSize }, fun _ => 0, 0⟩, []⟩

inductive Action (maxKeys : Nat) where
  | allocate
  /-- a new node takes the page of a node, which takes the new one, as in `_split3Leaf` -/
  | allocateBefore (i : Nat)
  | change (i : Nat) (content : Content maxKeys)
  | write (i : Nat)
  /-- a node without changes is unloaded, and read again -/
  | reload (i : Nat)
  | remove (i : Nat)

def blank (node : BtreeNode) : BtreeNode :=
  { BtreeNode.create with fpos := node.fpos, childNo := node.childNo }

def step (maxKeys : Nat) (paging : Paging) : Action maxKeys → Option Paging
  | .allocate =>
    let (store, newNode) := allocateNode paging.store
    some ⟨store, newNode :: paging.nodes⟩
  | .allocateBefore i => do
    let node ← paging.nodes[i]?
    let (store, newNode) := allocateNode paging.store
    some ⟨store, { newNode with fpos := node.fpos } ::
      paging.nodes.set i { node with fpos := newNode.fpos, isDirty := true }⟩
  | .change i content => do
    let node ← paging.nodes[i]?
    some { paging with nodes := paging.nodes.set i { node with
      isDirty := true
      isLeaf := content.isLeaf
      items := content.items
      children := content.children } }
  | .write i => do
    let node ← paging.nodes[i]?
    let (sfh, file, node, _) ← node.write paging.store.sfh paging.store.file
    some ⟨{ paging.store with sfh := sfh, file := file }, paging.nodes.set i node⟩
  | .reload i => do
    let node ← paging.nodes[i]?
    if node.isDirty then none
    else do
      let (node, _) ← (blank node).read paging.store.sfh paging.store.file
      some { paging with nodes := paging.nodes.set i node }
  | .remove i => some { paging with nodes := paging.nodes.eraseIdx i }

end Paging

variable {maxKeys pageSize : Nat} {header header' : CbFileHeader} {file file' : ByteStore}
  {store store' : Store} {node node' : BtreeNode} {buf : PageBuffer} {others : List Extent}

/-- The page of a node begins as the node does, and the records behind are found by `read`. -/
structure OnPage (store : Store) (node : BtreeNode) : Prop where
  reaches : node.Reaches
  found : ∃ page body, store.file.read node.fpos.toNat store.sfh.pageSize = page ∧
    page = node.front ++ body ∧
    ((∀ item ∈ node.items, Filled item) →
      BtreeNode.readItems ((fseek node.overflowAddress).map fun pos =>
        store.file.read pos (store.sfh.pageSize * node.overflowPageCount)) node.items.length page
        node.front.length true = some node.items)

/-- A leaf, or an inner node with at least one key, that has neither an empty key nor an empty
value, and whose header fits a page. -/
structure Writable (pageSize : Nat) (node : BtreeNode) : Prop where
  filled : ∀ item ∈ node.items, Filled item
  header : node.front.length + 8 ≤ pageSize
  children : node.isLeaf = true ∧ node.children = [] ∨
    node.isLeaf = false ∧ 0 < node.objCount ∧ node.children.length = node.objCount + 1

/-- Whoever reads the page of the node finds what the node holds. -/
def ReadsBack (store : Store) (node : BtreeNode) : Prop :=
  ∀ blank : BtreeNode, blank.isLoaded = false → blank.fpos = node.fpos → blank.children = [] →
    ∃ other, blank.read store.sfh store.file = some (other, true) ∧
      other.isLeaf = node.isLeaf ∧ other.items = node.items ∧
      other.children.map BtreeNode.fpos = node.children.map BtreeNode.fpos

private theorem fileEnd_more (header : CbFileHeader) (count : Nat) :
    CbFileHeader.fileEnd { header with oPages := header.oPages + count } =
      header.fileEnd + header.pageSize * count := by
  unfold CbFileHeader.fileEnd
  dsimp only
  rw [← Nat.add_assoc, Nat.mul_add, Nat.add_assoc]

theorem BtreeNode.own_of_nonneg (hpos : 0 ≤ node.overflowAddress) :
    node.own = [(node.fpos, 1), (node.overflowAddress, node.overflowPageCount)] := by
  rw [BtreeNode.own, if_pos hpos]

theorem BtreeNode.Writes.settled (hwrites : node.Writes header file buf header' file' node')
    (hsettled : Settled header (node.own ++ others)) (hend : header'.fileEnd < 2 ^ 63) :
    Settled header' (node'.own ++ others) := by
  cases hwrites with
  | inPage hnp => exact hsettled
  | @spilled hnp _ address harea other hother =>
    have hown : 0 ≤ address → node'.own = [(node.fpos, 1), (address, buf.np - 1)] := by
      intro hpos
      rw [hother]
      exact congrArg (_ :: ·) (if_pos hpos)
    cases harea with
    | kept hpos hle =>
      rw [BtreeNode.own_of_nonneg hpos] at hsettled
      rw [hown hpos]
      have hswap := hsettled.perm (List.Perm.swap _ _ _)
      exact Settled.perm (Laid.shrink hswap hle) (List.Perm.swap _ _ _)
    | moved hpos =>
      rw [fileEnd_more] at hend
      have hlong := toLong_of_lt (show header.fileEnd < 2 ^ 63 by omega)
      have hfirst : (CbFileHeader.size : Int) ≤ header.fileEnd :=
        Int.ofNat_le.mpr (Nat.le_add_right _ _)
      have hleft : Settled header ((node.fpos, 1) :: others) :=
        Laid.sublist hsettled ((List.sublist_append_right _ _).cons_cons _)
      have hlaid := @Laid.cons_end _ _ _ _ hleft (buf.np - 1) hfirst
      rw [hown hpos]
      refine Settled.perm ?_ (List.Perm.swap _ _ _)
      unfold Settled
      rw [fileEnd_more, hlong]
      push_cast
      rw [mul_comm (header.pageSize : Int)]
      exact hlaid

theorem BtreeNode.Writes.agree (hwrites : node.Writes header file buf header' file' node')
    (hholds : Holds header.pageSize node.front node.items buf)
    (hroom : node.front.length + 8 ≤ header.pageSize) (hpos : 0 ≤ node.fpos) {place : Extent}
    (hplace : 0 ≤ place.1)
    (hapart : ∀ own ∈ node'.own, Apart header.pageSize own place) :
    ByteStore.Agree place.1.toNat (header.pageSize * place.2) file' file := by
  have hfpos : node'.fpos = node.fpos := by
    cases hwrites with
    | inPage => rfl
    | spilled hnp harea hother => rw [hother]
  have hfirst := hapart (node'.fpos, 1) List.mem_cons_self
  rw [hfpos] at hfirst
  unfold Apart at hfirst
  dsimp only at hfirst
  have hpage : ∀ page : List UInt8, page.length = header.pageSize →
      ByteStore.Agree place.1.toNat (header.pageSize * place.2) (file.write node.fpos.toNat page)
        file := by
    intro page hlength
    refine ByteStore.agree_write ?_
    rw [hlength]
    have hcomm : ((header.pageSize * place.2 : Nat) : Int) = place.2 * header.pageSize := by
      rw [Nat.cast_mul, mul_comm]
    omega
  cases hwrites with
  | inPage hnp => exact hpage _ (padded_length (hholds.length_le hnp))
  | @spilled hnp _ address harea other hother =>
    have hsame : node'.front.length = node.front.length := by
      rw [hother, BtreeNode.front_length, BtreeNode.front_length]
      rfl
    have hpos : 0 ≤ address := by cases harea <;> assumption
    have hown : (address, buf.np - 1) ∈ node'.own := by
      rw [hother, BtreeNode.own]
      dsimp only
      rw [if_pos hpos]
      exact List.mem_cons_of_mem _ List.mem_cons_self
    have hsecond := hapart _ hown
    have hfront := hpage _ (hholds.page_length hnp hsame (by omega))
    intro i hi
    rw [← hfront i hi]
    refine ByteStore.agree_write ?_ i hi
    rw [hholds.area_length hnp]
    unfold Apart at hsecond
    dsimp only at hsecond
    have hcomm : ((header.pageSize * place.2 : Nat) : Int) = place.2 * header.pageSize := by
      rw [Nat.cast_mul, mul_comm]
    have hcomm' : ((header.pageSize * (buf.np - 1) : Nat) : Int) =
        (buf.np - 1 : Nat) * header.pageSize := by
      rw [Nat.cast_mul, mul_comm]
    omega

theorem OnPage.congr (honPage : OnPage store node) (hpos : 0 ≤ node.fpos)
    (hpageSize : store'.sfh.pageSize = store.sfh.pageSize)
    (hagree : ∀ place ∈ node.own, 0 ≤ place.1 →
      ByteStore.Agree place.1.toNat (store.sfh.pageSize * place.2) store'.file store.file) :
    OnPage store' node := by
  obtain ⟨hreaches, page, body, hread, hpage, hitems⟩ := honPage
  have hfirst := hagree (node.fpos, 1) List.mem_cons_self hpos
  rw [Nat.mul_one] at hfirst
  refine ⟨hreaches, page, body, ?_, hpage, fun hfilled => ?_⟩
  · rw [hpageSize, ByteStore.read_congr hfirst, hread]
  · rw [← hitems hfilled, hpageSize]
    by_cases harea : 0 ≤ node.overflowAddress
    · have hseek : fseek node.overflowAddress = some node.overflowAddress.toNat := if_pos harea
      have hown : (node.overflowAddress, node.overflowPageCount) ∈ node.own := by
        rw [BtreeNode.own_of_nonneg harea]
        exact List.mem_cons_of_mem _ List.mem_cons_self
      rw [hseek, Option.map_some, Option.map_some, ByteStore.read_congr (hagree _ hown harea)]
    · have hseek : fseek node.overflowAddress = none := if_neg harea
      rw [hseek, Option.map_none, Option.map_none]

theorem BtreeNode.Writes.same (hwrites : node.Writes header file buf header' file' node') :
    node' = { node with
      isDirty := false
      overflowAddress := node'.overflowAddress
      overflowPageCount := node'.overflowPageCount } ∧
    header' = { header with oPages := header'.oPages } := by
  cases hwrites with
  | inPage hnp => exact ⟨rfl, rfl⟩
  | @spilled hnp _ address harea other hother =>
    refine ⟨by rw [hother], ?_⟩
    cases harea <;> rfl

theorem BtreeNode.Writes.area (hwrites : node.Writes header file buf header' file' node')
    (hnp : 2 ≤ buf.np) : 0 ≤ node'.overflowAddress ∧ node'.overflowPageCount = buf.np - 1 := by
  cases hwrites with
  | inPage hle => exact absurd hnp (Nat.not_le_of_lt (Nat.lt_succ_of_le hle))
  | @spilled hnp _ address harea other hother =>
    have hpos : 0 ≤ address := by cases harea <;> assumption
    rw [hother]
    exact ⟨hpos, rfl⟩

theorem BtreeNode.Writes.typed (hwrites : node.Writes header file buf header' file' node')
    (htyped : node.Typed) (hroom : node.front.length + 8 ≤ header.pageSize)
    (hsettled : Settled header' (node'.own ++ others)) (hend : header'.fileEnd < 2 ^ 63) :
    node'.Typed := by
  obtain ⟨hnode, hheader⟩ := hwrites.same
  have hpages : node'.overflowPageCount < 2 ^ 64 := by
    by_cases hnp : 2 ≤ buf.np
    · obtain ⟨harea, -⟩ := hwrites.area hnp
      have hplace := hsettled.within (node'.overflowAddress, node'.overflowPageCount) (by
        rw [BtreeNode.own_of_nonneg harea]
        simp)
      have hpageSize : header'.pageSize = header.pageSize := by rw [hheader]
      have hone : node'.overflowPageCount ≤ node'.overflowPageCount * header'.pageSize :=
        Nat.le_mul_of_pos_right _ (by omega)
      have hlimit := hplace.2
      dsimp only at hlimit
      push_cast at hone hlimit ⊢
      omega
    · cases hwrites with
      | inPage => exact htyped.pages
      | spilled hmore => exact absurd hmore hnp
  have haddress : InLong node'.overflowAddress := by
    cases hwrites with
    | inPage => exact htyped.address
    | @spilled _ _ address harea other hother =>
      rw [hother]
      cases harea with
      | kept => exact htyped.address
      | moved => exact toLong_inLong _
  rw [hnode]
  exact ⟨htyped.count, htyped.positions, haddress, hpages⟩

theorem OnPage.write (hwrite : node.write store.sfh store.file = some (header', file', node', true))
    (hsettled : Settled header' node'.own) :
    OnPage { store with sfh := header', file := file' } node' := by
  obtain ⟨hpos, -, hreaches, hroom, buf, hbuf, hwrites⟩ := BtreeNode.write_cases hwrite
  obtain ⟨hnode, hheader⟩ := hwrites.same
  have hpageSize : header'.pageSize = store.sfh.pageSize := by rw [hheader]
  have hitems : node'.items = node.items := by rw [hnode]
  have hfpos : node'.fpos = node.fpos := by rw [hnode]
  have hholds := (Holds.opened hroom).of_putItems hbuf
  rw [List.nil_append] at hholds
  have hapart : 2 ≤ buf.np →
      node'.fpos.toNat + store.sfh.pageSize ≤ node'.overflowAddress.toNat ∨
        node'.overflowAddress.toNat + store.sfh.pageSize * (buf.np - 1) ≤ node'.fpos.toNat := by
    intro hnp
    obtain ⟨harea, hcount⟩ := hwrites.area hnp
    have hlaid := hsettled.apart
    rw [BtreeNode.own_of_nonneg harea, List.pairwise_pair] at hlaid
    unfold Apart at hlaid
    dsimp only at hlaid
    rw [hpageSize, hcount] at hlaid
    have hcomm : ((store.sfh.pageSize * (buf.np - 1) : Nat) : Int) =
        (buf.np - 1 : Nat) * store.sfh.pageSize := by
      rw [Nat.cast_mul, mul_comm]
    omega
  obtain ⟨page, body, hread, hpage, hfound⟩ := hwrites.onPage hholds hroom hapart
  refine ⟨?_, page, body, ?_, hpage, ?_⟩
  · rw [hnode]
    exact hreaches
  · dsimp only
    rw [hpageSize, hread]
  · dsimp only
    rw [hitems, hpageSize]
    exact hfound

/-- A node that has a page: what it holds fits the types, and without changes it is as in the
file. -/
structure Paged (maxKeys : Nat) (store : Store) (node : BtreeNode) : Prop where
  loaded : node.isLoaded = true
  count : node.objCount ≤ maxKeys
  typed : node.Typed
  clean : node.isDirty = false → OnPage store node

structure Reread (node node' : BtreeNode) : Prop where
  isLeaf : node'.isLeaf = node.isLeaf
  isLoaded : node'.isLoaded = true
  isDirty : node'.isDirty = false
  fpos : node'.fpos = node.fpos
  overflowAddress : node'.overflowAddress = node.overflowAddress
  overflowPageCount : node'.overflowPageCount = node.overflowPageCount
  count : node'.objCount = node.objCount
  children : node'.children = node.unread

theorem Reread.own (hreread : Reread node node') : node'.own = node.own := by
  unfold BtreeNode.own
  rw [hreread.fpos, hreread.overflowAddress, hreread.overflowPageCount]

theorem Reread.inner (hreread : Reread node node') : node'.isInner = node.isInner := by
  unfold BtreeNode.isInner
  rw [hreread.count, hreread.isLeaf]

private theorem flatMap_fpos (children : List BtreeNode) :
    (children.flatMap fun child => encodeLong child.fpos) =
      (children.map BtreeNode.fpos).flatMap encodeLong := (List.flatMap_map _ _ _).symm

theorem Reread.front (hreread : Reread node node') : node'.front = node.front := by
  have hpositions : node'.positions = node.positions := by
    unfold BtreeNode.positions
    rw [hreread.inner, hreread.count, hreread.children]
    split_ifs with hinner
    · have hfpos := node.unread_fpos
      rw [if_pos hinner] at hfpos
      have htake : (node.unread.take (node.objCount + 1)).map BtreeNode.fpos =
          (node.children.take (node.objCount + 1)).map BtreeNode.fpos := by
        rw [List.map_take, hfpos, List.map_take, List.take_take, Nat.min_self]
      rw [flatMap_fpos, htake, flatMap_fpos]
    · rfl
  unfold BtreeNode.front
  rw [BtreeNode.pageHead_eq, BtreeNode.pageHead_eq, hpositions, hreread.isLeaf, hreread.count,
    hreread.overflowAddress, hreread.overflowPageCount]

theorem Paged.reread (hpaged : Paged maxKeys store node) (hpos : 0 ≤ node.fpos)
    (hclean : node.isDirty = false) (hmaxKeys : store.sfh.maxKeys = maxKeys) {flag : Bool}
    {other : BtreeNode} (hnot : other.isLoaded = false) (hfpos : other.fpos = node.fpos)
    (hnone : other.children = [])
    (hread : other.read store.sfh store.file = some (node', flag)) :
    Reread node node' ∧ Paged maxKeys store node' := by
  obtain ⟨hreaches, page, body, hpage, hfront, hfound⟩ := hpaged.clean hclean
  rw [BtreeNode.read_page hpaged.typed hreaches hpos hnot hfpos hnone hpage hfront,
    if_neg (by rw [hmaxKeys]; exact Nat.not_lt.mpr hpaged.count)] at hread
  obtain ⟨items, hitems, hresult⟩ := Option.map_eq_some_iff.mp hread
  cases hresult
  have hlength := readItems_length hitems
  have hreread : Reread node { other with
      isLeaf := node.isLeaf
      isLoaded := true
      isDirty := false
      overflowAddress := node.overflowAddress
      overflowPageCount := node.overflowPageCount
      items := items
      children := node.unread } := ⟨rfl, rfl, rfl, hfpos, rfl, rfl, hlength, rfl⟩
  have hchildren := node.unread_fpos
  refine ⟨hreread, rfl, hreread.count.trans_le hpaged.count, ⟨?_, ?_, hpaged.typed.address,
    hpaged.typed.pages⟩, fun _ => ⟨?_, page, body, ?_, ?_, fun _ => ?_⟩⟩
  · rw [hreread.count]
    exact hpaged.typed.count
  · intro child hchild
    have hmem : child.fpos ∈ node.unread.map BtreeNode.fpos := List.mem_map_of_mem hchild
    rw [hchildren] at hmem
    split_ifs at hmem
    · obtain ⟨before, hbefore, hsame⟩ := List.mem_map.mp hmem
      rw [← hsame]
      exact hpaged.typed.positions before (List.mem_of_mem_take hbefore)
    · exact absurd hmem List.not_mem_nil
  · intro hinner
    rw [hreread.inner] at hinner
    have hlt := hreaches hinner
    have hsize := congrArg List.length hchildren
    rw [if_pos hinner, List.length_map, List.length_map, List.length_take] at hsize
    rw [hreread.count, hreread.children]
    omega
  · rw [hreread.fpos]
    exact hpage
  · rw [hreread.front]
    exact hfront
  · rw [hreread.front]
    dsimp only
    rw [hlength, BtreeNode.front_length]
    exact hitems

theorem Writable.reaches (hwritable : Writable pageSize node) : node.Reaches := by
  intro hinner
  obtain ⟨-, hnot⟩ := Bool.and_eq_true_iff.mp hinner
  rcases hwritable.children with ⟨hleaf, -⟩ | ⟨-, -, hlength⟩
  · rw [hleaf] at hnot
    cases hnot
  · omega

theorem Writable.same (hwritable : Writable pageSize node)
    (hsame : node' = { node with
      isDirty := false
      overflowAddress := node'.overflowAddress
      overflowPageCount := node'.overflowPageCount }) : Writable pageSize node' := by
  refine ⟨?_, ?_, ?_⟩
  · rw [hsame]
    exact hwritable.filled
  · rw [BtreeNode.front_length, hsame]
    have hheader := hwritable.header
    rw [BtreeNode.front_length] at hheader
    exact hheader
  · rw [hsame]
    exact hwritable.children

theorem Writable.unread (hwritable : Writable pageSize node) :
    node.unread.map BtreeNode.fpos = node.children.map BtreeNode.fpos := by
  rw [node.unread_fpos]
  unfold BtreeNode.isInner
  rcases hwritable.children with ⟨hleaf, hnone⟩ | ⟨hleaf, hkeys, hlength⟩
  · rw [hleaf, hnone, Bool.not_true, Bool.and_false]
    rfl
  · rw [hleaf, decide_eq_true hkeys, ← hlength, List.take_length]
    rfl

theorem Paged.readsBack (hpaged : Paged maxKeys store node) (hpos : 0 ≤ node.fpos)
    (hclean : node.isDirty = false) (hmaxKeys : store.sfh.maxKeys = maxKeys)
    (hwritable : Writable pageSize node) : ReadsBack store node := by
  intro blank hnot hfpos hnone
  obtain ⟨hreaches, page, body, hpage, hfront, hfound⟩ := hpaged.clean hclean
  have hread := BtreeNode.read_page hpaged.typed hreaches hpos hnot hfpos hnone hpage hfront
  have hitems := hfound hwritable.filled
  rw [BtreeNode.front_length] at hitems
  rw [if_neg (by rw [hmaxKeys]; exact Nat.not_lt.mpr hpaged.count)] at hread
  unfold BtreeNode.objCount at hread
  rw [hitems, Option.map_some] at hread
  exact ⟨_, hread, rfl, rfl, hwritable.unread⟩

namespace Paging

variable {paging next final : Paging} {left right : List BtreeNode}

structure Valid (maxKeys pageSize : Nat) (paging : Paging) : Prop where
  sizes : paging.store.sfh.maxKeys = maxKeys ∧ paging.store.sfh.pageSize = pageSize
  settled : Settled paging.store.sfh (paging.nodes.flatMap BtreeNode.own)
  nodes : ∀ node ∈ paging.nodes, Paged maxKeys paging.store node

theorem Valid.fpos_nonneg (hvalid : Valid maxKeys pageSize paging) (hnode : node ∈ paging.nodes) :
    0 ≤ node.fpos := by
  have hplace := hvalid.settled.within (node.fpos, 1)
    (List.mem_flatMap.mpr ⟨node, hnode, List.mem_cons_self⟩)
  exact Int.le_trans (Int.natCast_nonneg _) hplace.1

theorem Valid.replace (hvalid : Valid maxKeys pageSize paging)
    (hsplit : paging.nodes = left ++ node :: right)
    (hsizes : store'.sfh.maxKeys = maxKeys ∧ store'.sfh.pageSize = pageSize)
    (hsettled : Settled store'.sfh (node'.own ++ (left ++ right).flatMap BtreeNode.own))
    (hnode : Paged maxKeys store' node')
    (hagree : ∀ place ∈ (left ++ right).flatMap BtreeNode.own, 0 ≤ place.1 →
      ByteStore.Agree place.1.toNat (pageSize * place.2) store'.file paging.store.file) :
    Valid maxKeys pageSize ⟨store', left ++ node' :: right⟩ := by
  refine ⟨hsizes, hsettled.perm ?_, fun other hother => ?_⟩
  · rw [List.flatMap_append, List.flatMap_append, List.flatMap_cons, ← List.append_assoc,
      ← List.append_assoc]
    exact List.perm_append_comm.append_right _
  · rcases List.mem_cons.mp (List.perm_middle.mem_iff.mp hother) with rfl | hmem
    · exact hnode
    · have hmem' : other ∈ paging.nodes := by
        rw [hsplit]
        exact List.perm_middle.mem_iff.mpr (List.mem_cons_of_mem _ hmem)
      have hpaged := hvalid.nodes other hmem'
      refine ⟨hpaged.loaded, hpaged.count, hpaged.typed, fun hclean => ?_⟩
      refine (hpaged.clean hclean).congr (hvalid.fpos_nonneg hmem')
        (hsizes.2.trans hvalid.sizes.2.symm) fun place hplace hpos => ?_
      rw [hvalid.sizes.2]
      exact hagree place (List.mem_flatMap.mpr ⟨other, hmem, hplace⟩) hpos

private theorem exists_split {nodes : List BtreeNode} {i : Nat} (hnode : nodes[i]? = some node) :
    ∃ left right, nodes = left ++ node :: right ∧
      ∀ other, nodes.set i other = left ++ other :: right := by
  obtain ⟨hlt, rfl⟩ := List.getElem?_eq_some_iff.mp hnode
  refine ⟨nodes.take i, nodes.drop (i + 1), ?_, fun other => ?_⟩
  · rw [← List.drop_eq_getElem_cons hlt, List.take_append_drop]
  · exact List.set_eq_take_append_cons_drop.trans (if_pos hlt)

theorem Valid.split (hvalid : Valid maxKeys pageSize paging)
    (hsplit : paging.nodes = left ++ node :: right) :
    Paged maxKeys paging.store node ∧
      Settled paging.store.sfh (node.own ++ (left ++ right).flatMap BtreeNode.own) := by
  refine ⟨hvalid.nodes node ?_, hvalid.settled.perm ?_⟩
  · rw [hsplit]
    exact List.mem_append_right _ List.mem_cons_self
  · rw [hsplit, List.flatMap_append, List.flatMap_append, List.flatMap_cons, ← List.append_assoc,
      ← List.append_assoc]
    exact List.perm_append_comm.append_right _

theorem Valid.write (hvalid : Valid maxKeys pageSize paging)
    (hsplit : paging.nodes = left ++ node :: right) {flag : Bool}
    (hwrite : node.write paging.store.sfh paging.store.file = some (header', file', node', flag))
    (hend : paging.store.sfh.fileEnd < 2 ^ 63) (hend' : header'.fileEnd < 2 ^ 63) :
    Valid maxKeys pageSize
      ⟨{ paging.store with sfh := header', file := file' }, left ++ node' :: right⟩ := by
  have hpos : 0 ≤ toLong paging.store.sfh.fileEnd := by
    rw [toLong_of_lt hend]
    exact Int.natCast_nonneg _
  cases flag with
  | false =>
    obtain ⟨rfl, rfl, rfl⟩ := BtreeNode.write_false hpos hwrite
    rw [← hsplit]
    exact hvalid
  | true =>
    obtain ⟨hfirst, hloaded, hreaches, hroom, buf, hbuf, hwrites⟩ := BtreeNode.write_cases hwrite
    obtain ⟨hpaged, hsettled⟩ := hvalid.split hsplit
    have hsettled' := hwrites.settled hsettled hend'
    have htyped := hwrites.typed hpaged.typed hroom hsettled' hend'
    have hholds := (Holds.opened hroom).of_putItems hbuf
    rw [List.nil_append] at hholds
    obtain ⟨hnode', hheader⟩ := hwrites.same
    have hsizes : header'.maxKeys = maxKeys ∧ header'.pageSize = pageSize := by
      rw [hheader]
      exact hvalid.sizes
    refine hvalid.replace hsplit hsizes hsettled' ⟨?_, ?_, htyped, fun _ => ?_⟩ ?_
    · rw [hnode']
      exact hpaged.loaded
    · rw [hnode']
      exact hpaged.count
    · exact OnPage.write hwrite hsettled'.append.1
    · intro place hplace hnonneg
      rw [← hvalid.sizes.2]
      refine hwrites.agree hholds hroom hfirst hnonneg fun own hown => ?_
      have hapart := (List.pairwise_append.mp hsettled'.apart).2.2 own hown place hplace
      rw [hsizes.2, ← hvalid.sizes.2] at hapart
      exact hapart

private theorem step_fileEnd_le {action : Action maxKeys}
    (hstep : step maxKeys paging action = some next) :
    paging.store.sfh.fileEnd ≤ next.store.sfh.fileEnd := by
  cases action with
  | allocate =>
    cases hstep
    exact (allocateNode_fileEnd paging.store).symm ▸ Nat.le_add_right _ _
  | allocateBefore i =>
    obtain ⟨node, -, hresult⟩ := Option.bind_eq_some_iff.mp hstep
    cases hresult
    exact (allocateNode_fileEnd paging.store).symm ▸ Nat.le_add_right _ _
  | change i content =>
    obtain ⟨node, -, hresult⟩ := Option.bind_eq_some_iff.mp hstep
    cases hresult
    exact Nat.le_refl _
  | write i =>
    obtain ⟨node, -, hrest⟩ := Option.bind_eq_some_iff.mp hstep
    obtain ⟨⟨sfh, file, node', flag⟩, hwrite, hresult⟩ := Option.bind_eq_some_iff.mp hrest
    cases hresult
    exact BtreeNode.write_fileEnd_le hwrite
  | reload i =>
    obtain ⟨node, -, hrest⟩ := Option.bind_eq_some_iff.mp hstep
    split_ifs at hrest
    obtain ⟨⟨node', flag⟩, -, hresult⟩ := Option.bind_eq_some_iff.mp hrest
    cases hresult
    exact Nat.le_refl _
  | remove i =>
    cases hstep
    exact Nat.le_refl _

private theorem run_fileEnd_le {actions : List (Action maxKeys)}
    (hrun : run (step maxKeys) paging actions = some final) :
    paging.store.sfh.fileEnd ≤ final.store.sfh.fileEnd :=
  @run_invariant _ _ _ (fun state => paging.store.sfh.fileEnd ≤ state.store.sfh.fileEnd)
    (fun _ _ _ hle hstep => Nat.le_trans hle (step_fileEnd_le hstep)) _ _ _ (Nat.le_refl _) hrun

theorem Valid.allocate (hvalid : Valid maxKeys pageSize paging)
    (hend : (allocateNode paging.store).1.sfh.fileEnd < 2 ^ 63) :
    Valid maxKeys pageSize
      ⟨(allocateNode paging.store).1, (allocateNode paging.store).2 :: paging.nodes⟩ := by
  refine ⟨hvalid.sizes, hvalid.settled.allocate hend, fun node hnode => ?_⟩
  rcases List.mem_cons.mp hnode with rfl | hmem
  · have hlong : InLong (-1) := ⟨by decide, by decide⟩
    exact ⟨rfl, Nat.zero_le _, ⟨Nat.two_pow_pos 64, fun child hchild => absurd hchild
      List.not_mem_nil, hlong, Nat.two_pow_pos 64⟩, fun hclean => nomatch hclean⟩
  · have hpaged := hvalid.nodes node hmem
    exact ⟨hpaged.loaded, hpaged.count, hpaged.typed, fun hclean =>
      (hpaged.clean hclean).congr (hvalid.fpos_nonneg hmem) rfl fun place _ _ i _ => rfl⟩

theorem Valid.allocateBefore (hvalid : Valid maxKeys pageSize paging)
    (hsplit : paging.nodes = left ++ node :: right)
    (hend : (allocateNode paging.store).1.sfh.fileEnd < 2 ^ 63) :
    Valid maxKeys pageSize ⟨(allocateNode paging.store).1,
      { (allocateNode paging.store).2 with fpos := node.fpos } :: (left ++
        { node with fpos := (allocateNode paging.store).2.fpos, isDirty := true } :: right)⟩ := by
  obtain ⟨hsizes, hsettled, hnodes⟩ := hvalid.allocate hend
  dsimp only at hsizes hsettled hnodes
  rw [hsplit] at hsettled hnodes
  refine ⟨hsizes, hsettled.perm ?_, fun other hother => ?_⟩
  · rw [List.flatMap_cons, List.flatMap_append, List.flatMap_cons, List.flatMap_cons,
      List.flatMap_append, List.flatMap_cons]
    exact ((List.perm_middle.cons _).trans (List.Perm.swap _ _ _)).trans
      (List.perm_middle.symm.cons _)
  · rcases List.mem_cons.mp hother with rfl | hmem
    · obtain ⟨hloaded, hcount, ⟨hsize, hpositions, haddress, hpages⟩, -⟩ :=
        hnodes _ List.mem_cons_self
      exact ⟨hloaded, hcount, ⟨hsize, hpositions, haddress, hpages⟩, fun hclean => nomatch hclean⟩
    · rcases List.mem_cons.mp (List.perm_middle.mem_iff.mp hmem) with rfl | hmem'
      · obtain ⟨hloaded, hcount, ⟨hsize, hpositions, haddress, hpages⟩, -⟩ :=
          hnodes node (List.mem_cons_of_mem _ (List.mem_append_right _ List.mem_cons_self))
        exact ⟨hloaded, hcount, ⟨hsize, hpositions, haddress, hpages⟩,
          fun hclean => nomatch hclean⟩
      · exact hnodes other (List.mem_cons_of_mem _
          (List.perm_middle.mem_iff.mpr (List.mem_cons_of_mem _ hmem')))

theorem Valid.dirty (hvalid : Valid maxKeys pageSize paging)
    (hsplit : paging.nodes = left ++ node :: right)
    (hown : node'.own = node.own) (hloaded : node'.isLoaded = true)
    (hcount : node'.objCount ≤ maxKeys) (htyped : node'.Typed) (hdirty : node'.isDirty = true) :
    Valid maxKeys pageSize ⟨paging.store, left ++ node' :: right⟩ := by
  obtain ⟨-, hsettled⟩ := hvalid.split hsplit
  refine hvalid.replace hsplit hvalid.sizes (by rw [hown]; exact hsettled)
    ⟨hloaded, hcount, htyped, fun hclean => ?_⟩ fun place _ _ i _ => rfl
  rw [hdirty] at hclean
  cases hclean

theorem Valid.step (hmax : maxKeys < 2 ^ 64) (hvalid : Valid maxKeys pageSize paging)
    {action : Action maxKeys} (hstep : step maxKeys paging action = some next)
    (hend : next.store.sfh.fileEnd < 2 ^ 63) : Valid maxKeys pageSize next := by
  have hbefore := Nat.lt_of_le_of_lt (step_fileEnd_le hstep) hend
  cases action with
  | allocate =>
    cases hstep
    exact hvalid.allocate hend
  | allocateBefore i =>
    obtain ⟨node, hnode, hresult⟩ := Option.bind_eq_some_iff.mp hstep
    cases hresult
    obtain ⟨left, right, hsplit, hset⟩ := exists_split hnode
    obtain ⟨hpaged, -⟩ := hvalid.split hsplit
    rw [hset]
    exact hvalid.allocateBefore hsplit hend
  | change i content =>
    obtain ⟨node, hnode, hresult⟩ := Option.bind_eq_some_iff.mp hstep
    cases hresult
    obtain ⟨left, right, hsplit, hset⟩ := exists_split hnode
    obtain ⟨hpaged, -⟩ := hvalid.split hsplit
    rw [hset]
    exact hvalid.dirty hsplit rfl hpaged.loaded content.room
      ⟨Nat.lt_of_le_of_lt content.room hmax, content.positions, hpaged.typed.address,
        hpaged.typed.pages⟩ rfl
  | write i =>
    obtain ⟨node, hnode, hrest⟩ := Option.bind_eq_some_iff.mp hstep
    obtain ⟨⟨sfh, file, node', flag⟩, hwrite, hresult⟩ := Option.bind_eq_some_iff.mp hrest
    cases hresult
    obtain ⟨left, right, hsplit, hset⟩ := exists_split hnode
    rw [hset]
    exact hvalid.write hsplit hwrite hbefore hend
  | reload i =>
    obtain ⟨node, hnode, hrest⟩ := Option.bind_eq_some_iff.mp hstep
    split_ifs at hrest with hdirty
    obtain ⟨⟨node', flag⟩, hread, hresult⟩ := Option.bind_eq_some_iff.mp hrest
    cases hresult
    obtain ⟨left, right, hsplit, hset⟩ := exists_split hnode
    obtain ⟨hpaged, hsettled⟩ := hvalid.split hsplit
    obtain ⟨hreread, hpaged'⟩ := hpaged.reread (hvalid.fpos_nonneg (List.mem_of_getElem? hnode))
      (Bool.eq_false_iff.mpr hdirty) hvalid.sizes.1
      (show (blank node).isLoaded = false from rfl) (show (blank node).fpos = node.fpos from rfl)
      rfl hread
    rw [hset]
    exact hvalid.replace hsplit hvalid.sizes (by rw [hreread.own]; exact hsettled) hpaged'
      fun place _ _ i _ => rfl
  | remove i =>
    cases hstep
    have hsub := List.eraseIdx_sublist paging.nodes i
    exact ⟨hvalid.sizes, Laid.sublist hvalid.settled (hsub.flatMap _), fun node hnode =>
      hvalid.nodes node (hsub.subset hnode)⟩

theorem create_valid (maxKeys pageSize : Nat) : Valid maxKeys pageSize (create maxKeys pageSize) :=
  ⟨⟨rfl, rfl⟩, ⟨List.Pairwise.nil, fun _ hplace => absurd hplace List.not_mem_nil⟩,
    fun _ hnode => absurd hnode List.not_mem_nil⟩

theorem Valid.run (hmax : maxKeys < 2 ^ 64) {actions : List (Action maxKeys)}
    (hvalid : Valid maxKeys pageSize paging)
    (hrun : run (Paging.step maxKeys) paging actions = some final)
    (hend : final.store.sfh.fileEnd < 2 ^ 63) : Valid maxKeys pageSize final := by
  induction actions generalizing paging with
  | nil =>
    cases hrun
    exact hvalid
  | cons action rest ih =>
    obtain ⟨next, hstep, hrest⟩ := run_cons_eq_some.mp hrun
    have hle := run_fileEnd_le hrest
    exact ih (hvalid.step hmax hstep (Nat.lt_of_le_of_lt hle hend)) hrest

theorem Valid.exists_write (hmax : maxKeys < 2 ^ 64) (hvalid : Valid maxKeys pageSize paging)
    (hend : paging.store.sfh.fileEnd < 2 ^ 63) {i : Nat} (hnode : paging.nodes[i]? = some node)
    (hdirty : node.isDirty = true) (hwritable : Writable pageSize node) :
    ∃ next, Paging.step maxKeys paging (.write i) = some next ∧
      (next.store.sfh.fileEnd < 2 ^ 63 → ∃ node', next.nodes[i]? = some node' ∧
        node'.isLeaf = node.isLeaf ∧ node'.items = node.items ∧ node'.children = node.children ∧
        ReadsBack next.store node') := by
  have hmem := List.mem_of_getElem? hnode
  have hpaged := hvalid.nodes node hmem
  have hroom : node.front.length + 8 ≤ paging.store.sfh.pageSize := by
    rw [hvalid.sizes.2]
    exact hwritable.header
  have hlast : 0 ≤ toLong paging.store.sfh.fileEnd := by
    rw [toLong_of_lt hend]
    exact Int.natCast_nonneg _
  obtain ⟨buf, hbuf, -⟩ := (Holds.opened hroom).putItems fun item hitem =>
    (hwritable.filled item hitem).whole
  obtain ⟨header', file', node', hwrite⟩ : ∃ header' file' node',
      node.write paging.store.sfh paging.store.file = some (header', file', node', true) :=
    BtreeNode.exists_write hdirty hpaged.loaded (hvalid.fpos_nonneg hmem) hwritable.reaches hroom
      hbuf hlast
  have hstep : Paging.step maxKeys paging (.write i) = some
      ⟨{ paging.store with sfh := header', file := file' }, paging.nodes.set i node'⟩ := by
    simp only [Paging.step, hnode, hwrite, Option.bind_eq_bind, Option.bind_some]
  refine ⟨_, hstep, fun hend' => ⟨node', ?_, ?_⟩⟩
  · exact List.getElem?_set_self (List.getElem?_eq_some_iff.mp hnode).1
  · have hvalid' := hvalid.step hmax hstep hend'
    have hnext : node' ∈ paging.nodes.set i node' :=
      List.mem_set (List.getElem?_eq_some_iff.mp hnode).1 node'
    obtain ⟨-, -, -, -, _, -, hwrites⟩ := BtreeNode.write_cases hwrite
    obtain ⟨hsame, -⟩ := hwrites.same
    have hclean : node'.isDirty = false := by rw [hsame]
    refine ⟨by rw [hsame], by rw [hsame], by rw [hsame], ?_⟩
    exact (hvalid'.nodes node' hnext).readsBack (hvalid'.fpos_nonneg hnext) hclean hvalid'.sizes.1
      (hwritable.same hsame)

/-- In every state, the places of different nodes do not overlap, and a node without changes is
read back from its page. A node with changes can be written, with all of its records in the page
or any number of pages behind it, and is read back afterwards. The file is as long as positions
in a file can say. -/
theorem round_trip (hmax : maxKeys < 2 ^ 64) {actions : List (Action maxKeys)}
    (hrun : run (Paging.step maxKeys) (create maxKeys pageSize) actions = some final)
    (hend : final.store.sfh.fileEnd < 2 ^ 63) :
    (final.nodes.flatMap BtreeNode.own).Pairwise (Apart pageSize) ∧
    (∀ node ∈ final.nodes, node.isDirty = false → Writable pageSize node →
      ReadsBack final.store node) ∧
    ∀ i node, final.nodes[i]? = some node → node.isDirty = true → Writable pageSize node →
      ∃ next, step maxKeys final (.write i) = some next ∧
        (next.store.sfh.fileEnd < 2 ^ 63 → ∃ node', next.nodes[i]? = some node' ∧
          node'.isLeaf = node.isLeaf ∧ node'.items = node.items ∧
          node'.children = node.children ∧ ReadsBack next.store node') := by
  have hvalid := (create_valid maxKeys pageSize).run hmax hrun hend
  refine ⟨?_, fun node hnode hclean hwritable => ?_, fun i node hnode hdirty hwritable => ?_⟩
  · have hapart := hvalid.settled.apart
    rw [hvalid.sizes.2] at hapart
    exact hapart
  · exact (hvalid.nodes node hnode).readsBack (hvalid.fpos_nonneg hnode) hclean hvalid.sizes.1
      hwritable
  · exact hvalid.exists_write hmax hend hnode hdirty hwritable

/-- One record that does not fit its page. -/
def wide : Content 6 where
  isLeaf := true
  items := [([1], cell (List.replicate 40 2))]
  children := []
  room := by decide
  positions := fun _ hchild => absurd hchild List.not_mem_nil

private theorem run_wide :
    (run (Paging.step 6) (create 6 64) [.allocate, .change 0 wide, .write 0, .reload 0]).map
      (fun final => (final.store.sfh.oPages, final.store.sfh.fileEnd)) = some (2, 256) := by
  decide +kernel

/-- A node with an overflow area is written, and read again. -/
theorem round_trip_wide : ∃ final,
    run (Paging.step 6) (create 6 64) [.allocate, .change 0 wide, .write 0, .reload 0] =
      some final ∧ final.store.sfh.oPages = 2 ∧
    (final.nodes.flatMap BtreeNode.own).Pairwise (Apart 64) ∧
    (∀ node ∈ final.nodes, node.isDirty = false → Writable 64 node →
      ReadsBack final.store node) ∧
    ∀ i node, final.nodes[i]? = some node → node.isDirty = true → Writable 64 node →
      ∃ next, step 6 final (.write i) = some next ∧
        (next.store.sfh.fileEnd < 2 ^ 63 → ∃ node', next.nodes[i]? = some node' ∧
          node'.isLeaf = node.isLeaf ∧ node'.items = node.items ∧
          node'.children = node.children ∧ ReadsBack next.store node') := by
  obtain ⟨final, hrun, hcounts⟩ := Option.map_eq_some_iff.mp run_wide
  obtain ⟨hpages, hend⟩ := Prod.mk.inj hcounts
  exact ⟨final, hrun, hpages, round_trip (by decide) hrun (by rw [hend]; decide)⟩

end Paging

end Libsax.Btree
